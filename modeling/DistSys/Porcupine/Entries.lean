import DistSys.Lib.LinearizeSearch
import DistSys.Porcupine.Checker

/-!
# The linked list represents the entries

`makeLinkedEntries` puts a node for each entry, beginning with the last one, in front of the list.
The node of an entry is number `addr`. The list has the nodes in the order of the entries, and the
match of a call is the node of the return (`makeLinkedEntries_ok`).
-/

namespace DistSys.Porcupine

variable {ι ο σ : Type}

def Entry.ev (e : Entry ι ο) : Ev ℤ :=
  match e.kind with
  | .callEntry => .call e.id
  | .returnEntry => .ret e.id

@[simp] theorem Entry.id_ev (e : Entry ι ο) : e.ev.id = e.id := by
  rw [ev]
  cases e.kind <;> rfl

/-- The calls and returns of a history. -/
def evs (entries : List (Entry ι ο)) : List (Ev ℤ) := entries.map Entry.ev

/-- The node of an event. -/
def addr : List (Entry ι ο) → Ev ℤ → ℕ
  | [], _ => 0
  | e :: entries, x => if e.ev = x then entries.length else addr entries x

section Addr

variable {entries : List (Entry ι ο)} {e : Entry ι ο} {x y : Ev ℤ}

theorem addr_cons_self : addr (e :: entries) e.ev = entries.length := if_pos rfl

theorem addr_cons_of_mem (h : (evs (e :: entries)).Nodup) (hx : x ∈ evs entries) :
    addr (e :: entries) x = addr entries x := by
  refine if_neg ?_
  rintro rfl
  exact (List.nodup_cons.1 h).1 hx

theorem addr_lt (hx : x ∈ evs entries) : addr entries x < entries.length := by
  induction entries with
  | nil => cases hx
  | cons e entries ih =>
    rw [addr, List.length_cons]
    split
    · exact Nat.lt_succ_self _
    · rename_i hne
      exact (ih ((List.mem_cons.1 hx).resolve_left (Ne.symm hne))).trans (Nat.lt_succ_self _)

theorem addr_inj (hx : x ∈ evs entries) (hy : y ∈ evs entries)
    (h : addr entries x = addr entries y) : x = y := by
  induction entries with
  | nil => cases hx
  | cons e entries ih =>
    have hlt : ∀ {z}, z ∈ evs (e :: entries) → ¬ e.ev = z → z ∈ evs entries :=
      fun hz hne => (List.mem_cons.1 hz).resolve_left (Ne.symm hne)
    rw [addr, addr] at h
    split at h <;> split at h
    · rename_i h₁ h₂
      rw [← h₁, ← h₂]
    · rename_i h₁ h₂
      exact absurd h (addr_lt (hlt hy h₂)).ne'
    · rename_i h₁ h₂
      exact absurd h (addr_lt (hlt hx h₁)).ne
    · rename_i h₁ h₂
      exact ih (hlt hx h₁) (hlt hy h₂) h

theorem map_addr_cons (h : (evs (e :: entries)).Nodup) :
    (evs (e :: entries)).map (addr (e :: entries)) =
      entries.length :: (evs entries).map (addr entries) := by
  rw [evs, List.map_cons, List.map_cons, addr_cons_self]
  congr 1
  exact List.map_congr_left fun x hx => addr_cons_of_mem h hx

end Addr

/-- The nodes hold what the entries say, apart from their order. -/
structure Represents (entries : List (Entry ι ο)) (h : Heap ι ο) : Prop where
  value : ∀ e ∈ entries, h.value (addr entries e.ev) = some e.value
  id : ∀ e ∈ entries, h.id (addr entries e.ev) = e.id
  call : ∀ i, .call i ∈ evs entries →
    h.matching (addr entries (.call i)) = some (addr entries (.ret i))
  ret : ∀ i, .ret i ∈ evs entries → h.matching (addr entries (.ret i)) = none

/-! ## Building the list -/

namespace Heap

variable (h : Heap ι ο) (n : ℕ) (mark : Option ℕ)

@[simp] theorem insertBefore_value : (h.insertBefore n mark).value = h.value := by
  cases mark with
  | none => rfl
  | some mark => simp only [insertBefore]; cases h.links.prev mark <;> rfl

@[simp] theorem insertBefore_matching : (h.insertBefore n mark).matching = h.matching := by
  cases mark with
  | none => rfl
  | some mark => simp only [insertBefore]; cases h.links.prev mark <;> rfl

@[simp] theorem insertBefore_id : (h.insertBefore n mark).id = h.id := by
  cases mark with
  | none => rfl
  | some mark => simp only [insertBefore]; cases h.links.prev mark <;> rfl

@[simp] theorem insertBefore_size : (h.insertBefore n mark).size = h.size := by
  cases mark with
  | none => rfl
  | some mark => simp only [insertBefore]; cases h.links.prev mark <;> rfl

variable {h}

/-- A new node in front of a list. -/
theorem seg_insertBefore_new {l : List ℕ} (hseg : h.links.Seg l none) (hnodup : l.Nodup)
    (hlt : ∀ a ∈ l, a < h.size) (hfirst : ∀ r, l.head? = some r → h.links.prev r = none)
    (value : Option (ι ⊕ ο)) (matching : Option ℕ) (id : ℤ) :
    ((h.new value matching id).insertBefore h.size l.head?).links.Seg (h.size :: l) none ∧
      ((h.new value matching id).insertBefore h.size l.head?).links.prev h.size = none := by
  cases l with
  | nil => simp [Links.Seg, insertBefore, new, Links.setNext, Links.setPrev]
  | cons r l =>
    have hne : ∀ a ∈ r :: l, a ≠ h.size := fun a ha => (hlt a ha).ne
    have hr := hne r List.mem_cons_self
    have hbefore : (h.new value matching id).links.prev r = none := by
      rw [← hfirst r rfl]
      exact Function.update_of_ne hr _ _
    simp only [List.head?_cons, insertBefore, hbefore]
    refine ⟨⟨?_, ?_, hseg.congr ?_ ?_ fun _ h => by cases h⟩, ?_⟩
    · simp [setNext, setPrev, Links.setNext]
    · intro b hb
      obtain rfl : r = b := by simpa using hb
      simp [setNext, setPrev, Links.setPrev, Links.setNext]
    · intro a ha
      simp [setNext, setPrev, new, Links.setPrev, Links.setNext, hne a ha]
    · intro a ha
      have har : a ≠ r := by
        rintro rfl
        exact (List.nodup_cons.1 hnodup).1 ha
      simp [setNext, setPrev, new, Links.setPrev, Links.setNext, har,
        hne a (List.mem_cons_of_mem r ha)]
    · simp [setNext, setPrev, new, Links.setPrev, Links.setNext, hr.symm]

end Heap

/-- What `makeLinkedEntries` has built from a part of the entries. -/
structure Linking.Ok (entries : List (Entry ι ο)) (k : Linking ι ο) : Prop where
  size : k.heap.size = entries.length
  root : k.root = ((evs entries).map (addr entries)).head?
  seg : k.heap.links.Seg ((evs entries).map (addr entries)) none
  first : ∀ r, k.root = some r → k.heap.links.prev r = none
  matching : ∀ i, .ret i ∈ evs entries → k.matching i = some (addr entries (.ret i))
  nodes : Represents entries k.heap

theorem nodup_map_addr {entries : List (Entry ι ο)} (h : (evs entries).Nodup) {E : List (Ev ℤ)}
    (hE : E.Sublist (evs entries)) : (E.map (addr entries)).Nodup := by
  refine (List.nodup_map_iff_inj_on (h.sublist hE)).2 fun x hx y hy => ?_
  exact addr_inj (hE.subset hx) (hE.subset hy)

/-- A node in front of those of the other entries. -/
theorem Represents.cons {entries : List (Entry ι ο)} {h h' : Heap ι ο} {e : Entry ι ο}
    {m : Option ℕ} (hr : Represents entries h) (hnodup : (evs (e :: entries)).Nodup)
    (hvalue : h'.value = Function.update h.value entries.length (some e.value))
    (hid : h'.id = Function.update h.id entries.length e.id)
    (hmatching : h'.matching = Function.update h.matching entries.length m)
    (hcall : ∀ i, e.ev = .call i → .ret i ∈ evs entries ∧ m = some (addr entries (.ret i)))
    (hret : ∀ i, e.ev = .ret i → m = none)
    (hpair : ∀ i, .call i ∈ evs entries → .ret i ∈ evs entries) : Represents (e :: entries) h' := by
  have hold : ∀ x ∈ evs entries, addr (e :: entries) x = addr entries x ∧
      addr entries x ≠ entries.length :=
    fun x hx => ⟨addr_cons_of_mem hnodup hx, (addr_lt hx).ne⟩
  refine ⟨?_, ?_, fun i hi => ?_, fun i hi => ?_⟩
  · rw [List.forall_mem_cons, addr_cons_self, hvalue, Function.update_self]
    refine ⟨rfl, fun e' he' => ?_⟩
    obtain ⟨h₁, h₂⟩ := hold e'.ev (List.mem_map_of_mem he')
    rw [h₁, Function.update_of_ne h₂, hr.value e' he']
  · rw [List.forall_mem_cons, addr_cons_self, hid, Function.update_self]
    refine ⟨rfl, fun e' he' => ?_⟩
    obtain ⟨h₁, h₂⟩ := hold e'.ev (List.mem_map_of_mem he')
    rw [h₁, Function.update_of_ne h₂, hr.id e' he']
  · rcases List.mem_cons.1 hi with hi | hi
    · obtain ⟨hmem, hm⟩ := hcall i hi.symm
      rw [hi, addr_cons_self, hmatching, Function.update_self, (hold _ hmem).1, hm]
    · obtain ⟨h₁, h₂⟩ := hold _ hi
      rw [h₁, hmatching, Function.update_of_ne h₂, hr.call i hi, (hold _ (hpair i hi)).1]
  · rcases List.mem_cons.1 hi with hi | hi
    · rw [hi, addr_cons_self, hmatching, Function.update_self, hret i hi.symm]
    · obtain ⟨h₁, h₂⟩ := hold _ hi
      rw [h₁, hmatching, Function.update_of_ne h₂, hr.ret i hi]

/-- One more entry, whose match is `m`. -/
theorem Linking.Ok.cons {entries : List (Entry ι ο)} {k : Linking ι ο} {e : Entry ι ο}
    {m : Option ℕ} {matching : ℤ → Option ℕ} (hk : k.Ok entries)
    (hnodup : (evs (e :: entries)).Nodup)
    (hcall : ∀ i, e.ev = .call i → .ret i ∈ evs entries ∧ m = some (addr entries (.ret i)))
    (hret : ∀ i, e.ev = .ret i → m = none)
    (hpair : ∀ i, .call i ∈ evs entries → .ret i ∈ evs entries)
    (hmatching : ∀ i, .ret i ∈ evs (e :: entries) →
      matching i = some (addr (e :: entries) (.ret i))) :
    Linking.Ok (e :: entries)
      { heap := (k.heap.new (some e.value) m e.id).insertBefore k.heap.size k.root
        root := some k.heap.size
        matching := matching } := by
  have hlt : ∀ a ∈ (evs entries).map (addr entries), a < k.heap.size := by
    rw [hk.size, List.forall_mem_map]
    exact fun x hx => addr_lt hx
  obtain ⟨hseg, hprev⟩ := k.heap.seg_insertBefore_new hk.seg
    (nodup_map_addr (List.nodup_cons.1 hnodup).2 (List.Sublist.refl _)) hlt
    (fun r hr => hk.first r (hk.root ▸ hr)) (some e.value) m e.id
  rw [← hk.root] at hseg hprev
  refine ⟨?_, ?_, ?_, ?_, hmatching, hk.nodes.cons hnodup ?_ ?_ ?_ hcall hret hpair⟩
  · simp [Heap.new, hk.size]
  · rw [map_addr_cons hnodup, hk.size]
    rfl
  · rw [map_addr_cons hnodup, ← hk.size]
    exact hseg
  · intro r hr
    obtain rfl : k.heap.size = r := by simpa using hr
    exact hprev
  · rw [Heap.insertBefore_value, ← hk.size]
    rfl
  · rw [Heap.insertBefore_id, ← hk.size]
    rfl
  · rw [Heap.insertBefore_matching, ← hk.size]
    rfl

theorem linkEntry_ok {entries : List (Entry ι ο)} {k : Linking ι ο} {e : Entry ι ο}
    (hk : k.Ok entries) (hnodup : (evs (e :: entries)).Nodup)
    (hpair : ∀ i, .call i ∈ evs (e :: entries) → .ret i ∈ evs entries) :
    (linkEntry e k).Ok (e :: entries) := by
  have hpair' : ∀ i, .call i ∈ evs entries → .ret i ∈ evs entries :=
    fun i hi => hpair i (List.mem_cons_of_mem _ hi)
  have hold : ∀ i, .ret i ∈ evs entries → k.matching i = some (addr (e :: entries) (.ret i)) := by
    intro i hi
    rw [addr_cons_of_mem hnodup hi, hk.matching i hi]
  cases hkind : e.kind with
  | callEntry =>
    have hev : e.ev = .call e.id := by rw [Entry.ev, hkind]
    rw [linkEntry, hkind]
    refine hk.cons hnodup (fun i hi => ?_) (fun i hi => ?_) hpair' (fun i hi => hold i ?_)
    · obtain rfl : e.id = i := Ev.call.inj (hev.symm.trans hi)
      have hmem := hpair e.id (hev ▸ List.mem_cons_self)
      exact ⟨hmem, hk.matching e.id hmem⟩
    · cases hev.symm.trans hi
    · refine (List.mem_cons.1 hi).resolve_left fun h => ?_
      cases hev.symm.trans h.symm
  | returnEntry =>
    have hev : e.ev = .ret e.id := by rw [Entry.ev, hkind]
    rw [linkEntry, hkind]
    refine hk.cons hnodup (fun i hi => ?_) (fun _ _ => rfl) hpair' (fun i hi => ?_)
    · cases hev.symm.trans hi
    · by_cases hid : i = e.id
      · rw [hid, Function.update_self, ← hev, addr_cons_self, hk.size]
      · rw [Function.update_of_ne hid]
        refine hold i ((List.mem_cons.1 hi).resolve_left fun h => hid ?_)
        exact Ev.ret.inj (h.trans hev)

/-- **The list represents the entries.** -/
theorem makeLinkedEntries_ok {entries : List (Entry ι ο)} (h : Complete (evs entries)) :
    (makeLinkedEntries entries).Ok entries := by
  -- a part of the entries at the end has the return of each call in it
  have hpart : ∀ es : List (Entry ι ο), (evs es).Nodup →
      (∀ i, .call i ∈ evs es → [.call i, .ret i].Sublist (evs es)) →
      (makeLinkedEntries es).Ok es := by
    intro es
    induction es with
    | nil =>
      intro _ _
      exact ⟨rfl, rfl, trivial, nofun, nofun, ⟨nofun, nofun, nofun, nofun⟩⟩
    | cons e es ih =>
      intro hnodup hpair
      have hcons : evs (e :: es) = e.ev :: evs es := rfl
      obtain ⟨he, hnodup'⟩ := List.nodup_cons.1 (hcons ▸ hnodup)
      refine linkEntry_ok (ih hnodup' fun i hi => ?_) hnodup fun i hi => ?_
      · rcases List.sublist_cons_iff.1 (hpair i (List.mem_cons_of_mem _ hi)) with h | ⟨l, hl, h⟩
        · exact h
        · exact absurd ((List.cons.inj hl).1 ▸ hi) he
      · rcases List.sublist_cons_iff.1 (hpair i hi) with h | ⟨l, hl, h⟩
        · exact h.subset (by simp)
        · rw [← (List.cons.inj hl).2] at h
          exact h.subset (by simp)
  exact hpart entries h.nodup fun i hi => h.pair _ hi

end DistSys.Porcupine
