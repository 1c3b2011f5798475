import DistSys.Porcupine.Entries

/-!
# The loop of `checkSingle` is the search

Every iteration of the loop is a move of the search of `Lib/LinearizeSearch`, as long as the
variables stand for a state of the search (`Simulates`):

* the list of nodes holds the events that remain, in their order;
* the pointers of the nodes that are taken out lead back, call by call, to the lists of the levels
  below (`Undo`);
* the bit set has the operations that are taken out (`Bits`), and the cache has, under their hashes,
  the configurations of the cache of the search.
-/

namespace DistSys.Porcupine

variable {ι ο σ : Type}

/-! ## Taking an operation out of the list, and putting it back -/

namespace Heap

variable {h : Heap ι ο} {a m : ℕ}

theorem next_setNext (L : Links ℕ) (p a : ℕ) : (L.setNext p (L.next a)).next a = L.next a := by
  by_cases hp : a = p
  · rw [hp, L.setNext_next_self]
  · exact L.setNext_next_of_ne hp _

/-- The pointers of the node itself stay. -/
theorem next_unlink {L L' : Links ℕ} (h : L.unlink a = some L') : L'.next a = L.next a := by
  simp only [Links.unlink, Option.bind_eq_bind, Option.bind_eq_some_iff, Option.pure_def,
    Option.some.injEq] at h
  obtain ⟨p, -, rfl⟩ := h
  rw [Links.setPrevOf_next, next_setNext]

theorem lift_eq (hm : h.matching a = some m) (hnext : (h.links.next a).isSome) :
    h.lift a = (h.links.unlink a).bind fun L => (L.unlink m).map fun L => { h with links := L } := by
  obtain ⟨n, hn⟩ := Option.isSome_iff_exists.1 hnext
  cases hp : h.links.prev a with
  | none => simp [lift, Links.unlink, hp]
  | some p =>
    have hn' : (h.links.setNext p (some n)).next a = some n := by
      rw [← hn, next_setNext]
    simp only [lift, Links.unlink, hp, setNext, setPrev, hn, hn', hm, Option.bind_eq_bind,
      Option.bind_some, Links.setPrevOf, Option.elim_some, Links.setNext_prev, Option.pure_def]
    generalize (h.links.setNext p (some n)).setPrev n (some p) = L
    cases hq : L.prev m with
    | none => simp
    | some q =>
      have hk := next_setNext L q m
      cases hk' : L.next m <;> rw [hk'] at hk <;> simp [hk]

theorem unlift_eq {L L' : Links ℕ} (hm : h.matching a = some m) (hL : h.links.relink m = some L)
    (hL' : L.relink a = some L') (hnext : (L.next a).isSome) :
    h.unlift a = some { h with links := L' } := by
  simp only [Links.relink, Option.bind_eq_bind, Option.bind_eq_some_iff, Option.pure_def,
    Option.some.injEq] at hL hL'
  obtain ⟨q, hq, rfl⟩ := hL
  obtain ⟨p, hp, rfl⟩ := hL'
  have hsome : ∀ L : Links ℕ, (L.next a).isSome → ((L.setNext p (some a)).next a).isSome := by
    intro L hL
    by_cases hpa : a = p
    · rw [hpa, L.setNext_next_self]
      rfl
    · rwa [L.setNext_next_of_ne hpa]
  cases hk : (h.links.setNext q (some m)).next m with
  | none =>
    rw [hk] at hp hnext
    obtain ⟨n, hn⟩ := Option.isSome_iff_exists.1 (hsome _ hnext)
    simp only [Links.setPrevOf, Option.elim_none] at hp hn
    simp [unlift, setNext, setPrev, Links.setPrevOf, hm, hq, hk, hp, hn]
  | some k =>
    rw [hk] at hp hnext
    obtain ⟨n, hn⟩ := Option.isSome_iff_exists.1 (hsome _ hnext)
    simp only [Links.setPrevOf, Option.elim_some] at hp hn
    simp [unlift, setNext, setPrev, Links.setPrevOf, hm, hq, hk, hp, hn]

/-- **`unlift` undoes `lift`.** -/
theorem lift_spec {l₁ l₂ l₃ : List ℕ} (hm : h.matching a = some m)
    (hseg : h.links.Seg (l₁ ++ a :: l₂ ++ m :: l₃) none) (hnodup : (l₁ ++ a :: l₂ ++ m :: l₃).Nodup)
    (hl₁ : l₁ ≠ []) :
    ∃ L, h.lift a = some { h with links := L } ∧ L.Seg (l₁ ++ l₂ ++ l₃) none ∧
      { h with links := L }.unlift a = some h := by
  simp only [List.append_assoc, List.cons_append] at hseg hnodup
  have hnext : (h.links.next a).isSome := by
    rw [hseg.next_eq]
    cases l₂ <;> rfl
  obtain ⟨L₁, hL₁, hseg₁, hback₁⟩ := hseg.unlink hnodup hl₁
  have hnodup₁ : (l₁ ++ (l₂ ++ m :: l₃)).Nodup :=
    hnodup.sublist (List.Sublist.append_left (List.sublist_cons_self _ _) _)
  rw [← List.append_assoc] at hseg₁ hnodup₁
  obtain ⟨L₂, hL₂, hseg₂, hback₂⟩ := hseg₁.unlink hnodup₁ (by simp [hl₁])
  refine ⟨L₂, ?_, hseg₂, ?_⟩
  · rw [lift_eq hm hnext, hL₁, Option.bind_some, hL₂, Option.map_some]
  · exact unlift_eq hm hback₂ hback₁ (by rwa [next_unlink hL₁])

end Heap

/-! ## Operations of the entries -/

/-- What the checker relies on: every operation is called once and then returns once, with an input
and an output, and the operations are numbered from 0. -/
structure WellFormed (entries : List (Entry ι ο)) : Prop where
  complete : Complete (evs entries)
  input : ∀ e ∈ entries, e.kind = .callEntry → ∃ x, e.value = .inl x
  output : ∀ e ∈ entries, e.kind = .returnEntry → ∃ y, e.value = .inr y
  range : ∀ e ∈ entries, 0 ≤ e.id ∧ e.id < entries.length / 2

/-- The value of the entry of an event. -/
def valueAt (entries : List (Entry ι ο)) (x : Ev ℤ) : Option (ι ⊕ ο) :=
  (entries.find? fun e => e.ev = x).map Entry.value

/-- The step of the model for the operation with a number. -/
def opStep (model : FullModel ι ο σ) (entries : List (Entry ι ο)) (s : σ) (i : ℤ) : Option σ := do
  let input ← (← valueAt entries (.call i)).getLeft?
  let output ← (← valueAt entries (.ret i)).getRight?
  let r := model.step s input output
  if r.1 then some r.2 else none

namespace WellFormed

variable {entries : List (Entry ι ο)} {e : Entry ι ο} {i : ℤ}

theorem valueAt_ev (wf : WellFormed entries) (he : e ∈ entries) :
    valueAt entries e.ev = some e.value := by
  obtain ⟨e', he'⟩ : ∃ e', entries.find? (fun e' => e'.ev = e.ev) = some e' := by
    rw [← Option.isSome_iff_exists, List.find?_isSome]
    exact ⟨e, he, by simp⟩
  have hev : e'.ev = e.ev := by simpa using List.find?_some he'
  have heq : e' = e :=
    List.inj_on_of_nodup_map wf.complete.nodup (List.mem_of_find?_eq_some he') he hev
  rw [valueAt, he', Option.map_some, heq]

/-- The call and the return of an operation, with its input and its output. -/
theorem exists_entries (wf : WellFormed entries) (hi : .call i ∈ evs entries) :
    ∃ e ∈ entries, ∃ e' ∈ entries, e.ev = .call i ∧ e'.ev = .ret i ∧
      ∃ x y, e.value = .inl x ∧ e'.value = .inr y := by
  obtain ⟨e, he, hev⟩ := List.mem_map.1 hi
  have hret : .ret i ∈ evs entries := (wf.complete.pair _ hi).subset (by simp)
  obtain ⟨e', he', hev'⟩ := List.mem_map.1 hret
  have hkind : e.kind = .callEntry := by
    rw [Entry.ev] at hev
    cases hk : e.kind <;> simp_all
  have hkind' : e'.kind = .returnEntry := by
    rw [Entry.ev] at hev'
    cases hk : e'.kind <;> simp_all
  obtain ⟨x, hx⟩ := wf.input e he hkind
  obtain ⟨y, hy⟩ := wf.output e' he' hkind'
  exact ⟨e, he, e', he', hev, hev', x, y, hx, hy⟩

/-- What the loop reads from the nodes of an operation, and the step that it makes of it. -/
theorem read (wf : WellFormed entries) (model : FullModel ι ο σ) {h : Heap ι ο}
    (hr : Represents entries h) (hi : .call i ∈ evs entries) :
    ∃ x y, h.value (addr entries (.call i)) = some (.inl x) ∧
      h.value (addr entries (.ret i)) = some (.inr y) ∧ h.id (addr entries (.call i)) = i ∧
      ∀ s, opStep model entries s i =
        if (model.step s x y).1 then some (model.step s x y).2 else none := by
  obtain ⟨e, he, e', he', hev, hev', x, y, hx, hy⟩ := wf.exists_entries hi
  refine ⟨x, y, ?_, ?_, ?_, fun s => ?_⟩
  · rw [← hev, hr.value e he, hx]
  · rw [← hev', hr.value e' he', hy]
  · rw [← hev, hr.id e he, ← e.id_ev, hev, Ev.id_call]
  · rw [opStep, ← hev, ← hev', wf.valueAt_ev he, wf.valueAt_ev he', hx, hy]
    rfl

end WellFormed

/-! ## The set of operations that are taken out -/

/-- The bit set has the operations that are not among the remaining events. -/
structure Bits (entries : List (Entry ι ο)) (b : Bitset) (E : List (Ev ℤ)) : Prop where
  length : b.words.length = (Bitset.newBitset (entries.length / 2)).words.length
  rest : E = (evs entries).filter fun e => !b.has e.id.toNat
  taken : ∀ j, b.has j = true → Ev.call (j : ℤ) ∈ evs entries

namespace Bits

variable {entries : List (Entry ι ο)} {b b' : Bitset} {E : List (Ev ℤ)} {i : ℤ}

theorem init : Bits entries (.newBitset (entries.length / 2)) (evs entries) where
  length := rfl
  rest := by simp
  taken := by simp

theorem range_mem (wf : WellFormed entries) {e : Ev ℤ} (he : e ∈ evs entries) :
    0 ≤ e.id ∧ e.id < entries.length / 2 := by
  obtain ⟨e', he', rfl⟩ := List.mem_map.1 he
  simpa using wf.range e' he'

/-- What remains determines the bits. -/
theorem unique (hb : Bits entries b E) (hb' : Bits entries b' E) : b = b' := by
  have hiff : ∀ {b}, Bits entries b E → ∀ j : ℕ, b.has j = true ↔
      Ev.call (j : ℤ) ∈ evs entries ∧ Ev.call (j : ℤ) ∉ E := by
    intro b hb j
    constructor
    · intro hj
      refine ⟨hb.taken j hj, ?_⟩
      rw [hb.rest]
      simp [hj]
    · rintro ⟨hmem, hnot⟩
      rw [hb.rest] at hnot
      simpa [hmem] using hnot
  refine Bitset.ext_has (hb.length.trans hb'.length.symm) fun j => ?_
  rw [Bool.eq_iff_iff, hiff hb, hiff hb']

theorem index_lt (wf : WellFormed entries) (hb : Bits entries b E) (hi : .call i ∈ evs entries) :
    i.toNat / 64 < b.words.length := by
  rw [hb.length]
  have := range_mem wf hi
  rw [Ev.id_call] at this
  exact Bitset.length_newBitset (by omega)

theorem toNat_eq_iff (wf : WellFormed entries) {e : Ev ℤ} (he : e ∈ evs entries)
    (hi : .call i ∈ evs entries) : e.id.toNat = i.toNat ↔ e.id = i := by
  have h₁ := (range_mem wf he).1
  have h₂ := (range_mem wf hi).1
  rw [Ev.id_call] at h₂
  omega

/-- An operation is taken out. -/
theorem set (wf : WellFormed entries) (hb : Bits entries b E) (hi : .call i ∈ evs entries) :
    ∃ b', b.set i.toNat = some b' ∧ Bits entries b' (remove i E) := by
  obtain ⟨b', hset, hlen, hhas⟩ := Bitset.set_spec (hb.index_lt wf hi)
  refine ⟨b', hset, hlen.trans hb.length, ?_, fun j hj => ?_⟩
  · rw [remove, hb.rest, List.filter_filter]
    refine List.filter_congr fun e he => ?_
    rw [hhas, Bool.eq_iff_iff]
    by_cases h : e.id = i
    · simp [h]
    · simp [h, (toNat_eq_iff wf he hi).not.2 h]
  · rw [hhas] at hj
    split at hj
    · rename_i h
      have := (range_mem wf hi).1
      rw [Ev.id_call] at this
      rwa [h, Int.toNat_of_nonneg this]
    · exact hb.taken j hj

/-- An operation is put back. -/
theorem clear (wf : WellFormed entries) (hb : Bits entries b (remove i E)) {l : List ℤ}
    (hE : E = (evs entries).filter fun e => e.id ∉ l) (hi : .call i ∈ E) :
    ∃ b', b.clear i.toNat = some b' ∧ Bits entries b' E := by
  rw [hE, List.mem_filter, decide_eq_true_eq, Ev.id_call] at hi
  obtain ⟨b', hclear, hlen, hhas⟩ := Bitset.clear_spec (hb.index_lt wf hi.1)
  refine ⟨b', hclear, hlen.trans hb.length, ?_, fun j hj => ?_⟩
  · rw [hE]
    refine List.filter_congr fun e he => ?_
    rw [hhas, Bool.eq_iff_iff]
    by_cases h : e.id = i
    · simp [h, hi.2]
    · have hmem : e ∈ remove i E ↔ b.has e.id.toNat = false := by
        rw [hb.rest]
        simp [he]
      simp only [mem_remove, hE, List.mem_filter, decide_eq_true_eq, he, true_and] at hmem
      simp [h, (toNat_eq_iff wf he hi.1).not.2 h, ← hmem]
  · rw [hhas] at hj
    split at hj
    · cases hj
    · exact hb.taken j hj

end Bits

/-! ## The cache -/

/-- The cache has the known configurations, each under the hash of its bit set. -/
structure Caches (entries : List (Entry ι ο)) (cache : Cache σ) (known : List (List (Ev ℤ) × σ)) :
    Prop where
  sound : ∀ hash, ∀ e ∈ cache hash, ∃ E, (E, e.state) ∈ known ∧ Bits entries e.linearized E
  complete : ∀ p ∈ known, ∃ b, Bits entries b p.1 ∧ ⟨b, p.2⟩ ∈ cache b.hash

namespace Caches

variable {entries : List (Entry ι ο)} {cache : Cache σ} {known : List (List (Ev ℤ) × σ)}
  {b : Bitset} {s : σ} {E : List (Ev ℤ)}

/-- A hit in the cache is a configuration that is known. -/
theorem cacheContains_iff (hc : Caches entries cache known) (hb : Bits entries b E)
    (equal : σ → σ → Bool) :
    cacheContains equal cache ⟨b, s⟩ = true ↔ Known equal known s E := by
  simp only [cacheContains, List.any_eq_true, Bool.and_eq_true, Bitset.equals_iff]
  constructor
  · rintro ⟨⟨b', s'⟩, hmem, rfl, heq⟩
    obtain ⟨E', hE', hb'⟩ := hc.sound _ _ hmem
    exact ⟨(E', s'), hE', hb'.rest.trans hb.rest.symm, heq⟩
  · rintro ⟨⟨E', s'⟩, hmem, rfl, heq⟩
    obtain ⟨b', hb', hmem'⟩ := hc.complete _ hmem
    obtain rfl := hb.unique hb'
    exact ⟨_, hmem', rfl, heq⟩

theorem insert (hc : Caches entries cache known) (hb : Bits entries b E) (s : σ) :
    Caches entries (Function.update cache b.hash (cache b.hash ++ [⟨b, s⟩])) ((E, s) :: known) := by
  constructor
  · intro hash e he
    have hold : e ∈ cache hash → ∃ E', (E', e.state) ∈ (E, s) :: known ∧
        Bits entries e.linearized E' := by
      intro he
      obtain ⟨E', hE', hb'⟩ := hc.sound _ e he
      exact ⟨E', List.mem_cons_of_mem _ hE', hb'⟩
    by_cases hh : hash = b.hash
    · rw [hh, Function.update_self, List.mem_append, List.mem_singleton, ← hh] at he
      rcases he with he | rfl
      · exact hold he
      · exact ⟨E, List.mem_cons_self, hb⟩
    · rw [Function.update_of_ne hh] at he
      exact hold he
  · rw [List.forall_mem_cons]
    refine ⟨⟨b, hb, by simp⟩, fun p hp => ?_⟩
    obtain ⟨b', hb', hmem⟩ := hc.complete p hp
    refine ⟨b', hb', ?_⟩
    by_cases hh : b'.hash = b.hash
    · rw [hh, Function.update_self, ← hh]
      exact List.mem_append_left _ hmem
    · rwa [Function.update_of_ne hh]

end Caches

/-! ## The simulation -/

/-- The node of an event, in a list that begins with the head. -/
def nodesOf (entries : List (Entry ι ο)) (head : ℕ) (E : List (Ev ℤ)) : List ℕ :=
  head :: E.map (addr entries)

/-- The pointers of the nodes that are taken out lead back to the lists of the levels below. -/
def Undo (entries : List (Entry ι ο)) (head : ℕ) : Heap ι ο → List (ℤ × Level ℤ σ) → Prop
  | _, [] => True
  | h, (i, w) :: stack => ∃ h', h.unlift (addr entries (.call i)) = some h' ∧
      Represents entries h' ∧ h'.links.Seg (nodesOf entries head w.rest) none ∧
      Undo entries head h' stack

/-- The variables of the loop stand for a state of the search. -/
structure Simulates (entries : List (Entry ι ο)) (c : Check ι ο σ) (sr : Search ℤ σ) : Prop where
  nodes : Represents entries c.heap
  seg : c.heap.links.Seg (nodesOf entries c.headEntry sr.level.rest) none
  undo : Undo entries c.headEntry c.heap sr.stack
  head : entries.length ≤ c.headEntry
  entry : c.entry = (sr.level.after.map (addr entries)).head?
  state : c.state = sr.level.state
  calls : c.calls = (sr.stack.map fun p => ⟨addr entries (.call p.1), p.2.state⟩).reverse
  linearized : Bits entries c.linearized sr.level.rest
  cache : Caches entries c.cache sr.cache
  longest : c.longest.longest.length = entries.length / 2

namespace Simulates

variable {entries : List (Entry ι ο)} {model : FullModel ι ο σ} {c : Check ι ο σ}
  {sr : Search ℤ σ} {s : σ} {E : List (Ev ℤ)} {i : ℤ}

theorem seq_eq (sim : Simulates entries c sr)
    (hmem : ∀ p ∈ sr.stack, .call p.1 ∈ evs entries) : c.seq = sr.taken := by
  rw [Check.seq, sim.calls, Search.taken, List.map_reverse, List.map_map]
  congr 1
  refine List.map_congr_left fun p hp => ?_
  obtain ⟨e, he, hev⟩ := List.mem_map.1 (hmem p hp)
  change c.heap.id (addr entries (.call p.1)) = p.1
  rw [← hev, sim.nodes.id e he, ← e.id_ev, hev, Ev.id_call]

/-- The pointer after a node of the list. -/
theorem next_call (sim : Simulates entries c sr) {before after : List (Ev ℤ)}
    (hrest : sr.level.rest = before ++ .call i :: after) :
    c.heap.links.next (addr entries (.call i)) = (after.map (addr entries)).head? := by
  have hseg := sim.seg
  rw [nodesOf, hrest, List.map_append, List.map_cons, ← List.cons_append] at hseg
  exact hseg.next_eq

theorem nodup_nodesOf (wf : WellFormed entries) {head : ℕ} (hhead : entries.length ≤ head)
    (hE : E.Sublist (evs entries)) : (nodesOf entries head E).Nodup := by
  refine List.nodup_cons.2 ⟨fun h => ?_, nodup_map_addr wf.complete.nodup hE⟩
  obtain ⟨x, hx, hx'⟩ := List.mem_map.1 h
  have := addr_lt (hE.subset hx)
  omega

/-- Taking out an operation of the list. -/
theorem lift (wf : WellFormed entries) (sim : Simulates entries c sr)
    (hsub : sr.level.rest.Sublist (evs entries)) (hcomp : Complete sr.level.rest)
    (hi : .call i ∈ sr.level.rest) :
    ∃ h', c.heap.lift (addr entries (.call i)) = some h' ∧ Represents entries h' ∧
      h'.links.Seg (nodesOf entries c.headEntry (remove i sr.level.rest)) none ∧
      h'.unlift (addr entries (.call i)) = some c.heap := by
  obtain ⟨E₁, E₂, E₃, hE, hrem⟩ := hcomp.split hi
  have hnodup := nodup_nodesOf wf sim.head hsub
  have hseg := sim.seg
  rw [nodesOf, hE] at hseg hnodup
  simp only [List.map_append, List.map_cons, ← List.cons_append] at hseg hnodup
  obtain ⟨L, hlift, hseg', hunlift⟩ :=
    Heap.lift_spec (sim.nodes.call i (hsub.subset hi)) hseg hnodup (by simp)
  refine ⟨_, hlift, ⟨sim.nodes.value, sim.nodes.id, sim.nodes.call, sim.nodes.ret⟩, ?_, hunlift⟩
  rw [nodesOf, hrem]
  simpa using hseg'

section Moves

variable {after : List (Ev ℤ)} {s' : σ}

theorem rest_sublist (inv : sr.Inv (opStep model entries) model.init (evs entries)) :
    sr.level.rest.Sublist (evs entries) := by
  rw [inv.reach.rest]
  exact List.filter_sublist

theorem push (wf : WellFormed entries) (sim : Simulates entries c sr)
    (inv : sr.Inv (opStep model entries) model.init (evs entries))
    (hafter : sr.level.after = .call i :: after)
    (hnew : ¬ Known model.equal sr.cache s' (remove i sr.level.rest)) :
    ∃ c', c.push model (addr entries (.call i)) s' = some c' ∧ c'.longest = c.longest ∧
      Simulates entries c'
        { level := ⟨s', [], remove i sr.level.rest⟩
          stack := (i, sr.level.next i after) :: sr.stack
          cache := (remove i sr.level.rest, s') :: sr.cache
          left := sr.left } := by
  have hsub := rest_sublist inv
  have hi := Level.call_mem_rest hafter
  obtain ⟨x, y, -, -, hid, -⟩ := wf.read model sim.nodes (hsub.subset hi)
  obtain ⟨b, hb, hbits⟩ := sim.linearized.set wf (hsub.subset hi)
  obtain ⟨h', hlift, hnodes, hseg, hunlift⟩ :=
    sim.lift wf hsub (inv.reach.complete wf.complete) hi
  have hcontains : cacheContains model.equal c.cache ⟨b, s'⟩ = false := by
    rwa [← Bool.not_eq_true, sim.cache.cacheContains_iff hbits]
  have hpush : c.push model (addr entries (.call i)) s' = some { c with
      heap := h'
      entry := h'.links.next c.headEntry
      state := s'
      linearized := b
      cache := Function.update c.cache b.hash (c.cache b.hash ++ [⟨b, s'⟩])
      calls := c.calls ++ [⟨addr entries (.call i), c.state⟩] } := by
    simp only [Check.push, hid, hb, hlift, hcontains, Option.bind_eq_bind, Option.bind_some,
      Bool.false_eq_true, if_false, Option.pure_def]
  refine ⟨_, hpush, rfl, ?_⟩
  refine ⟨hnodes, hseg, ⟨c.heap, hunlift, sim.nodes, ?_, sim.undo⟩, sim.head, ?_, rfl, ?_, hbits,
    sim.cache.insert hbits s', sim.longest⟩
  · rw [Level.rest_next hafter]
    exact sim.seg
  · change h'.links.Seg ([] ++ _) none at hseg
    exact hseg.next_eq
  · simp only [List.map_cons, List.reverse_cons, ← sim.calls]
    rw [sim.state]
    rfl

theorem push_known (wf : WellFormed entries) (sim : Simulates entries c sr)
    (inv : sr.Inv (opStep model entries) model.init (evs entries))
    (hafter : sr.level.after = .call i :: after)
    (hknown : Known model.equal sr.cache s' (remove i sr.level.rest)) :
    c.push model (addr entries (.call i)) s' =
      some { c with entry := c.heap.links.next (addr entries (.call i)) } := by
  have hi := (rest_sublist inv).subset (Level.call_mem_rest hafter)
  obtain ⟨x, y, -, -, hid, -⟩ := wf.read model sim.nodes hi
  obtain ⟨b, hb, hbits⟩ := sim.linearized.set wf hi
  have hcontains := (sim.cache.cacheContains_iff hbits model.equal).2 hknown
  simp only [Check.push, hid, hb, hcontains, Option.bind_eq_bind, Option.bind_some, if_true,
    Option.pure_def]

theorem pass (sim : Simulates entries c sr) (hafter : sr.level.after = .call i :: after) :
    Simulates entries { c with entry := c.heap.links.next (addr entries (.call i)) }
      { sr with level := sr.level.next i after } := by
  have hrest := Level.rest_next hafter
  have hsplit : sr.level.rest = sr.level.before ++ .call i :: after := by
    rw [Level.rest, hafter]
  refine ⟨sim.nodes, ?_, sim.undo, sim.head, sim.next_call hsplit, sim.state, sim.calls, ?_,
    sim.cache, sim.longest⟩
  · rw [hrest]
    exact sim.seg
  · rw [hrest]
    exact sim.linearized

theorem back (wf : WellFormed entries) (sim : Simulates entries c sr)
    (inv : sr.Inv (opStep model entries) model.init (evs entries)) {w : Level ℤ σ}
    {stack : List (ℤ × Level ℤ σ)} (hstack : sr.stack = (i, w) :: stack) {computePartial : Bool}
    {lg : Longest}
    (hlg : c.longest.record computePartial c.seq = some lg)
    (hlen : lg.longest.length = entries.length / 2) (left : List (List (Ev ℤ))) :
    ∃ c', c.pop computePartial ⟨addr entries (.call i), w.state⟩ = some c' ∧ c'.longest = lg ∧
      Simulates entries c' { sr with level := w, stack := stack, left := left } := by
  have hundo := sim.undo
  have hlevels := inv.levels
  have hcalls := inv.calls
  rw [hstack] at hundo hlevels
  obtain ⟨h', hunlift, hnodes, hseg, hundo⟩ := hundo
  obtain ⟨hw, ⟨b, hb⟩, -, hrest⟩ := hlevels
  have hsplit : w.rest = b ++ .call i :: w.after := by
    simp [Level.rest, hb]
  have hreach := hw.reach fun v hv => hcalls v (by
    rw [Search.levels, hstack]
    exact List.mem_cons_of_mem _ (List.mem_cons_of_mem _ hv))
  have hi : .call i ∈ w.rest := by simp [hsplit]
  have hbits := sim.linearized
  rw [hrest] at hbits
  obtain ⟨b', hclear, hbits'⟩ := hbits.clear wf hreach.rest hi
  have hi' : .call i ∈ evs entries := by
    have := hreach.rest ▸ hi
    exact List.mem_of_mem_filter this
  obtain ⟨x, y, -, -, hid, -⟩ := wf.read model sim.nodes hi'
  have hpop : c.pop computePartial ⟨addr entries (.call i), w.state⟩ = some { c with
      heap := h'
      entry := h'.links.next (addr entries (.call i))
      state := w.state
      linearized := b'
      calls := c.calls.dropLast
      longest := lg } := by
    simp only [Check.pop, hlg, hid, hclear, hunlift, Option.bind_eq_bind, Option.bind_some,
      Option.pure_def]
  refine ⟨_, hpop, rfl, ?_⟩
  refine ⟨hnodes, hseg, hundo, sim.head, ?_, rfl, ?_, hbits', sim.cache, hlen⟩
  · rw [nodesOf, hsplit, List.map_append, List.map_cons, ← List.cons_append] at hseg
    exact hseg.next_eq
  · rw [sim.calls, hstack, List.map_cons, List.reverse_cons, List.dropLast_concat]

end Moves

end Simulates

end DistSys.Porcupine
