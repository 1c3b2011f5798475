import DistSys.Porcupine.Simulation

/-!
# `checkSingle` decides linearizability

For a history in which every operation returns, `checkSingle` comes to an end after a number of
iterations that depends on the length of the history only, without a nil pointer or an index out of
range, and returns whether the history is linearizable. It may return false earlier if the flag is
set (`checkSingle_spec`).

**Partial linearizations.** With `computePartial`, `longest` has for each operation the longest
partial linearization with this operation (`Verdict.longest`): the search goes back from every set
of operations that can be taken out, and records the operations of each.
-/

namespace DistSys.Porcupine

variable {ι ο σ : Type}

/-! ## The longest partial linearizations -/

namespace Longest

variable {lg lg' : Longest} {seq : List ℤ} {id : ℤ} {j k callsLen : ℕ}

/-- The slice of an operation. -/
def at? (lg : Longest) (j : ℕ) : Option (List ℤ) := lg.longest[j]?.join.map fun k => lg.seqs.getD k []

/-- The pointers are those of slices that exist. -/
def Valid (lg : Longest) : Prop := ∀ k, some k ∈ lg.longest → k < lg.seqs.length

/-- The slice of an operation is nil, or shorter. -/
def shorter (lg : Longest) (callsLen j : ℕ) : Bool := (lg.at? j).all (·.length < callsLen)

theorem length?_eq (callsLen : ℕ) (hid : 0 ≤ id ∧ id.toNat < lg.longest.length) :
    ∃ len, lg.length? id = some len ∧ len.all (· < callsLen) = lg.shorter callsLen id.toNat := by
  rw [length?, if_pos hid.1, List.getElem?_eq_getElem hid.2, Option.map_some]
  refine ⟨_, rfl, ?_⟩
  rw [shorter, at?, List.getElem?_eq_getElem hid.2]
  cases lg.longest[id.toNat] <;> rfl

/-- The loop over the operations replaces the slices of those that are shorter. -/
theorem replace_eq (lg : Longest) (k callsLen : ℕ) {ids : List ℤ}
    (hids : ∀ id ∈ ids, 0 ≤ id ∧ id.toNat < lg.longest.length) :
    ∃ longest, lg.replace k callsLen ids = some { lg with longest := longest } ∧
      longest.length = lg.longest.length ∧ ∀ j : ℕ, longest[j]? =
        if (j : ℤ) ∈ ids ∧ lg.shorter callsLen j then some (some k) else lg.longest[j]? := by
  induction ids generalizing lg with
  | nil => exact ⟨lg.longest, rfl, rfl, by simp⟩
  | cons id ids ih =>
    rw [List.forall_mem_cons] at hids
    obtain ⟨len, hlen, hall⟩ := length?_eq callsLen hids.1
    rw [replace, hlen, Option.bind_eq_bind, Option.bind_some, hall]
    have hid : ∀ j : ℕ, (j : ℤ) = id ↔ j = id.toNat := by omega
    cases hshort : lg.shorter callsLen id.toNat with
    | false =>
      rw [if_neg (by simp)]
      obtain ⟨longest, hrep, hlen', hget⟩ := ih lg hids.2
      refine ⟨longest, hrep, hlen', fun j => ?_⟩
      rw [hget j]
      simp only [List.mem_cons, hid j]
      by_cases hj : j = id.toNat
      · simp [hj, hshort]
      · simp [hj]
    | true =>
      rw [if_pos rfl]
      obtain ⟨longest, hrep, hlen', hget⟩ :=
        ih { lg with longest := lg.longest.set id.toNat (some k) } (by simpa using hids.2)
      refine ⟨longest, hrep, by simpa using hlen', fun j => ?_⟩
      rw [hget j]
      simp only [List.mem_cons, hid j]
      by_cases hj : j = id.toNat
      · simp [hj, hids.1.1, hids.1.2, hshort]
      · have hne : id.toNat ≠ j := Ne.symm hj
        simp [hj, hne, shorter, at?]

/-- **Going back gives the operations of `seq` the slice `seq`,** if they had none or a shorter
one. -/
theorem add_eq (hvalid : lg.Valid) (hseq : ∀ id ∈ seq, 0 ≤ id ∧ id.toNat < lg.longest.length) :
    ∃ lg', lg.add seq = some lg' ∧ lg'.Valid ∧ lg'.longest.length = lg.longest.length ∧
      ∀ j : ℕ, lg'.at? j =
        if (j : ℤ) ∈ seq ∧ lg.shorter seq.length j then some seq else lg.at? j := by
  obtain ⟨longest, hrep, hlen, hget⟩ := lg.replace_eq lg.seqs.length seq.length hseq
  rw [add, hrep, Option.bind_eq_bind, Option.bind_some]
  refine ⟨_, rfl, ?_⟩
  dsimp only
  -- a pointer of the new slice occurs if a slice is replaced
  have hold : ∀ j : ℕ, ∀ k, lg.longest[j]? = some (some k) → k < lg.seqs.length :=
    fun j k h => hvalid k (List.mem_of_getElem? h)
  split
  · rename_i hsame
    refine ⟨hvalid, rfl, fun j => ?_⟩
    rw [if_neg]
    intro hj
    have := hget j
    rw [if_pos hj, hsame] at this
    exact absurd (hold j _ this) (lt_irrefl _)
  · refine ⟨?_, hlen, fun j => ?_⟩
    · intro k hk
      obtain ⟨j, hj⟩ := List.mem_iff_getElem?.1 hk
      rw [hget j] at hj
      rw [List.length_append, List.length_singleton]
      split at hj
      · obtain rfl : lg.seqs.length = k := by simpa using hj
        exact Nat.lt_succ_self _
      · exact (hold j k hj).trans (Nat.lt_succ_self _)
    · rw [at?, hget j]
      split
      · simp
      · rw [at?]
        cases h : lg.longest[j]? with
        | none => rfl
        | some p =>
          cases p with
          | none => rfl
          | some k => simp [List.getElem?_append_left (hold j k h)]

theorem at?_fill {seq seq' : List ℤ} :
    (lg.fill seq).at? j = some seq' ↔ j < lg.longest.length ∧ seq = seq' := by
  by_cases hj : j < lg.longest.length <;> simp [at?, fill, hj]

/-- What `longest` has after the search has gone back from the lists `left`. -/
structure Ok (step : σ → ℤ → Option σ) (s₀ : σ) (E₀ : List (Ev ℤ)) (computePartial : Bool)
    (left : List (List (Ev ℤ))) (lg : Longest) : Prop where
  valid : lg.Valid
  reach : ∀ j seq, lg.at? j = some seq → (j : ℤ) ∈ seq ∧ ∃ t E, Reach step s₀ E₀ seq t E
  longest : computePartial = true → ∀ l t E, Reach step s₀ E₀ l t E → E ∈ left → ∀ i ∈ l,
    ∃ seq, lg.at? i.toNat = some seq ∧ l.length ≤ seq.length

variable {step : σ → ℤ → Option σ} {s₀ t : σ} {E₀ E : List (Ev ℤ)} {computePartial : Bool}
  {left : List (List (Ev ℤ))}

theorem Ok.start (n : ℕ) : Ok step s₀ E₀ computePartial [] ⟨[], List.replicate n none⟩ where
  valid k hk := by simp at hk
  reach j seq h := by
    rw [at?, List.getElem?_replicate] at h
    split at h <;> cases h
  longest := nofun

theorem not_shorter (h : lg.shorter callsLen j = false) :
    ∃ seq, lg.at? j = some seq ∧ callsLen ≤ seq.length := by
  rw [shorter] at h
  cases hat : lg.at? j with
  | none => simp [hat] at h
  | some seq => exact ⟨seq, rfl, by simpa [hat] using h⟩

theorem Ok.record (hok : lg.Ok step s₀ E₀ computePartial left) (hE₀ : Complete E₀)
    (hreach : Reach step s₀ E₀ seq t E)
    (hseq : ∀ id ∈ seq, 0 ≤ id ∧ id.toNat < lg.longest.length) :
    ∃ lg', lg.record computePartial seq = some lg' ∧ lg'.longest.length = lg.longest.length ∧
      lg'.Ok step s₀ E₀ computePartial (E :: left) := by
  cases computePartial with
  | false => exact ⟨lg, rfl, rfl, hok.valid, hok.reach, nofun⟩
  | true =>
    obtain ⟨lg', hadd, hvalid, hlen, hat⟩ := add_eq hok.valid hseq
    refine ⟨lg', hadd, hlen, hvalid, fun j seq' h => ?_, fun _ l t' E' hl hE' i hi => ?_⟩
    · rw [hat j] at h
      split at h
      · rename_i hj
        obtain rfl := Option.some.inj h
        exact ⟨hj.1, t, E, hreach⟩
      · exact hok.reach j seq' h
    · rw [hat]
      rcases List.mem_cons.1 hE' with rfl | hE'
      · have hperm := hl.perm hreach hE₀
        have hmem := hperm.mem_iff.1 hi
        rw [Int.toNat_of_nonneg (hseq i hmem).1, hperm.length_eq]
        cases hshort : lg.shorter seq.length i.toNat with
        | true => exact ⟨seq, by simp [hmem], le_rfl⟩
        | false => simpa [hmem] using not_shorter hshort
      · obtain ⟨seq', hseq', hle⟩ := hok.longest rfl l t' E' hl hE' i hi
        split
        · rename_i hshort
          refine ⟨seq, rfl, hle.trans (le_of_lt ?_)⟩
          simpa [shorter, hseq'] using hshort.2
        · exact ⟨seq', hseq', hle⟩

end Longest

/-! ## The iterations -/

/-- Equal states allow the same operations and go on to equal states. -/
def FullModel.Congruent (model : FullModel ι ο σ) : Prop :=
  ∀ s t x y, model.equal s t = true → (model.step s x y).1 = true →
    (model.step t x y).1 = true ∧ model.equal (model.step s x y).2 (model.step t x y).2 = true

theorem FullModel.Congruent.bisimilar {model : FullModel ι ο σ} (h : model.Congruent)
    (entries : List (Entry ι ο)) : Bisimilar (opStep model entries) model.equal := by
  intro s t i s' heq hs
  simp only [opStep, Option.bind_eq_bind, Option.bind_eq_some_iff] at hs ⊢
  obtain ⟨v, hv, x, hx, w, hw, y, hy, hstep⟩ := hs
  split at hstep
  · rename_i hok
    obtain rfl := Option.some.inj hstep
    obtain ⟨hok', heq'⟩ := h s t x y heq hok
    exact ⟨_, ⟨v, hv, x, hx, w, hw, y, hy, if_pos hok'⟩, heq'⟩
  · cases hstep

theorem lengthLoop_eq {h : Heap ι ο} {l : List ℕ} (hseg : h.links.Seg l none) {fuel : ℕ}
    (hfuel : l.length ≤ fuel) : h.lengthLoop fuel l.head? = some l.length := by
  induction l generalizing fuel with
  | nil => cases fuel <;> rfl
  | cons a l ih =>
    cases fuel with
    | zero => cases hfuel
    | succ fuel =>
      have hnext : h.links.next a = l.head? := by simpa using hseg.1
      rw [List.head?_cons, Heap.lengthLoop, hnext, ih hseg.2.2 (Nat.le_of_succ_le_succ hfuel)]
      rfl

/-- The variables before the loop. -/
theorem start_simulates {entries : List (Entry ι ο)} (wf : WellFormed entries) (s₀ : σ) :
    ∃ c, Check.start s₀ entries = some c ∧
      Simulates entries c (Search.init s₀ (evs entries)) ∧
      c.longest = ⟨[], List.replicate (entries.length / 2) none⟩ := by
  have hk := makeLinkedEntries_ok wf.complete
  generalize hmk : makeLinkedEntries entries = k at hk
  have hlength : k.heap.length k.root = some entries.length := by
    have hlen : ((evs entries).map (addr entries)).length = entries.length := by simp [evs]
    rw [Heap.length, hk.root, lengthLoop_eq hk.seg (by rw [hlen, hk.size]), hlen]
  have hlt : ∀ a ∈ (evs entries).map (addr entries), a < k.heap.size := by
    rw [hk.size, List.forall_mem_map]
    exact fun x hx => addr_lt hx
  obtain ⟨hseg, -⟩ := k.heap.seg_insertBefore_new hk.seg
    (nodup_map_addr wf.complete.nodup (List.Sublist.refl _)) hlt
    (fun r hr => hk.first r (hk.root ▸ hr)) none none (-1)
  rw [← hk.root] at hseg
  have hne : ∀ x ∈ evs entries, addr entries x ≠ k.heap.size := by
    intro x hx
    rw [hk.size]
    exact (addr_lt hx).ne
  have hstart : Check.start s₀ entries = some {
      heap := (k.heap.new none none (-1)).insertBefore k.heap.size k.root
      headEntry := k.heap.size
      entry := k.root
      state := s₀
      linearized := .newBitset (entries.length / 2)
      cache := fun _ => []
      calls := []
      longest := ⟨[], List.replicate (entries.length / 2) none⟩ } := by
    simp only [Check.start, hmk, hlength, Option.bind_eq_bind, Option.bind_some, Option.pure_def]
  refine ⟨_, hstart, ⟨⟨?_, ?_, ?_, ?_⟩, hseg, trivial, hk.size.ge, hk.root, rfl, rfl, Bits.init,
    ⟨by simp, by simp [Search.init]⟩, by simp⟩, rfl⟩
  · intro e he
    simp only [Heap.insertBefore_value, Heap.new]
    rw [Function.update_of_ne (hne _ (List.mem_map_of_mem he)), hk.nodes.value e he]
  · intro e he
    simp only [Heap.insertBefore_id, Heap.new]
    rw [Function.update_of_ne (hne _ (List.mem_map_of_mem he)), hk.nodes.id e he]
  · intro i hi
    simp only [Heap.insertBefore_matching, Heap.new]
    rw [Function.update_of_ne (hne _ hi), hk.nodes.call i hi]
  · intro i hi
    simp only [Heap.insertBefore_matching, Heap.new]
    rw [Function.update_of_ne (hne _ hi), hk.nodes.ret i hi]

/-- What one iteration does: it ends with nothing left, or because of the flag, or because all is
tried; or it makes a move of the search. -/
inductive Iteration (model : FullModel ι ο σ) (entries : List (Entry ι ο)) (computePartial : Bool)
    (c : Check ι ο σ) (sr : Search ℤ σ) : Bool → Check ι ο σ ⊕ Bool × Longest → Prop
  | found {kill : Bool} (hrest : sr.level.rest = []) :
      Iteration model entries computePartial c sr kill (.inr (true, c.longest.fill sr.taken))
  | killed : Iteration model entries computePartial c sr true (.inr (false, c.longest))
  | failed {j : ℤ} {after : List (Ev ℤ)} (hafter : sr.level.after = .ret j :: after)
      (hstack : sr.stack = []) :
      Iteration model entries computePartial c sr false (.inr (false, c.longest))
  | move {c' : Check ι ο σ} {sr' : Search ℤ σ}
      (hmove : Search.Move (opStep model entries) model.equal sr sr') (sim : Simulates entries c' sr')
      (hlg : c'.longest.Ok (opStep model entries) model.init (evs entries) computePartial sr'.left) :
      Iteration model entries computePartial c sr false (.inl c')

section Iterate

variable {entries : List (Entry ι ο)} {model : FullModel ι ο σ} {c : Check ι ο σ}
  {sr : Search ℤ σ} {computePartial : Bool}

theorem call_mem_of_taken (wf : WellFormed entries)
    (inv : sr.Inv (opStep model entries) model.init (evs entries)) {i : ℤ} (hi : i ∈ sr.taken) :
    .call i ∈ evs entries :=
  ((inv.reach.mem_iff wf.complete).1 hi).1

theorem seq_eq_taken (wf : WellFormed entries) (sim : Simulates entries c sr)
    (inv : sr.Inv (opStep model entries) model.init (evs entries)) : c.seq = sr.taken := by
  refine sim.seq_eq fun p hp => call_mem_of_taken wf inv ?_
  rw [Search.taken, List.mem_reverse]
  exact List.mem_map_of_mem hp

theorem next_head (sim : Simulates entries c sr) :
    c.heap.links.next c.headEntry = (sr.level.rest.map (addr entries)).head? := by
  have hseg := sim.seg
  change c.heap.links.Seg ([] ++ _) none at hseg
  exact hseg.next_eq

/-- At a call. -/
theorem iterate_call {i : ℤ} {after : List (Ev ℤ)} (wf : WellFormed entries)
    (sim : Simulates entries c sr) (inv : sr.Inv (opStep model entries) model.init (evs entries))
    (hlg : c.longest.Ok (opStep model entries) model.init (evs entries) computePartial sr.left)
    (hhead : (c.heap.links.next c.headEntry).isNone = false)
    (hafter : sr.level.after = .call i :: after) :
    ∃ r, c.iterate model computePartial false = some r ∧
      Iteration model entries computePartial c sr false r := by
  have hi := (Simulates.rest_sublist inv).subset (Level.call_mem_rest hafter)
  obtain ⟨x, y, hx, hy, -, hstep⟩ := wf.read model sim.nodes hi
  have hentry : c.entry = some (addr entries (.call i)) := by
    rw [sim.entry, hafter]
    rfl
  have hread : c.iterate model computePartial false =
      if (model.step c.state x y).1 then
        (c.push model (addr entries (.call i)) (model.step c.state x y).2).map .inl
      else some (.inl { c with entry := c.heap.links.next (addr entries (.call i)) }) := by
    simp only [Check.iterate, hhead, hentry, sim.nodes.call i hi, hx, hy, Option.bind_eq_bind,
      Option.bind_some, Bool.false_eq_true, if_false, Option.pure_def]
    split
    · rw [Option.map_eq_bind]
      rfl
    · rfl
  rw [hread]
  have hstep := hstep c.state
  generalize model.step c.state x y = r at hstep ⊢
  rw [sim.state] at hstep
  obtain ⟨ok, newState⟩ := r
  cases ok with
  | false =>
    refine ⟨_, rfl, .move (.pass hafter fun s' hs' => ?_) (sim.pass hafter) hlg⟩
    rw [hstep] at hs'
    cases hs'
  | true =>
    rw [if_pos rfl] at hstep ⊢
    by_cases hknown : Known model.equal sr.cache newState (remove i sr.level.rest)
    · rw [sim.push_known wf inv hafter hknown]
      refine ⟨_, rfl, .move (.pass hafter fun s' hs' => ?_) (sim.pass hafter) hlg⟩
      rw [hstep, Option.some.injEq] at hs'
      rwa [← hs']
    · obtain ⟨c', hpush, hlongest, sim'⟩ := sim.push wf inv hafter hknown
      rw [hpush]
      exact ⟨_, rfl, .move (.push hafter hstep hknown) sim' (hlongest ▸ hlg)⟩

/-- At a return. -/
theorem iterate_ret {j : ℤ} {after : List (Ev ℤ)} (wf : WellFormed entries)
    (sim : Simulates entries c sr) (inv : sr.Inv (opStep model entries) model.init (evs entries))
    (hlg : c.longest.Ok (opStep model entries) model.init (evs entries) computePartial sr.left)
    (hhead : (c.heap.links.next c.headEntry).isNone = false)
    (hafter : sr.level.after = .ret j :: after) :
    ∃ r, c.iterate model computePartial false = some r ∧
      Iteration model entries computePartial c sr false r := by
  have hj : .ret j ∈ evs entries :=
    (Simulates.rest_sublist inv).subset (by simp [Level.rest, hafter])
  have hentry : c.entry = some (addr entries (.ret j)) := by
    rw [sim.entry, hafter]
    rfl
  have hread : c.iterate model computePartial false =
      c.calls.getLast?.elim (some (.inr (false, c.longest))) fun callsTop =>
        (c.pop computePartial callsTop).map .inl := by
    simp only [Check.iterate, hhead, hentry, sim.nodes.ret j hj, Option.bind_eq_bind,
      Option.bind_some, Bool.false_eq_true, if_false, Option.pure_def]
    cases c.calls.getLast? with
    | none => rfl
    | some callsTop =>
      rw [Option.elim_some, Option.map_eq_bind]
      rfl
  rw [hread, sim.calls, List.getLast?_reverse]
  cases hstack : sr.stack with
  | nil => exact ⟨_, rfl, .failed hafter hstack⟩
  | cons p stack =>
    obtain ⟨i, w⟩ := p
    have hids : ∀ id ∈ sr.taken, 0 ≤ id ∧ id.toNat < c.longest.longest.length := by
      intro id hid
      have := Bits.range_mem wf (call_mem_of_taken wf inv hid)
      rw [Ev.id_call] at this
      rw [sim.longest]
      omega
    obtain ⟨lg, hrecord, hlen, hlg'⟩ := hlg.record wf.complete inv.reach hids
    rw [← seq_eq_taken wf sim inv] at hrecord
    obtain ⟨c', hpop, hlongest, sim'⟩ := sim.back wf inv hstack hrecord (hlen.trans sim.longest)
      (sr.level.rest :: sr.left)
    refine ⟨.inl c', ?_, .move (.back hafter hstack) sim' (hlongest ▸ hlg')⟩
    simp only [List.map_cons, List.head?_cons, Option.elim_some, hpop, Option.map_some]

theorem iterate_spec (wf : WellFormed entries) (sim : Simulates entries c sr)
    (inv : sr.Inv (opStep model entries) model.init (evs entries))
    (hlg : c.longest.Ok (opStep model entries) model.init (evs entries) computePartial sr.left)
    (kill : Bool) :
    ∃ r, c.iterate model computePartial kill = some r ∧
      Iteration model entries computePartial c sr kill r := by
  have hhead := next_head sim
  by_cases hrest : sr.level.rest = []
  · refine ⟨_, ?_, .found hrest⟩
    rw [hrest] at hhead
    simp only [Check.iterate, hhead, List.map_nil, List.head?_nil, Option.isNone_none, if_true,
      Option.pure_def, seq_eq_taken wf sim inv]
  · have hsome : (c.heap.links.next c.headEntry).isNone = false := by
      rw [hhead]
      cases h : sr.level.rest with
      | nil => exact absurd h hrest
      | cons e E => rfl
    cases kill with
    | true =>
      refine ⟨_, ?_, .killed⟩
      simp only [Check.iterate, hsome, Bool.false_eq_true, if_false, if_true, Option.pure_def]
    | false =>
      cases hafter : sr.level.after with
      | nil => exact absurd hafter (inv.after_ne_nil wf.complete hrest)
      | cons e after =>
        cases e with
        | call i => exact iterate_call wf sim inv hlg hsome hafter
        | ret j => exact iterate_ret wf sim inv hlg hsome hafter

end Iterate

/-! ## The result -/

section Result

variable (model : FullModel ι ο σ) (entries : List (Entry ι ο))

/-- The history of the entries is linearizable. -/
def LinearizableEntries : Prop :=
  Linearizable (opStep model entries) (Precedes (evs entries)) model.init (ids (evs entries))

/-- The operations `l` can be linearized in this order, before all others. -/
def PartialOf (l : List ℤ) : Prop :=
  IsPartialLinearization (opStep model entries) (Precedes (evs entries)) model.init
    (ids (evs entries)) l

/-- The slices of the operations are partial linearizations with these operations. -/
def Reported (lg : Longest) : Prop :=
  ∀ j seq, lg.at? j = some seq →
    PartialOf model entries seq ∧ ((j : ℤ) ∈ ids (evs entries) → (j : ℤ) ∈ seq)

/-- The result of a search that has come to its end. -/
structure Verdict (computePartial : Bool) (r : Bool × Longest) : Prop where
  linearizable : r.1 = true ↔ LinearizableEntries model entries
  reported : Reported model entries r.2
  longest : computePartial = true → ∀ l, PartialOf model entries l → ∀ i ∈ l,
    ∃ seq, r.2.at? i.toNat = some seq ∧ l.length ≤ seq.length

/-- The variables of the loop, at most `w` iterations before the end. -/
def Check.Good (computePartial : Bool) (w : ℕ) (c : Check ι ο σ) : Prop :=
  ∃ sr, Simulates entries c sr ∧ sr.Inv (opStep model entries) model.init (evs entries) ∧
    c.longest.Ok (opStep model entries) model.init (evs entries) computePartial sr.left ∧
    sr.weight ≤ w

variable {model entries} {computePartial : Bool}

theorem start_good (wf : WellFormed entries) (model : FullModel ι ο σ) (computePartial : Bool) :
    ∃ c, Check.start model.init entries = some c ∧
      c.Good model entries computePartial (cost entries.length) := by
  obtain ⟨c, hstart, sim, hlg⟩ := start_simulates wf model.init
  refine ⟨c, hstart, _, sim, .init _ _, ?_, ?_⟩
  · rw [hlg]
    exact .start _
  · rw [Search.weight_init, evs, List.length_map]

theorem partialOf_iff (wf : WellFormed entries) {l : List ℤ} : PartialOf model entries l ↔
    ∃ t E, Reach (opStep model entries) model.init (evs entries) l t E :=
  (reach_iff wf.complete).symm

theorem Longest.Ok.reported {lg : Longest} {left : List (List (Ev ℤ))} (wf : WellFormed entries)
    (hlg : lg.Ok (opStep model entries) model.init (evs entries) computePartial left) :
    Reported model entries lg := fun j seq hseq =>
  have ⟨hmem, hreach⟩ := hlg.reach j seq hseq
  ⟨(partialOf_iff wf).2 hreach, fun _ => hmem⟩

/-- With nothing left, the operations taken out are a linearization, and `longest` has it for
all. -/
theorem verdict_found {c : Check ι ο σ} {sr : Search ℤ σ} (wf : WellFormed entries)
    (sim : Simulates entries c sr) (inv : sr.Inv (opStep model entries) model.init (evs entries))
    (hrest : sr.level.rest = []) :
    Verdict model entries computePartial (true, c.longest.fill sr.taken) := by
  have hlin := inv.sound wf.complete hrest
  have hat : ∀ i ∈ ids (evs entries), (c.longest.fill sr.taken).at? i.toNat = some sr.taken := by
    intro i hi
    have hrange := Bits.range_mem wf (mem_ids.1 hi)
    rw [Ev.id_call] at hrange
    refine Longest.at?_fill.2 ⟨?_, rfl⟩
    rw [sim.longest]
    omega
  refine ⟨⟨fun _ => ⟨_, hlin⟩, fun _ => rfl⟩, fun j seq hseq => ?_, fun _ l hl i hi => ?_⟩
  · rw [← (Longest.at?_fill.1 hseq).2]
    exact ⟨(partialOf_iff wf).2 ⟨_, _, inv.reach⟩, hlin.perm.mem_iff.2⟩
  · refine ⟨_, hat i (hl.subperm.subset hi), ?_⟩
    rw [hlin.perm.length_eq]
    exact hl.subperm.length_le

theorem verdict_failed {c : Check ι ο σ} {sr : Search ℤ σ} (wf : WellFormed entries)
    (inv : sr.Inv (opStep model entries) model.init (evs entries))
    (hlg : c.longest.Ok (opStep model entries) model.init (evs entries) computePartial sr.left)
    {j : ℤ} {after : List (Ev ℤ)} (hafter : sr.level.after = .ret j :: after)
    (hstack : sr.stack = []) : Verdict model entries computePartial (false, c.longest) := by
  refine ⟨⟨nofun, fun hlin => ?_⟩, hlg.reported wf, fun hcp l hl i hi => ?_⟩
  · exact absurd hlin (inv.complete wf.complete hafter hstack)
  · obtain ⟨t, E, hreach⟩ := (partialOf_iff wf).1 hl
    refine hlg.longest hcp l t E hreach ?_ i hi
    exact inv.mem_left_of_failed hafter hstack (List.ne_nil_of_mem hi) hreach

/-- **One iteration** of a loop that is not killed comes closer to the end, or returns the right
result. -/
theorem Check.Good.iterate {c : Check ι ο σ} {w : ℕ} (wf : WellFormed entries)
    (hcong : model.Congruent) (hc : c.Good model entries computePartial w) :
    (∃ c' w', c.iterate model computePartial false = some (.inl c') ∧ w' < w ∧
      c'.Good model entries computePartial w') ∨
    ∃ r, c.iterate model computePartial false = some (.inr r) ∧
      Verdict model entries computePartial r := by
  obtain ⟨sr, sim, inv, hlg, hw⟩ := hc
  obtain ⟨r, hr, hiter⟩ := iterate_spec wf sim inv hlg false
  cases hiter with
  | found hrest => exact .inr ⟨_, hr, verdict_found wf sim inv hrest⟩
  | failed hafter hstack => exact .inr ⟨_, hr, verdict_failed wf inv hlg hafter hstack⟩
  | move hmove sim' hlg' =>
    exact .inl ⟨_, _, hr, hmove.weight_lt.trans_le hw, _, sim',
      inv.move (hcong.bisimilar entries) hmove, hlg', le_rfl⟩

/-- A loop that reads the flag returns false then, unless it has just found a linearization. -/
theorem Check.Good.iterate_killed {c : Check ι ο σ} {w : ℕ} (wf : WellFormed entries)
    (hc : c.Good model entries computePartial w) :
    ∃ r, c.iterate model computePartial true = some (.inr r) ∧
      (Verdict model entries computePartial r ∨ r.1 = false ∧ Reported model entries r.2) := by
  obtain ⟨sr, sim, inv, hlg, hw⟩ := hc
  obtain ⟨r, hr, hiter⟩ := iterate_spec wf sim inv hlg true
  cases hiter with
  | found hrest => exact ⟨_, hr, .inl (verdict_found wf sim inv hrest)⟩
  | killed => exact ⟨_, hr, .inr ⟨rfl, hlg.reported wf⟩⟩

theorem Check.Good.loop {c : Check ι ο σ} {w : ℕ} (wf : WellFormed entries)
    (hcong : model.Congruent) (hc : c.Good model entries computePartial w) {fuel : ℕ}
    (hfuel : w < fuel) (kill : ℕ → Bool) :
    ∃ r, c.loop model computePartial fuel kill = some r ∧
      (Verdict model entries computePartial r ∨
        (∃ k, kill k = true) ∧ r.1 = false ∧ Reported model entries r.2) := by
  induction fuel generalizing c w kill with
  | zero => cases hfuel
  | succ fuel ih =>
    rw [Check.loop]
    cases hkill : kill 0 with
    | true =>
      obtain ⟨r, hr, hres⟩ := hc.iterate_killed wf
      rw [hr]
      exact ⟨r, rfl, hres.imp_right fun h => ⟨⟨0, hkill⟩, h⟩⟩
    | false =>
      rcases hc.iterate wf hcong with ⟨c', w', hc', hw', hgood⟩ | ⟨r, hr, hres⟩
      · rw [hc']
        obtain ⟨r, hr, hres⟩ := ih hgood (by omega) fun k => kill (k + 1)
        refine ⟨r, hr, hres.imp_right fun ⟨⟨k, hk⟩, h⟩ => ⟨⟨k + 1, hk⟩, h⟩⟩
      · rw [hr]
        exact ⟨r, rfl, .inl hres⟩

/-- `checkSingle` under any readings of the flag. -/
theorem checkSingle_spec (wf : WellFormed entries) (hcong : model.Congruent) {fuel : ℕ}
    (hfuel : cost entries.length < fuel) (computePartial : Bool) (kill : ℕ → Bool) :
    ∃ r, checkSingle model entries computePartial kill fuel = some r ∧
      (Verdict model entries computePartial r ∨
        (∃ k, kill k = true) ∧ r.1 = false ∧ Reported model entries r.2) := by
  obtain ⟨c, hstart, hgood⟩ := start_good wf model computePartial
  obtain ⟨r, hr, hres⟩ := hgood.loop wf hcong hfuel kill
  exact ⟨r, by rw [checkSingle, hstart]; exact hr, hres⟩

end Result

end DistSys.Porcupine
