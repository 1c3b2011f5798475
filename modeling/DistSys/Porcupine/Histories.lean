import DistSys.Porcupine.Single
import Mathlib.Data.List.Sort

/-!
# Histories of operations

`makeEntries` gives entries that the checker can work with (`wellFormed_makeEntries`), if no
operation returns before it is called: calls are sorted before returns of the same time. One
operation precedes another in the entries if and only if it returned at an earlier time
(`precedes_makeEntries`), so the entries are linearizable if and only if the operations are
(`linearizable_makeEntries`).

Main results: `checkSingle` decides whether a history is linearizable (`checkSingle_iff`), and finds
the longest partial linearization with each operation (`checkSingle_longest`).
-/

namespace DistSys.Porcupine

variable {ι ο σ : Type}

/-- The step of the model for an operation. -/
def FullModel.stepOf (model : FullModel ι ο σ) (s : σ) (op : Operation ι ο) : Option σ :=
  let r := model.step s op.input op.output
  if r.1 then some r.2 else none

/-- The history is linearizable: `b` precedes `a` if it returned before `a` was called. -/
def LinearizableHistory (model : FullModel ι ο σ) (history : List (Operation ι ο)) : Prop :=
  Linearizable model.stepOf (fun b a => b.ret < a.call) model.init history

/-- No operation returns before it is called. -/
def Timed (history : List (Operation ι ο)) : Prop := ∀ op ∈ history, op.call ≤ op.ret

instance decidableTimed (history : List (Operation ι ο)) : Decidable (Timed history) :=
  inferInstanceAs (Decidable (∀ op ∈ history, op.call ≤ op.ret))

def callOf (op : Operation ι ο) (i : ℕ) : Entry ι ο :=
  ⟨.callEntry, .inl op.input, i, op.call, op.clientId⟩

def returnOf (op : Operation ι ο) (i : ℕ) : Entry ι ο :=
  ⟨.returnEntry, .inr op.output, i, op.ret, op.clientId⟩

theorem less_iff {a b : Entry ι ο} : less a b = true ↔
    a.time < b.time ∨ a.time = b.time ∧ a.kind = .callEntry ∧ b.kind = .returnEntry := by
  by_cases h : a.time = b.time
  · simp [less, h]
  · rw [less, if_pos h]
    exact decide_eq_true_iff.trans ⟨.inl, fun h' => h'.resolve_right fun h' => h h'.1⟩

/-- What `sort.Sort` does with slices that are not longer than twelve. -/
def insertionByTime (ι ο : Type) : ByTime ι ο where
  sort entries := entries.insertionSort fun a b => less b a = false
  perm entries := List.perm_insertionSort _ entries
  sorted entries := by
    have htotal : Std.Total fun a b : Entry ι ο => less b a = false := ⟨fun a b => ?_⟩
    have htrans : IsTrans (Entry ι ο) fun a b => less b a = false := ⟨fun a b c hab hbc => ?_⟩
    · exact List.pairwise_insertionSort _ entries
    · rw [← Bool.not_eq_true, less_iff] at hab hbc ⊢
      cases hb : b.kind <;> grind
    · rw [← Bool.not_eq_true, ← Bool.not_eq_true, less_iff, less_iff]
      grind

section MakeEntries

variable {history : List (Operation ι ο)} (byTime : ByTime ι ο)

theorem mem_makeEntries {e : Entry ι ο} : e ∈ makeEntries byTime history ↔
    ∃ i op, history[i]? = some op ∧ (e = callOf op i ∨ e = returnOf op i) := by
  rw [makeEntries, (byTime.perm _).mem_iff, List.mem_flatMap]
  constructor
  · rintro ⟨⟨op, i⟩, hp, he⟩
    refine ⟨i, op, ?_, by simpa [entriesOf, callOf, returnOf] using he⟩
    simpa using List.mem_zipIdx_iff_getElem?.1 hp
  · rintro ⟨i, op, hop, he⟩
    refine ⟨(op, i), ?_, by simpa [entriesOf, callOf, returnOf] using he⟩
    simpa using List.mem_zipIdx_iff_getElem?.2 hop

/-- The events, up to their order. -/
theorem evs_perm : (evs (makeEntries byTime history)).Perm
    ((List.range history.length).flatMap fun i : ℕ => [Ev.call (i : ℤ), Ev.ret (i : ℤ)]) := by
  have h : evs (history.zipIdx.flatMap fun p => entriesOf p.1 p.2) =
      (List.range history.length).flatMap fun i : ℕ => [Ev.call (i : ℤ), Ev.ret (i : ℤ)] := by
    rw [List.range_eq_range', ← List.zipIdx_map_snd 0 history, List.flatMap_map, evs,
      List.map_flatMap]
    rfl
  rw [← h]
  exact (byTime.perm _).map Entry.ev

theorem nodup_evs : (evs (makeEntries byTime history)).Nodup := by
  rw [(evs_perm byTime).nodup_iff, List.nodup_flatMap]
  refine ⟨fun i _ => by simp, List.nodup_range.imp fun h x hx hx' => ?_⟩
  simp only [List.mem_cons, List.not_mem_nil, or_false] at hx hx'
  rcases hx with rfl | rfl <;> simp_all

theorem ids_perm : (ids (evs (makeEntries byTime history))).Perm
    ((List.range history.length).map fun i : ℕ => (i : ℤ)) := by
  have h : ids ((List.range history.length).flatMap fun i : ℕ => [Ev.call (i : ℤ), Ev.ret (i : ℤ)]) =
      (List.range history.length).map fun i : ℕ => (i : ℤ) := by
    generalize List.range history.length = l
    induction l with
    | nil => rfl
    | cons i l ih => simpa [ids, List.filterMap_cons, Ev.called] using ih
  rw [← h]
  exact (evs_perm byTime).filterMap _

theorem mem_ids_makeEntries {j : ℕ} :
    (j : ℤ) ∈ ids (evs (makeEntries byTime history)) ↔ j < history.length := by
  simp [(ids_perm byTime).mem_iff]

theorem length_makeEntries : (makeEntries byTime history).length = 2 * history.length := by
  have h : (evs (makeEntries byTime history)).Perm _ := evs_perm byTime
  simpa [evs, List.length_flatMap, Nat.mul_comm] using h.length_eq

/-- Entries are sorted. -/
theorem sublist_of_less {e e' : Entry ι ο} (he : e ∈ makeEntries byTime history)
    (he' : e' ∈ makeEntries byTime history) (hless : less e e' = true) :
    [e, e'].Sublist (makeEntries byTime history) := by
  have hne : e ≠ e' := by
    rintro rfl
    cases hk : e.kind <;> simp [less, hk] at hless
  refine (pair_sublist_or he he' hne).resolve_right fun h => ?_
  have hsorted := (byTime.sorted (history.zipIdx.flatMap fun p => entriesOf p.1 p.2)).sublist h
  simp [hless] at hsorted

theorem less_call_return {op op' : Operation ι ο} {i j : ℕ} :
    less (callOf op i) (returnOf op' j) = true ↔ op.call ≤ op'.ret := by
  simp only [less_iff, callOf, returnOf, and_self, and_true]
  exact le_iff_lt_or_eq.symm

theorem less_return_call {op op' : Operation ι ο} {i j : ℕ} :
    less (returnOf op i) (callOf op' j) = true ↔ op.ret < op'.call := by
  simp [less_iff, callOf, returnOf]

/-- **The entries of a history are as the checker needs them.** -/
theorem wellFormed_makeEntries (htimed : Timed history) :
    WellFormed (makeEntries byTime history) where
  complete := by
    refine ⟨nodup_evs byTime, fun x hx => ?_⟩
    obtain ⟨e, he, rfl⟩ := List.mem_map.1 hx
    obtain ⟨i, op, hop, he'⟩ := (mem_makeEntries byTime).1 he
    have hid : e.ev.id = i := by
      rw [e.id_ev]
      rcases he' with rfl | rfl <;> rfl
    rw [hid]
    have hcall := (mem_makeEntries byTime).2 ⟨i, op, hop, .inl rfl⟩
    have hret := (mem_makeEntries byTime).2 ⟨i, op, hop, .inr rfl⟩
    exact (sublist_of_less byTime hcall hret
      (less_call_return.2 (htimed op (List.mem_of_getElem? hop)))).map Entry.ev
  input e he hkind := by
    obtain ⟨i, op, -, rfl | rfl⟩ := (mem_makeEntries byTime).1 he
    · exact ⟨_, rfl⟩
    · cases hkind
  output e he hkind := by
    obtain ⟨i, op, -, rfl | rfl⟩ := (mem_makeEntries byTime).1 he
    · cases hkind
    · exact ⟨_, rfl⟩
  range e he := by
    obtain ⟨i, op, hop, he'⟩ := (mem_makeEntries byTime).1 he
    obtain ⟨hlt, -⟩ := List.getElem?_eq_some_iff.1 hop
    have hid : e.id = i := by rcases he' with rfl | rfl <;> rfl
    rw [length_makeEntries, hid]
    omega

/-- **An operation precedes another in the entries if it returned earlier.** -/
theorem precedes_makeEntries {i j : ℕ} {op op' : Operation ι ο} (hop : history[i]? = some op)
    (hop' : history[j]? = some op') :
    Precedes (evs (makeEntries byTime history)) (i : ℤ) (j : ℤ) ↔ op.ret < op'.call := by
  have hret := (mem_makeEntries byTime).2 ⟨i, op, hop, .inr rfl⟩
  have hcall := (mem_makeEntries byTime).2 ⟨j, op', hop', .inl rfl⟩
  constructor
  · intro h
    by_contra hnot
    have hle : less (callOf op' j) (returnOf op i) = true := less_call_return.2 (by omega)
    exact pair_sublist_asymm (nodup_evs byTime) h
      ((sublist_of_less byTime hcall hret hle).map Entry.ev)
  · intro h
    exact (sublist_of_less byTime hret hcall (less_return_call.2 h)).map Entry.ev

variable {model : FullModel ι ο σ}

theorem opStep_makeEntries (htimed : Timed history) {i : ℕ} {op : Operation ι ο}
    (hop : history[i]? = some op) (s : σ) :
    opStep model (makeEntries byTime history) s (i : ℤ) = model.stepOf s op := by
  have wf := wellFormed_makeEntries byTime htimed
  have hcall := wf.valueAt_ev ((mem_makeEntries byTime).2 ⟨i, op, hop, .inl rfl⟩)
  have hret := wf.valueAt_ev ((mem_makeEntries byTime).2 ⟨i, op, hop, .inr rfl⟩)
  change valueAt _ (.call (i : ℤ)) = some (.inl op.input) at hcall
  change valueAt _ (.ret (i : ℤ)) = some (.inr op.output) at hret
  rw [opStep, hcall, hret]
  rfl

/-- **The entries are linearizable if and only if the operations are.** -/
theorem linearizable_makeEntries (htimed : Timed history) :
    LinearizableEntries model (makeEntries byTime history) ↔ LinearizableHistory model history := by
  -- both are renamings of the indices of the history
  have hget : ∀ i : Fin history.length, history[i.val]? = some (history.get i) :=
    fun i => List.getElem?_eq_getElem i.isLt
  have hids : ((List.finRange history.length).map fun i => (i.val : ℤ)).Perm
      (ids (evs (makeEntries byTime history))) := by
    refine .trans ?_ (ids_perm byTime).symm
    rw [← List.map_coe_finRange_eq_range, List.map_map]
    rfl
  have hops : (List.finRange history.length).map history.get = history := List.map_get_finRange _
  calc LinearizableEntries model (makeEntries byTime history)
      ↔ Linearizable (opStep model (makeEntries byTime history))
          (Precedes (evs (makeEntries byTime history))) model.init
          ((List.finRange history.length).map fun i : Fin _ => (i.val : ℤ)) :=
        (linearizable_perm hids).symm
    _ ↔ Linearizable (fun s i => model.stepOf s (history.get i))
          (fun i j => (history.get i).ret < (history.get j).call) model.init
          (List.finRange history.length) :=
        (linearizable_map (fun i _ s => (opStep_makeEntries byTime htimed (hget i) s).symm)
          fun i _ j _ => (precedes_makeEntries byTime (hget i) (hget j)).symm).symm
    _ ↔ Linearizable model.stepOf (fun b a => b.ret < a.call) model.init
          ((List.finRange history.length).map history.get) :=
        linearizable_map (fun _ _ _ => rfl) fun _ _ _ _ => Iff.rfl
    _ ↔ LinearizableHistory model history := by rw [hops, LinearizableHistory]

end MakeEntries

theorem fillDefault_congruent [DecidableEq σ] {model : Model ι ο σ} (h : model.equal = none) :
    (fillDefault model).Congruent := by
  intro s t x y heq hok
  have heq' : (fillDefault model).equal = shallowEqual := by rw [fillDefault, h]; rfl
  rw [heq'] at heq ⊢
  simp only [shallowEqual, decide_eq_true_eq] at heq ⊢
  subst heq
  exact ⟨hok, rfl⟩

/-- **`checkSingle` decides linearizability**, after a number of iterations that depends on the
number of operations only, and without a nil pointer or an index out of range. -/
theorem checkSingle_iff {model : FullModel ι ο σ} {byTime : ByTime ι ο}
    {history : List (Operation ι ο)} (htimed : Timed history) (hcong : model.Congruent)
    {computePartial : Bool} {fuel : ℕ} (hfuel : cost (2 * history.length) < fuel) :
    ∃ r, checkSingle model (makeEntries byTime history) computePartial (fun _ => false) fuel =
        some r ∧
      (r.1 = true ↔ LinearizableHistory model history) := by
  have wf := wellFormed_makeEntries byTime htimed
  rw [← length_makeEntries byTime] at hfuel
  obtain ⟨r, hr, hres⟩ := checkSingle_spec wf hcong hfuel computePartial fun _ => false
  refine ⟨r, hr, ?_⟩
  rw [← linearizable_makeEntries byTime htimed]
  rcases hres with hverdict | ⟨⟨k, hk⟩, -⟩
  · exact hverdict.linearizable
  · cases hk

theorem checkSingle_iff_swap :
    let model : Model ℕ ℕ ℕ := { init := 0, step := fun s x y => (y = s, x) }
    let history : List (Operation ℕ ℕ) := [⟨0, 1, 0, 2, 10⟩, ⟨1, 2, 5, 0, 15⟩]
    ∃ r, checkSingle (fillDefault model) (makeEntries (insertionByTime ℕ ℕ) history) true
      (fun _ => false) 130 = some r ∧
      (r.1 = true ↔ LinearizableHistory (fillDefault model) history) :=
  checkSingle_iff (by decide) (fillDefault_congruent rfl) (by decide)

/-- **The longest partial linearizations.** The slice of an operation is a partial linearization
with this operation; and if the search was not stopped, none is longer. -/
theorem checkSingle_longest {model : FullModel ι ο σ} {byTime : ByTime ι ο}
    {history : List (Operation ι ο)} (htimed : Timed history) (hcong : model.Congruent)
    {kill : ℕ → Bool} {fuel : ℕ} (hfuel : cost (2 * history.length) < fuel) :
    ∃ r, checkSingle model (makeEntries byTime history) true kill fuel = some r ∧
      ∀ j < history.length,
        (∀ seq, r.2.at? j = some seq →
          (j : ℤ) ∈ seq ∧ PartialOf model (makeEntries byTime history) seq) ∧
        ((∀ k, kill k = false) → ∀ l, PartialOf model (makeEntries byTime history) l → (j : ℤ) ∈ l →
          ∃ seq, r.2.at? j = some seq ∧ l.length ≤ seq.length) := by
  have wf := wellFormed_makeEntries byTime htimed
  rw [← length_makeEntries byTime] at hfuel
  obtain ⟨r, hr, hres⟩ := checkSingle_spec wf hcong hfuel true kill
  refine ⟨r, hr, fun j hj => ⟨fun seq hseq => ?_, fun hkill l hl hmem => ?_⟩⟩
  · have hreported : Reported model (makeEntries byTime history) r.2 :=
      hres.elim Verdict.reported fun h => h.2.2
    obtain ⟨hpart, hmem⟩ := hreported j seq hseq
    exact ⟨hmem ((mem_ids_makeEntries byTime).2 hj), hpart⟩
  · rcases hres with hverdict | ⟨⟨k, hk⟩, -⟩
    · exact hverdict.longest rfl l hl j hmem
    · rw [hkill k] at hk
      cases hk

theorem checkSingle_longest_swap :
    let model : Model ℕ ℕ ℕ := { init := 0, step := fun s x y => (y = s, x) }
    let entries := makeEntries (insertionByTime ℕ ℕ) [⟨0, 1, 0, 7, 10⟩, ⟨1, 2, 5, 0, 15⟩]
    let kill : ℕ → Bool := fun _ => false
    ∃ r, checkSingle (fillDefault model) entries true kill 130 = some r ∧ ∀ j < 2,
      (∀ seq, r.2.at? j = some seq → (j : ℤ) ∈ seq ∧ PartialOf (fillDefault model) entries seq) ∧
      ((∀ k, kill k = false) → ∀ l, PartialOf (fillDefault model) entries l → (j : ℤ) ∈ l →
        ∃ seq, r.2.at? j = some seq ∧ l.length ≤ seq.length) :=
  checkSingle_longest (by decide) (fillDefault_congruent rfl) (by decide)

end DistSys.Porcupine
