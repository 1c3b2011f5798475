import DistSys.Porcupine.Parallel

/-!
# Histories of events

`checkEvents` takes the calls and returns in their order, with any numbers for the operations.
`renumber` numbers them from 0 on, in the order of their calls: a number becomes its position among
the different numbers (`renumber_eq`). Nothing else depends on the numbers, so the entries are
linearizable after it if and only if they were before (`linearizable_renumber`), and the result of
`checkEvents` is right for the events as they were given (`checkEvents_sound`).
-/

namespace DistSys.Porcupine

variable {ι ο σ : Type}

/-- `checkEvents` up to its call of `checkParallel`, and that at its start. -/
def checkEvents [DecidableEq σ] (model : Model ι ο σ) (history : List (Event ι ο)) :
    Parallel ι ο σ :=
  .start (((fillDefault model).partitionEvent history).map fun sub => convertEntries (renumber sub))

/-! ## Other numbers for the operations -/

section Rename

variable {f : ℤ → ℤ} {entries : List (Entry ι ο)}

def Entry.rename (f : ℤ → ℤ) (e : Entry ι ο) : Entry ι ο := { e with id := f e.id }

theorem Entry.ev_rename (e : Entry ι ο) : (e.rename f).ev = e.ev.map f := by
  rcases e with ⟨kind, value, id, time, clientId⟩
  cases kind <;> rfl

theorem evs_rename (f : ℤ → ℤ) (entries : List (Entry ι ο)) :
    evs (entries.map (Entry.rename f)) = (evs entries).map (Ev.map f) := by
  rw [evs, evs, List.map_map, List.map_map]
  exact List.map_congr_left fun e _ => e.ev_rename

theorem valueAt_rename (hf : Ev.InjOn f (evs entries)) {x : Ev ℤ} (hx : x ∈ evs entries) :
    valueAt (entries.map (Entry.rename f)) (x.map f) = valueAt entries x := by
  have hev : ∀ e ∈ entries, ((e.rename f).ev = x.map f ↔ e.ev = x) := by
    intro e he
    rw [e.ev_rename]
    exact ⟨hf.eq (List.mem_map_of_mem he) hx, congrArg _⟩
  clear hf hx
  rw [valueAt, valueAt]
  induction entries with
  | nil => rfl
  | cons e entries ih =>
    rw [List.forall_mem_cons] at hev
    by_cases he : e.ev = x
    · rw [List.map_cons, List.find?_cons_of_pos (by simpa using hev.1.2 he),
        List.find?_cons_of_pos (by simpa using he)]
      rfl
    · rw [List.map_cons, List.find?_cons_of_neg (by simpa using mt hev.1.1 he),
        List.find?_cons_of_neg (by simpa using he)]
      exact ih hev.2

theorem opStep_rename (model : FullModel ι ο σ) (h : Complete (evs entries))
    (hf : Ev.InjOn f (evs entries)) {i : ℤ} (hi : i ∈ ids (evs entries)) (s : σ) :
    opStep model (entries.map (Entry.rename f)) s (f i) = opStep model entries s i := by
  have hcall : valueAt _ (.call (f i)) = _ := valueAt_rename hf (mem_ids.1 hi)
  have hret : valueAt _ (.ret (f i)) = _ := valueAt_rename hf (h.ret_mem hi)
  rw [opStep, opStep, hcall, hret]

/-- **The numbers do not matter.** -/
theorem linearizable_rename (model : FullModel ι ο σ) (h : Complete (evs entries))
    (hf : Ev.InjOn f (evs entries)) :
    LinearizableEntries model (entries.map (Entry.rename f)) ↔ LinearizableEntries model entries := by
  rw [LinearizableEntries, LinearizableEntries, evs_rename, ids_map]
  exact (linearizable_map (fun i hi s => (opStep_rename model h hf hi s).symm)
    fun b hb a ha => (h.precedes_map hf ha hb).symm).symm

end Rename

/-! ## `renumber` -/

/-- The position of a number in a list. -/
def position (l : List ℤ) (a : ℤ) : Option ℤ := if a ∈ l then some (l.idxOf a : ℤ) else none

theorem update_position {l : List ℤ} {a : ℤ} (ha : a ∉ l) :
    Function.update (position l) a (some (l.length : ℤ)) = position (l ++ [a]) := by
  funext b
  by_cases hb : b = a
  · subst hb
    simp [position, List.idxOf_append_of_notMem ha]
  · rw [Function.update_of_ne hb]
    by_cases hmem : b ∈ l
    · simp [position, hmem, List.idxOf_append_of_mem hmem]
    · simp [position, hmem, hb]

/-- The loop adds the new numbers to those it has seen. -/
theorem renumberLoop_eq (events : List (Event ι ο)) {seen : List ℤ} (hseen : seen.Nodup) :
    ∃ more, (seen ++ more).Nodup ∧ (∀ a ∈ more, ∃ v ∈ events, v.id = a) ∧
      (∀ v ∈ events, v.id ∈ seen ++ more) ∧
      renumberLoop events (position seen) seen.length =
        events.map fun v => { v with id := ((seen ++ more).idxOf v.id : ℤ) } := by
  induction events generalizing seen with
  | nil => exact ⟨[], by simpa using hseen, by simp, by simp, rfl⟩
  | cons v events ih =>
    by_cases hv : v.id ∈ seen
    · obtain ⟨more, hnodup, hmore, hall, heq⟩ := ih hseen
      refine ⟨more, hnodup, ?_, ?_, ?_⟩
      · exact fun a ha => (hmore a ha).imp fun u hu => ⟨List.mem_cons_of_mem v hu.1, hu.2⟩
      · exact List.forall_mem_cons.2 ⟨List.mem_append_left _ hv, hall⟩
      · rw [renumberLoop, position, if_pos hv, List.map_cons, List.idxOf_append_of_mem hv, ← heq]
    · have hseen' : (seen ++ [v.id]).Nodup := by
        rw [← List.concat_eq_append, List.nodup_concat]
        exact ⟨hv, hseen⟩
      obtain ⟨more, hnodup, hmore, hall, heq⟩ := ih hseen'
      rw [List.append_assoc, List.singleton_append] at hnodup hall heq
      refine ⟨v.id :: more, hnodup, ?_, ?_, ?_⟩
      · refine List.forall_mem_cons.2 ⟨⟨v, by simp, rfl⟩, fun a ha => ?_⟩
        exact (hmore a ha).imp fun u hu => ⟨List.mem_cons_of_mem v hu.1, hu.2⟩
      · exact List.forall_mem_cons.2 ⟨by simp, hall⟩
      · rw [renumberLoop, position, if_neg hv, List.map_cons, update_position hv, ← heq]
        rw [List.length_append, List.length_singleton, Nat.cast_add, Nat.cast_one,
          List.idxOf_append_of_notMem hv, List.idxOf_cons_self, Nat.add_zero]

/-- A number becomes its position among the different numbers. -/
theorem renumber_eq (events : List (Event ι ο)) :
    ∃ l : List ℤ, l.Nodup ∧ (∀ a, a ∈ l ↔ ∃ v ∈ events, v.id = a) ∧
      renumber events = events.map fun v => { v with id := (l.idxOf v.id : ℤ) } := by
  obtain ⟨l, hnodup, hl, hall, heq⟩ := renumberLoop_eq events List.nodup_nil
  rw [List.nil_append] at hnodup hall heq
  refine ⟨l, hnodup, fun a => ⟨hl a, ?_⟩, heq⟩
  rintro ⟨v, hv, rfl⟩
  exact hall v hv

/-! ## Entries of events -/

theorem convertEntries_map (f : ℤ → ℤ) (events : List (Event ι ο)) :
    convertEntries (events.map fun v => { v with id := f v.id }) =
      (convertEntries events).map (Entry.rename f) := by
  rw [convertEntries, convertEntries, List.zipIdx_map, List.map_map, List.map_map]
  rfl

theorem map_id_convertEntries (events : List (Event ι ο)) :
    (convertEntries events).map Entry.id = events.map Event.id := by
  nth_rewrite 2 [← List.zipIdx_map_fst 0 events]
  rw [convertEntries, List.map_map, List.map_map]
  rfl

/-- Every operation is called once, with an input, and then returns once, with an output. -/
structure CompleteEvents (events : List (Event ι ο)) : Prop where
  complete : Complete (evs (convertEntries events))
  input : ∀ v ∈ events, v.kind = .callEvent → ∃ x, v.value = .inl x
  output : ∀ v ∈ events, v.kind = .returnEvent → ∃ y, v.value = .inr y

section Renumber

variable {events : List (Event ι ο)}

/-- The entries after `renumber` are those before it, with other numbers. -/
theorem convertEntries_renumber (h : Complete (evs (convertEntries events))) :
    ∃ f : ℤ → ℤ, Ev.InjOn f (evs (convertEntries events)) ∧
      (∀ e ∈ convertEntries events, 0 ≤ f e.id ∧ f e.id < (convertEntries events).length / 2) ∧
      convertEntries (renumber events) = (convertEntries events).map (Entry.rename f) := by
  obtain ⟨l, hnodup, hmem, heq⟩ := renumber_eq events
  have hl : ∀ a, a ∈ l ↔ a ∈ (convertEntries events).map Entry.id := by
    intro a
    rw [hmem, map_id_convertEntries, List.mem_map]
  have hids : l.Perm (ids (evs (convertEntries events))) := by
    refine (List.perm_ext_iff_of_nodup hnodup h.nodup_ids).2 fun a => ?_
    rw [hl, mem_ids, List.mem_map]
    constructor
    · rintro ⟨e, he, rfl⟩
      rw [← e.id_ev]
      exact h.call_mem (List.mem_map_of_mem he)
    · intro ha
      obtain ⟨e, he, hev⟩ := List.mem_map.1 ha
      exact ⟨e, he, by rw [← e.id_ev, hev, Ev.id_call]⟩
  refine ⟨fun a => (l.idxOf a : ℤ), ?_, ?_, ?_⟩
  · intro x hx y hy hxy
    obtain ⟨e, he, rfl⟩ := List.mem_map.1 hx
    obtain ⟨e', he', rfl⟩ := List.mem_map.1 hy
    rw [e.id_ev, e'.id_ev] at hxy ⊢
    exact (List.idxOf_inj ((hl _).2 (List.mem_map_of_mem he))).1 (Nat.cast_injective hxy)
  · intro e he
    have hlt := List.idxOf_lt_length_of_mem ((hl _).2 (List.mem_map_of_mem he))
    have hlen := h.length_eq
    rw [← hids.length_eq, evs, List.length_map] at hlen
    simp only
    omega
  · rw [heq]
    exact convertEntries_map (fun a => (l.idxOf a : ℤ)) events

/-- **The entries of events are as the checker needs them.** -/
theorem wellFormed_renumber (h : CompleteEvents events) :
    WellFormed (convertEntries (renumber events)) := by
  obtain ⟨f, hf, hrange, heq⟩ := convertEntries_renumber h.complete
  have hmem : ∀ e ∈ convertEntries (renumber events), ∃ v ∈ events, e.value = v.value ∧
      (e.kind = .callEntry ↔ v.kind = .callEvent) := by
    rw [heq]
    intro e he
    obtain ⟨e', he', rfl⟩ := List.mem_map.1 he
    obtain ⟨⟨v, i⟩, hv, rfl⟩ := List.mem_map.1 he'
    refine ⟨v, ?_, rfl, ?_⟩
    · exact (List.mem_zipIdx' hv).2 ▸ List.getElem_mem _
    · cases hk : v.kind <;> simp [Entry.rename, hk]
  refine ⟨?_, fun e he hkind => ?_, fun e he hkind => ?_, fun e he => ?_⟩
  · rw [heq, evs_rename]
    exact h.complete.map hf
  · obtain ⟨v, hv, hvalue, hiff⟩ := hmem e he
    rw [hvalue]
    exact h.input v hv (hiff.1 hkind)
  · obtain ⟨v, hv, hvalue, hiff⟩ := hmem e he
    rw [hvalue]
    refine h.output v hv ?_
    cases hk : v.kind with
    | callEvent => rw [hiff.2 hk] at hkind; cases hkind
    | returnEvent => rfl
  · rw [heq] at he ⊢
    obtain ⟨e', he', rfl⟩ := List.mem_map.1 he
    rw [List.length_map]
    exact hrange e' he'

/-- **Renumbering keeps linearizability.** -/
theorem linearizable_renumber (model : FullModel ι ο σ) (h : CompleteEvents events) :
    LinearizableEntries model (convertEntries (renumber events)) ↔
      LinearizableEntries model (convertEntries events) := by
  obtain ⟨f, hf, -, heq⟩ := convertEntries_renumber h.complete
  rw [heq]
  exact linearizable_rename model h.complete hf

end Renumber

/-- **The result of `checkEvents`** is right for the partitions as they were given, in any order in
which the goroutines run. -/
theorem checkEvents_sound [DecidableEq σ] {model : Model ι ο σ}
    (hcong : (fillDefault model).Congruent) {history : List (Event ι ο)}
    (hevents : ∀ sub ∈ (fillDefault model).partitionEvent history, CompleteEvents sub)
    {computeInfo : Bool} {timeout : ℤ} {as : List ParallelAction} {s : Parallel ι ο σ}
    (hrun : run (Parallel.step (fillDefault model) computeInfo timeout) (checkEvents model history)
      as = some s) {result : CheckResult} {info : Option (List (List (List ℤ)))}
    (hmain : s.main = .done result info) :
    (result = .ok → ∀ sub ∈ (fillDefault model).partitionEvent history,
      LinearizableEntries (fillDefault model) (convertEntries sub)) ∧
    (result = .illegal → ∃ sub ∈ (fillDefault model).partitionEvent history,
      ¬ LinearizableEntries (fillDefault model) (convertEntries sub)) ∧
    (result = .unknown → 0 < timeout) := by
  have wf : ∀ entries ∈ ((fillDefault model).partitionEvent history).map
      fun sub => convertEntries (renumber sub), WellFormed entries :=
    List.forall_mem_map.2 fun sub hsub => wellFormed_renumber (hevents sub hsub)
  obtain ⟨hok, hillegal, hunknown⟩ :=
    (checkParallel_sound wf hcong hrun).2.1 result info hmain
  refine ⟨fun hr sub hsub => ?_, fun hr => ?_, hunknown⟩
  · rw [← linearizable_renumber _ (hevents sub hsub)]
    exact (hok hr).2 _ (List.mem_map_of_mem hsub)
  · obtain ⟨entries, hmem, hnot⟩ := hillegal hr
    obtain ⟨sub, hsub, rfl⟩ := List.mem_map.1 hmem
    exact ⟨sub, hsub, fun hlin => hnot ((linearizable_renumber _ (hevents sub hsub)).2 hlin)⟩

theorem checkEvents_sound_swap :
    let model : Model ℕ ℕ ℕ := { init := 0, step := fun s x y => (y = s, x) }
    let history : List (Event ℕ ℕ) := [⟨0, .callEvent, .inl 1, 7⟩, ⟨1, .callEvent, .inl 2, 3⟩,
      ⟨1, .returnEvent, .inr 0, 3⟩, ⟨0, .returnEvent, .inr 2, 7⟩]
    CompleteEvents history ∧ LinearizableEntries (fillDefault model) (convertEntries history) := by
  intro model history
  have hevents : CompleteEvents history :=
    ⟨⟨by decide, by decide⟩, by simp [history], by simp [history]⟩
  refine ⟨hevents, ?_⟩
  obtain ⟨s, hrun, hmain⟩ : ∃ s, run (Parallel.step (fillDefault model) false 0)
      (checkEvents model history) (List.replicate 6 (.routine 0) ++ [.receive]) = some s ∧
        s.main = .done .ok none := by decide +kernel
  have h := checkEvents_sound (fillDefault_congruent rfl) (List.forall_mem_singleton.2 hevents) hrun
    hmain
  exact h.1 rfl history List.mem_cons_self

end DistSys.Porcupine
