import DistSys.Porcupine.Histories
import Mathlib.Data.List.ReduceOption
import Mathlib.Algebra.BigOperators.Group.Finset.Piecewise

/-!
# The partitions of a history are checked in parallel

`checkParallel` starts a goroutine for each partition, and takes their results from a channel until
one is false, all are there, or the time is over. It then sets a flag that stops the goroutines.

**The system** (`Parallel`). The goroutines, the channel, the flag, and the variables of the
function itself. An action is a step of a goroutine, a receive or a timeout.

**Results.** A goroutine that has read the flag returns false for any history. But the flag is set
after the last result that is used, so the function returns `Ok` only if every partition is
linearizable and `Illegal` only if one is not, in whatever order the goroutines run
(`checkParallel_sound`). Every run comes to an end, which is a result unless there are no partitions
and no timeout.

**Partial linearizations** are returned when all goroutines have finished. They are the longest ones
if there was no timeout (`checkParallel_informative`).
-/

namespace DistSys.Porcupine

variable {ι ο σ : Type}

/-! ## The system -/

inductive CheckResult where
  | unknown
  | ok
  | illegal
  deriving DecidableEq

/-- A goroutine: it has its part of the history, is in the loop of `checkSingle`, has the result of
it, or has stored and sent that. -/
inductive Routine (ι ο σ : Type) where
  | starting (subhistory : List (Entry ι ο))
  | running (c : Check ι ο σ)
  | returned (ok : Bool) (l : Longest)
  | finished (ok : Bool) (l : Longest)

namespace Routine

/-- A step of the goroutine, and what it sends. -/
def step (model : FullModel ι ο σ) (computeInfo kill : Bool) :
    Routine ι ο σ → Option (Routine ι ο σ × List Bool)
  | .starting subhistory => do
    let c ← Check.start model.init subhistory
    return (.running c, [])
  | .running c => do
    match ← c.iterate model computeInfo kill with
    | .inl c => return (.running c, [])
    | .inr (ok, l) => return (.returned ok l, [])
  | .returned ok l => some (.finished ok l, [ok])
  | .finished _ _ => none

/-- `longest[i]`, which is nil until the goroutine stores its result. -/
def longest : Routine ι ο σ → Longest
  | .finished _ l => l
  | _ => ⟨[], []⟩

/-- What the goroutine has sent. -/
def sent : Routine ι ο σ → List Bool
  | .finished ok _ => [ok]
  | _ => []

end Routine

/-- The slices that `longest` points to, each once. Their order is not specified. -/
def partials (longest : Longest) : List (List ℤ) :=
  longest.longest.reduceOption.dedup.map fun k => longest.seqs.getD k []

/-- Where `checkParallel` is: in the loop with the `select`, in the loop that waits for the
goroutines, or at its end with the result and the partial linearizations. -/
inductive Main where
  | selecting
  | waiting (timedOut : Bool)
  | done (result : CheckResult) (partialLinearizations : Option (List (List (List ℤ))))
  deriving DecidableEq

structure Parallel (ι ο σ : Type) where
  routines : List (Routine ι ο σ)
  results : List Bool
  kill : Bool
  count : ℕ
  ok : Bool
  main : Main

inductive ParallelAction where
  | routine (i : ℕ)
  | receive
  | timeout

def resultOf (ok timedOut : Bool) : CheckResult :=
  if !ok then .illegal else if timedOut then .unknown else .ok

namespace Parallel

def start (history : List (List (Entry ι ο))) : Parallel ι ο σ where
  routines := history.map .starting
  results := []
  kill := false
  count := 0
  ok := true
  main := .selecting

/-- What follows the loop with the `select`, and each receive of the loop that waits. -/
def leave (computeInfo : Bool) (timedOut : Bool) (s : Parallel ι ο σ) : Parallel ι ο σ :=
  if computeInfo && decide (s.count < s.routines.length) then { s with main := .waiting timedOut }
  else
    let info := if computeInfo then some (s.routines.map fun r => partials r.longest) else none
    { s with main := .done (resultOf s.ok timedOut) info }

/-- The case of a result in the `select`. -/
def select (computeInfo : Bool) (result : Bool) (s : Parallel ι ο σ) : Parallel ι ο σ :=
  let s := { s with count := s.count + 1, ok := s.ok && result }
  if !s.ok && !computeInfo then { s with kill := true }.leave computeInfo false
  else if s.routines.length ≤ s.count then s.leave computeInfo false
  else s

def step (model : FullModel ι ο σ) (computeInfo : Bool) (timeout : ℤ) (s : Parallel ι ο σ) :
    ParallelAction → Option (Parallel ι ο σ)
  | .routine i => do
    let r ← s.routines[i]?
    let (r', sent) ← r.step model computeInfo s.kill
    return { s with routines := s.routines.set i r', results := s.results ++ sent }
  | .receive =>
    match s.main, s.results with
    | .selecting, result :: results => some ({ s with results := results }.select computeInfo result)
    | .waiting timedOut, _ :: results =>
      some ({ s with results := results, count := s.count + 1 }.leave computeInfo timedOut)
    | _, _ => none
  | .timeout =>
    match s.main with
    | .selecting =>
      if 0 < timeout then some ({ s with kill := true }.leave computeInfo true) else none
    | _ => none

end Parallel

/-! ## Goroutines -/

section Routines

variable (model : FullModel ι ο σ) (computeInfo kill : Bool) (entries : List (Entry ι ο))

/-- What is known of the goroutine for `entries`, with a bound for the steps it has to take and the
result it has to send. -/
inductive Routine.Ok : Routine ι ο σ → ℕ → Prop where
  | starting : Ok (.starting entries) (cost entries.length + 4)
  | running {c : Check ι ο σ} {w : ℕ} (good : c.Good model entries computeInfo w) :
      Ok (.running c) (w + 3)
  | returned {ok : Bool} {l : Longest} (reported : Reported model entries l)
      (verdict : kill = false → Verdict model entries computeInfo (ok, l)) : Ok (.returned ok l) 2
  | finished {ok : Bool} {l : Longest} (reported : Reported model entries l)
      (verdict : kill = false → Verdict model entries computeInfo (ok, l)) : Ok (.finished ok l) 0

variable {model computeInfo kill entries} {r : Routine ι ο σ} {w : ℕ}

theorem Routine.Ok.killed (h : r.Ok model computeInfo kill entries w) :
    r.Ok model computeInfo true entries w := by
  cases h with
  | starting => exact .starting
  | running good => exact .running good
  | returned reported _ => exact .returned reported nofun
  | finished reported _ => exact .finished reported nofun

/-- A goroutine that has not finished can take a step, whether the flag is set or not. -/
theorem Routine.Ok.step (wf : WellFormed entries) (hcong : model.Congruent)
    (h : r.Ok model computeInfo kill entries w) (hsent : r.sent = []) :
    ∃ r' sent w', r.step model computeInfo kill = some (r', sent) ∧
      r'.Ok model computeInfo kill entries w' ∧ r'.sent = sent ∧ w' + sent.length < w := by
  cases h with
  | starting =>
    obtain ⟨c, hc, hgood⟩ := start_good wf model computeInfo
    refine ⟨.running c, [], _, ?_, .running hgood, rfl, by simp⟩
    rw [Routine.step, hc]
    rfl
  | @running c w good =>
    cases kill with
    | true =>
      obtain ⟨⟨ok, l⟩, hr, hres⟩ := good.iterate_killed wf
      refine ⟨.returned ok l, [], 2, ?_, .returned ?_ nofun, rfl, by simp⟩
      · rw [Routine.step, hr]
        rfl
      · exact hres.elim Verdict.reported And.right
    | false =>
      rcases good.iterate wf hcong with ⟨c', w', hc', hw', hgood⟩ | ⟨⟨ok, l⟩, hr, hres⟩
      · refine ⟨.running c', [], _, ?_, .running hgood, rfl, by simpa using hw'⟩
        rw [Routine.step, hc']
        rfl
      · refine ⟨.returned ok l, [], 2, ?_, .returned hres.reported fun _ => hres, rfl, by simp⟩
        rw [Routine.step, hr]
        rfl
  | @returned ok l reported verdict =>
    exact ⟨_, _, 0, rfl, .finished reported verdict, rfl, by simp⟩
  | finished => cases hsent

theorem Routine.step_of_sent (hsent : r.sent ≠ []) : r.step model computeInfo kill = none := by
  cases r with
  | finished => rfl
  | _ => exact absurd rfl hsent

end Routines

theorem mem_partials {lg : Longest} {seq : List ℤ} :
    seq ∈ partials lg ↔ ∃ j, lg.at? j = some seq := by
  rw [partials, List.mem_map]
  constructor
  · rintro ⟨k, hk, rfl⟩
    rw [List.mem_dedup, List.reduceOption_mem_iff] at hk
    obtain ⟨j, hj⟩ := List.mem_iff_getElem?.1 hk
    exact ⟨j, by rw [Longest.at?, hj]; rfl⟩
  · rintro ⟨j, hj⟩
    obtain ⟨k, hk, rfl⟩ := Option.map_eq_some_iff.1 hj
    refine ⟨k, ?_, rfl⟩
    rw [List.mem_dedup, List.reduceOption_mem_iff]
    exact List.mem_of_getElem? (Option.join_eq_some_iff.1 hk)

/-! ## Runs -/

namespace Parallel

/-- The results that can be received, and those that have been. -/
theorem perm_flatMap_set {α β : Type*} {f : α → List β} {l : List α} {i : ℕ} {a b : α}
    {sent : List β} (ha : l[i]? = some a) (hf : f b = f a ++ sent) :
    ((l.set i b).flatMap f).Perm (l.flatMap f ++ sent) := by
  induction l generalizing i with
  | nil => simp at ha
  | cons c l ih =>
    cases i with
    | zero =>
      rw [List.getElem?_cons_zero, Option.some.injEq] at ha
      subst ha
      rw [List.set_cons_zero, List.flatMap_cons, List.flatMap_cons, hf, List.append_assoc,
        List.append_assoc]
      exact List.perm_append_comm.append_left _
    | succ i =>
      rw [List.set_cons_succ, List.flatMap_cons, List.flatMap_cons, List.append_assoc]
      exact (ih (by simpa using ha)).append_left _

variable (model : FullModel ι ο σ) (computeInfo : Bool) (timeout : ℤ)
  (history : List (List (Entry ι ο)))

/-- What a result says of the history. -/
structure Sound (result : CheckResult) : Prop where
  ok : result = .ok → history ≠ [] ∧ ∀ entries ∈ history, LinearizableEntries model entries
  illegal : result = .illegal → ∃ entries ∈ history, ¬ LinearizableEntries model entries
  unknown : result = .unknown → 0 < timeout

/-- The slices are partial linearizations; and if the goroutines were not stopped, each operation of
a partial linearization is in one of them that is at least as long. -/
structure Informative (entries : List (Entry ι ο)) (complete : Prop) (partials : List (List ℤ)) :
    Prop where
  partialOf : ∀ seq ∈ partials, PartialOf model entries seq
  longest : complete → ∀ l, PartialOf model entries l → ∀ i ∈ l,
    ∃ seq ∈ partials, i ∈ seq ∧ l.length ≤ seq.length

/-- What is known where `checkParallel` is. -/
def MainOk (s : Parallel ι ο σ) : Main → Prop
  | .selecting => s.kill = false ∧ (s.count < history.length ∨ history = [])
  | .waiting timedOut => s.count < history.length ∧ (timedOut = false → s.kill = false) ∧
      (timedOut = true → 0 < timeout) ∧ Sound model timeout history (resultOf s.ok timedOut)
  | .done result info => Sound model timeout history result ∧
      ∀ parts, info = some parts → List.Forall₂
        (fun entries p => Informative model entries (result = .ok ∨ timeout ≤ 0) p) history parts

/-- The goroutines, of which `w` bounds the steps, and the results, of which `received` have been
received. -/
structure Core (w : ℕ → ℕ) (received : List Bool) (s : Parallel ι ο σ) : Prop where
  length : s.routines.length = history.length
  routines : ∀ i (r : Routine ι ο σ) entries, s.routines[i]? = some r → history[i]? = some entries →
    r.Ok model computeInfo s.kill entries (w i)
  perm : (s.routines.flatMap Routine.sent).Perm (received ++ s.results)
  count : received.length = s.count

structure Inv (w : ℕ → ℕ) (received : List Bool) (s : Parallel ι ο σ) : Prop
    extends Core model computeInfo history w received s where
  ok : s.main = .selecting → s.ok = received.all id
  main : MainOk model timeout history s s.main

variable {model computeInfo timeout history} {w : ℕ → ℕ} {received : List Bool} {s : Parallel ι ο σ}

theorem length_sent_le (r : Routine ι ο σ) : r.sent.length ≤ 1 := by
  cases r <;> simp [Routine.sent]

theorem length_flatMap_sent_le (l : List (Routine ι ο σ)) :
    (l.flatMap Routine.sent).length ≤ l.length := by
  induction l with
  | nil => simp
  | cons r l ih =>
    have hr := length_sent_le r
    rw [List.flatMap_cons, List.length_append, List.length_cons]
    omega

theorem length_le_flatMap_sent {l : List (Routine ι ο σ)} (hl : ∀ r ∈ l, r.sent ≠ []) :
    l.length ≤ (l.flatMap Routine.sent).length := by
  induction l with
  | nil => simp
  | cons r l ih =>
    rw [List.forall_mem_cons] at hl
    have hr := List.length_pos_iff.2 hl.1
    have ih := ih hl.2
    rw [List.flatMap_cons, List.length_append, List.length_cons]
    omega

/-- If as many results were sent as there are goroutines, all have finished. -/
theorem sent_ne_nil {l : List (Routine ι ο σ)} (hl : l.length ≤ (l.flatMap Routine.sent).length) :
    ∀ r ∈ l, r.sent ≠ [] := by
  induction l with
  | nil => simp
  | cons r l ih =>
    have hr := length_sent_le r
    have hle := length_flatMap_sent_le l
    rw [List.flatMap_cons, List.length_append, List.length_cons] at hl
    rw [List.forall_mem_cons]
    refine ⟨fun h => ?_, ih (by omega)⟩
    rw [h, List.length_nil] at hl
    omega

theorem Core.get (core : Core model computeInfo history w received s) {i : ℕ}
    {r : Routine ι ο σ} (hr : s.routines[i]? = some r) : ∃ entries, history[i]? = some entries := by
  obtain ⟨hlt, -⟩ := List.getElem?_eq_some_iff.1 hr
  exact ⟨_, List.getElem?_eq_getElem (core.length ▸ hlt)⟩

/-- When all results have been received, all goroutines have finished, with these results. -/
theorem Core.finished (core : Core model computeInfo history w received s)
    (hcount : history.length ≤ s.count) {i : ℕ} {entries : List (Entry ι ο)}
    (hi : history[i]? = some entries) :
    ∃ ok l, s.routines[i]? = some (.finished ok l) ∧ ok ∈ received ∧ Reported model entries l ∧
      (s.kill = false → Verdict model entries computeInfo (ok, l)) := by
  have hlen := core.perm.length_eq
  have hle := length_flatMap_sent_le s.routines
  rw [core.length] at hle
  rw [List.length_append, core.count] at hlen
  have hnil : s.results = [] := List.length_eq_zero_iff.1 (by omega)
  have hall := sent_ne_nil (l := s.routines) (by rw [core.length]; omega)
  obtain ⟨hlt, -⟩ := List.getElem?_eq_some_iff.1 hi
  obtain ⟨r, hr⟩ : ∃ r, s.routines[i]? = some r :=
    ⟨_, List.getElem?_eq_getElem (core.length ▸ hlt)⟩
  have hmem := List.mem_of_getElem? hr
  have hok := core.routines i r entries hr hi
  generalize w i = v at hok
  cases hok with
  | @finished ok l reported verdict =>
    refine ⟨ok, l, hr, ?_, reported, verdict⟩
    have : ok ∈ s.routines.flatMap Routine.sent :=
      List.mem_flatMap.2 ⟨_, hmem, List.mem_singleton_self ok⟩
    rwa [core.perm.mem_iff, hnil, List.append_nil] at this
  | _ => exact absurd rfl (hall _ hmem)

/-- The results say what they should while the flag is not set. -/
theorem Core.sound (core : Core model computeInfo history w received s) (timeout : ℤ)
    (hkill : s.kill = false) (hne : history ≠ [])
    (hall : history.length ≤ s.count ∨ received.all id = false) :
    Sound model timeout history (resultOf (received.all id) false) := by
  cases hok : received.all id with
  | true =>
    have hcount := hall.resolve_right (by simp [hok])
    refine ⟨fun _ => ⟨hne, fun entries hentries => ?_⟩, nofun, nofun⟩
    obtain ⟨i, hi⟩ := List.mem_iff_getElem?.1 hentries
    obtain ⟨ok, l, -, hmem, -, hverdict⟩ := core.finished hcount hi
    exact (hverdict hkill).linearizable.1 (List.all_eq_true.1 hok ok hmem)
  | false =>
    refine ⟨nofun, fun _ => ?_, nofun⟩
    obtain ⟨ok, hmem, hfalse⟩ := List.all_eq_false.1 hok
    obtain ⟨r, hr, hsent⟩ := List.mem_flatMap.1 (core.perm.mem_iff.2 (List.mem_append_left _ hmem))
    obtain ⟨i, hi⟩ := List.mem_iff_getElem?.1 hr
    obtain ⟨entries, hentries⟩ := core.get hi
    refine ⟨entries, List.mem_of_getElem? hentries, ?_⟩
    have hrok := core.routines i r entries hi hentries
    generalize w i = v at hrok
    cases hrok with
    | @finished ok' l reported verdict =>
      rw [Routine.sent, List.mem_singleton] at hsent
      subst hsent
      exact fun hlin => hfalse ((verdict hkill).linearizable.2 hlin)
    | _ => cases hsent

/-- The partial linearizations that are returned when all goroutines have finished. -/
theorem Core.informative (wf : ∀ entries ∈ history, WellFormed entries)
    (core : Core model computeInfo history w received s)
    (hcount : history.length ≤ s.count) (hcompute : computeInfo = true) {complete : Prop}
    (hcomplete : complete → s.kill = false) :
    List.Forall₂ (fun entries p => Informative model entries complete p) history
      (s.routines.map fun r => partials r.longest) := by
  refine List.forall₂_iff_get.2 ⟨by rw [List.length_map, core.length], fun i h₁ h₂ => ?_⟩
  have hi : history[i]? = some (history.get ⟨i, h₁⟩) := List.getElem?_eq_getElem h₁
  obtain ⟨ok, l, hr, -, hreported, hverdict⟩ := core.finished hcount hi
  have hget : (s.routines.map fun r => partials r.longest).get ⟨i, h₂⟩ = partials l := by
    rw [List.get_eq_getElem, List.getElem_map, (List.getElem?_eq_some_iff.1 hr).2]
    rfl
  rw [hget]
  refine ⟨fun seq hseq => ?_, fun hc m hm j hj => ?_⟩
  · obtain ⟨j, hj⟩ := mem_partials.1 hseq
    exact (hreported j seq hj).1
  · obtain ⟨seq, hseq, hle⟩ := (hverdict (hcomplete hc)).longest hcompute m hm j hj
    have hrange := Bits.range_mem (wf _ (List.mem_of_getElem? hi)) (mem_ids.1 (hm.subperm.subset hj))
    rw [Ev.id_call] at hrange
    have hmem := (hreported _ seq hseq).2
    rw [Int.toNat_of_nonneg hrange.1] at hmem
    exact ⟨seq, mem_partials.2 ⟨_, hseq⟩, hmem (hm.subperm.subset hj), hle⟩

/-- After the loop with the `select`, and at each receive of the one that waits. -/
theorem Core.leave (wf : ∀ entries ∈ history, WellFormed entries)
    (core : Core model computeInfo history w received s) {timedOut : Bool}
    (hsound : Sound model timeout history (resultOf s.ok timedOut))
    (hkill : computeInfo = true → timedOut = false → s.kill = false)
    (htime : timedOut = true → 0 < timeout) :
    Inv model computeInfo timeout history w received (s.leave computeInfo timedOut) := by
  rw [Parallel.leave]
  split_ifs with h hcompute
  · rw [Bool.and_eq_true, decide_eq_true_iff, core.length] at h
    exact ⟨⟨core.length, core.routines, core.perm, core.count⟩, nofun, h.2, hkill h.1, htime, hsound⟩
  · refine ⟨⟨core.length, core.routines, core.perm, core.count⟩, nofun, hsound, ?_⟩
    rintro parts ⟨⟩
    simp only [hcompute, Bool.true_and, decide_eq_true_iff, not_lt, core.length] at h
    refine core.informative wf h hcompute fun hcomplete => hkill hcompute ?_
    cases timedOut with
    | false => rfl
    | true =>
      have := htime rfl
      cases hok : s.ok <;> simp [resultOf, hok] at hcomplete <;> omega
  · exact ⟨⟨core.length, core.routines, core.perm, core.count⟩, nofun, hsound, nofun⟩

theorem Core.killed (core : Core model computeInfo history w received s) :
    Core model computeInfo history w received { s with kill := true } :=
  ⟨core.length, fun i r entries hr hi => (core.routines i r entries hr hi).killed, core.perm,
    core.count⟩

/-- A result is taken from the channel. -/
theorem Core.receive (core : Core model computeInfo history w received s) {result : Bool}
    {results : List Bool} (hresults : s.results = result :: results) :
    Core model computeInfo history w (received ++ [result])
      { s with results := results, count := s.count + 1 } where
  length := core.length
  routines := core.routines
  perm := by
    have hperm := core.perm
    rwa [hresults, List.append_cons] at hperm
  count := by rw [List.length_append, core.count, List.length_singleton]

/-- What is left to do. -/
def weight (history : List (List (Entry ι ο))) (w : ℕ → ℕ) (s : Parallel ι ο σ) : ℕ :=
  ∑ i ∈ Finset.range history.length, w i + s.results.length +
    match s.main with
    | .selecting => 1
    | _ => 0

theorem weight_leave_le (timedOut : Bool) :
    weight history w (s.leave computeInfo timedOut) ≤
      ∑ i ∈ Finset.range history.length, w i + s.results.length := by
  rw [Parallel.leave]
  split_ifs <;> rfl

theorem weight_of_selecting (hmain : s.main = .selecting) : weight history w s =
    ∑ i ∈ Finset.range history.length, w i + s.results.length + 1 := by
  rw [weight, hmain]

theorem Core.ne_nil (core : Core model computeInfo history w received s) (h : received ≠ []) :
    history ≠ [] := by
  rintro rfl
  have hlen := core.perm.length_eq
  have hle := length_flatMap_sent_le s.routines
  rw [core.length, List.length_nil] at hle
  rw [List.length_append] at hlen
  exact h (List.length_eq_zero_iff.1 (by omega))

theorem Inv.select (wf : ∀ entries ∈ history, WellFormed entries)
    (inv : Inv model computeInfo timeout history w received s) (hmain : s.main = .selecting)
    {result : Bool} {results : List Bool} (hresults : s.results = result :: results) :
    Inv model computeInfo timeout history w (received ++ [result])
      ({ s with results := results }.select computeInfo result) ∧
    weight history w ({ s with results := results }.select computeInfo result) <
      weight history w s := by
  obtain ⟨hlength, hroutines, hperm, hcount⟩ := inv.toCore.receive hresults
  have core : Core model computeInfo history w (received ++ [result])
      { s with results := results, count := s.count + 1, ok := s.ok && result } :=
    ⟨hlength, hroutines, hperm, hcount⟩
  have hok : (s.ok && result) = (received ++ [result]).all id := by
    rw [inv.ok hmain, List.all_append, List.all_cons, List.all_nil, Bool.and_true, id]
  have hmainOk := inv.main
  rw [hmain] at hmainOk
  have hne : history ≠ [] := core.ne_nil (by simp)
  have hw : weight history w s =
      ∑ i ∈ Finset.range history.length, w i + (results.length + 1) + 1 := by
    rw [weight_of_selecting hmain, hresults, List.length_cons]
  rw [Parallel.select]
  split_ifs with hillegal hall
  · -- a false result, and nothing else to find out
    rw [Bool.and_eq_true, Bool.not_eq_true', Bool.not_eq_true'] at hillegal
    refine ⟨core.killed.leave wf ?_ ?_ nofun, (weight_leave_le _).trans_lt ?_⟩
    · have := core.sound timeout hmainOk.1 hne (.inr (hok ▸ hillegal.1))
      rwa [← hok] at this
    · rw [hillegal.2]
      nofun
    · rw [hw]
      simp only
      omega
  · -- the last result
    refine ⟨core.leave wf ?_ (fun _ _ => hmainOk.1) nofun, (weight_leave_le _).trans_lt ?_⟩
    · have := core.sound timeout hmainOk.1 hne (.inl (hlength ▸ hall))
      rwa [← hok] at this
    · rw [hw]
      simp only
      omega
  · refine ⟨⟨core, fun _ => hok, ?_⟩, ?_⟩
    · rw [hmain]
      exact ⟨hmainOk.1, .inl (by rw [← inv.length]; exact not_le.1 hall)⟩
    · rw [hw]
      refine (weight_of_selecting ?_).trans_lt ?_
      · exact hmain
      · simp only
        omega

/-- A step of a goroutine. -/
theorem Inv.routine (wf : ∀ entries ∈ history, WellFormed entries) (hcong : model.Congruent)
    (inv : Inv model computeInfo timeout history w received s) {i : ℕ} {r : Routine ι ο σ}
    (hr : s.routines[i]? = some r) {r' : Routine ι ο σ} {sent : List Bool}
    (hstep : r.step model computeInfo s.kill = some (r', sent)) :
    ∃ w', Inv model computeInfo timeout history w' received
        { s with routines := s.routines.set i r', results := s.results ++ sent } ∧
      weight history w' { s with routines := s.routines.set i r', results := s.results ++ sent } <
        weight history w s := by
  obtain ⟨entries, hi⟩ := inv.get hr
  have hok := inv.routines i r entries hr hi
  have hnil : r.sent = [] := by
    by_contra h
    rw [Routine.step_of_sent h] at hstep
    cases hstep
  obtain ⟨r'', sent', v, hstep', hok', hsent, hlt⟩ :=
    hok.step (wf _ (List.mem_of_getElem? hi)) hcong hnil
  rw [hstep, Option.some.injEq, Prod.mk.injEq] at hstep'
  obtain ⟨rfl, rfl⟩ := hstep'
  refine ⟨Function.update w i v, ⟨⟨?_, ?_, ?_, inv.count⟩, inv.ok, inv.main⟩, ?_⟩
  · rw [List.length_set, inv.length]
  · intro j q entries' hq hj
    by_cases hij : i = j
    · subst hij
      rw [List.getElem?_set_self (List.getElem?_eq_some_iff.1 hr).1, Option.some.injEq] at hq
      rw [hi, Option.some.injEq] at hj
      rw [← hq, ← hj, Function.update_self]
      exact hok'
    · rw [List.getElem?_set_ne hij] at hq
      rw [Function.update_of_ne (Ne.symm hij)]
      exact inv.routines j q entries' hq hj
  · have h := perm_flatMap_set (f := Routine.sent) hr (hsent.trans (by rw [hnil, List.nil_append]))
    exact h.trans (by rw [← List.append_assoc]; exact inv.perm.append_right _)
  · have hmem : i ∈ Finset.range history.length :=
      Finset.mem_range.2 (List.getElem?_eq_some_iff.1 hi).1
    have hsum := Finset.sum_eq_add_sum_sdiff_singleton_of_mem hmem w
    rw [weight, weight, Finset.sum_update_of_mem hmem, List.length_append]
    simp only
    omega

/-- **One step** of the system. -/
theorem Inv.step (wf : ∀ entries ∈ history, WellFormed entries) (hcong : model.Congruent)
    (inv : Inv model computeInfo timeout history w received s) {a : ParallelAction}
    {s' : Parallel ι ο σ} (hstep : s.step model computeInfo timeout a = some s') :
    ∃ w' received', Inv model computeInfo timeout history w' received' s' ∧
      weight history w' s' < weight history w s := by
  cases a with
  | routine i =>
    simp only [Parallel.step, Option.bind_eq_bind, Option.bind_eq_some_iff, Option.pure_def,
      Option.some.injEq, Prod.exists] at hstep
    obtain ⟨r, hr, r', sent, hrstep, rfl⟩ := hstep
    obtain ⟨w', h⟩ := inv.routine wf hcong hr hrstep
    exact ⟨w', received, h⟩
  | receive =>
    rw [Parallel.step] at hstep
    split at hstep
    · rename_i result results hmain hresults
      cases hstep
      exact ⟨w, _, inv.select wf hmain hresults⟩
    · rename_i timedOut result results hmain hresults
      cases hstep
      have hmainOk := inv.main
      rw [hmain] at hmainOk
      obtain ⟨hcount, hkill, htime, hsound⟩ := hmainOk
      refine ⟨w, _, (inv.toCore.receive hresults).leave wf hsound (fun _ => hkill) htime,
        (weight_leave_le _).trans_lt ?_⟩
      rw [weight, hresults, hmain, List.length_cons]
      simp only
      omega
    · cases hstep
  | timeout =>
    rw [Parallel.step] at hstep
    split at hstep
    · rename_i hmain
      split_ifs at hstep with htime
      cases hstep
      refine ⟨w, received, inv.toCore.killed.leave wf ?_ nofun fun _ => htime,
        (weight_leave_le _).trans_lt ?_⟩
      · have hmainOk := inv.main
        rw [hmain] at hmainOk
        simp only [inv.ok hmain]
        cases hok : received.all id with
        | true => exact ⟨nofun, nofun, fun _ => htime⟩
        | false =>
          have hne := inv.ne_nil (by rintro rfl; cases hok)
          have := inv.sound timeout hmainOk.1 hne (.inr hok)
          rwa [hok] at this
      · rw [weight_of_selecting hmain]
        simp only
        omega
    · cases hstep

/-- The steps that a goroutine takes at most, with the receive of its result. -/
def bound (history : List (List (Entry ι ο))) : ℕ :=
  (history.map fun entries => cost entries.length + 4).sum + 1

theorem sum_range_getElem? {α : Type*} (f : α → ℕ) (l : List α) :
    ∑ i ∈ Finset.range l.length, (l[i]?.map f).getD 0 = (l.map f).sum := by
  induction l with
  | nil => rfl
  | cons a l ih =>
    rw [List.length_cons, Finset.sum_range_succ', List.map_cons, List.sum_cons, ← ih, Nat.add_comm]
    rfl

theorem start_inv (model : FullModel ι ο σ) (computeInfo : Bool) (timeout : ℤ)
    (history : List (List (Entry ι ο))) :
    ∃ w, Inv model computeInfo timeout history w [] (start history) ∧
      weight history w (start history : Parallel ι ο σ) = bound history := by
  refine ⟨fun i => (history[i]?.map fun entries => cost entries.length + 4).getD 0,
    ⟨⟨by simp [start], fun i r entries hr hi => ?_, ?_, rfl⟩, fun _ => rfl, rfl, ?_⟩, ?_⟩
  · simp only [start, List.getElem?_map, hi, Option.map_some, Option.some.injEq] at hr ⊢
    rw [← hr]
    exact .starting
  · simp [start, Routine.sent]
  · cases history <;> simp [start]
  · rw [weight_of_selecting rfl, sum_range_getElem?]
    rfl

/-- Every run comes to an end. -/
theorem Inv.run (wf : ∀ entries ∈ history, WellFormed entries) (hcong : model.Congruent)
    (inv : Inv model computeInfo timeout history w received s) {as : List ParallelAction}
    {s' : Parallel ι ο σ}
    (hrun : DistSys.run (Parallel.step model computeInfo timeout) s as = some s') :
    ∃ w' received', Inv model computeInfo timeout history w' received' s' ∧
      as.length + weight history w' s' ≤ weight history w s := by
  induction as generalizing s w received with
  | nil =>
    rw [run_nil, Option.some.injEq] at hrun
    subst hrun
    exact ⟨w, received, inv, by simp⟩
  | cons a as ih =>
    obtain ⟨s₁, hstep, hrun⟩ := run_cons_eq_some.1 hrun
    obtain ⟨w₁, received₁, inv₁, hlt⟩ := inv.step wf hcong hstep
    obtain ⟨w', received', inv', hle⟩ := ih inv₁ hrun
    refine ⟨w', received', inv', ?_⟩
    rw [List.length_cons]
    omega

/-- **No deadlock**: before the end there is an action that can be taken. -/
theorem Inv.enabled (wf : ∀ entries ∈ history, WellFormed entries) (hcong : model.Congruent)
    (inv : Inv model computeInfo timeout history w received s)
    (hne : history ≠ [] ∨ 0 < timeout) (hdone : ∀ result info, s.main ≠ .done result info) :
    ∃ a s', s.step model computeInfo timeout a = some s' := by
  by_cases hall : ∀ r ∈ s.routines, r.sent ≠ []
  · -- all results are sent, and not all received
    have hlen := inv.perm.length_eq
    rw [List.length_append, inv.count] at hlen
    have hsent : s.routines.length ≤ (s.routines.flatMap Routine.sent).length :=
      length_le_flatMap_sent hall
    rw [inv.length] at hsent
    have hmain := inv.main
    cases hm : s.main with
    | done result info => exact absurd hm (hdone result info)
    | selecting =>
      rw [hm] at hmain
      rcases hmain.2 with hlt | rfl
      · obtain ⟨result, results, hresults⟩ :=
          List.exists_cons_of_length_pos (l := s.results) (by omega)
        refine ⟨.receive, { s with results := results }.select computeInfo result, ?_⟩
        rw [Parallel.step, hm, hresults]
      · refine ⟨.timeout, { s with kill := true }.leave computeInfo true, ?_⟩
        rw [Parallel.step, hm]
        exact if_pos (hne.resolve_left (by simp))
    | waiting timedOut =>
      rw [hm] at hmain
      have hlt := hmain.1
      obtain ⟨result, results, hresults⟩ :=
        List.exists_cons_of_length_pos (l := s.results) (by omega)
      refine ⟨.receive,
        { s with results := results, count := s.count + 1 }.leave computeInfo timedOut, ?_⟩
      rw [Parallel.step, hm, hresults]
  · push Not at hall
    obtain ⟨r, hr, hnil⟩ := hall
    obtain ⟨i, hi⟩ := List.mem_iff_getElem?.1 hr
    obtain ⟨entries, hentries⟩ := inv.get hi
    obtain ⟨r', sent, v, hstep, -⟩ := (inv.routines i r entries hi hentries).step
      (wf _ (List.mem_of_getElem? hentries)) hcong hnil
    refine ⟨.routine i, { s with routines := s.routines.set i r', results := s.results ++ sent }, ?_⟩
    rw [Parallel.step, hi, Option.bind_eq_bind, Option.bind_some, hstep]
    rfl

/-- A result can be reached. -/
theorem Inv.exists_done (wf : ∀ entries ∈ history, WellFormed entries) (hcong : model.Congruent)
    (inv : Inv model computeInfo timeout history w received s) (hne : history ≠ [] ∨ 0 < timeout) :
    ∃ as s' result info, DistSys.run (Parallel.step model computeInfo timeout) s as = some s' ∧
      s'.main = .done result info := by
  generalize hn : weight history w s = n
  induction n using Nat.strong_induction_on generalizing s w received with
  | _ n ih =>
    by_cases hdone : ∀ result info, s.main ≠ .done result info
    · obtain ⟨a, s₁, hstep⟩ := inv.enabled wf hcong hne hdone
      obtain ⟨w₁, received₁, inv₁, hlt⟩ := inv.step wf hcong hstep
      obtain ⟨as, s', result, info, hrun, hmain⟩ := ih _ (hn ▸ hlt) inv₁ rfl
      exact ⟨a :: as, s', result, info, run_cons_eq_some.2 ⟨s₁, hstep, hrun⟩, hmain⟩
    · push Not at hdone
      obtain ⟨result, info, hmain⟩ := hdone
      exact ⟨[], s, result, info, rfl, hmain⟩

/-- A run from the start. -/
theorem run_inv (wf : ∀ entries ∈ history, WellFormed entries) (hcong : model.Congruent)
    {as : List ParallelAction}
    (hrun : DistSys.run (Parallel.step model computeInfo timeout) (start history) as = some s) :
    (∃ w received, Inv model computeInfo timeout history w received s) ∧
      as.length ≤ bound history := by
  obtain ⟨w, inv, hw⟩ := start_inv model computeInfo timeout history
  obtain ⟨w', received, inv', hle⟩ := inv.run wf hcong hrun
  exact ⟨⟨w', received, inv'⟩, by omega⟩

end Parallel

/-- **The result of `checkParallel`**, in any order of the actions. Every run comes to an end, and
it ends with a result if there is a partition or a timeout. `Ok` is returned only if all partitions
are linearizable, `Illegal` only if one is not, and `Unknown` only if there is a timeout. -/
theorem checkParallel_sound {model : FullModel ι ο σ} {computeInfo : Bool} {timeout : ℤ}
    {history : List (List (Entry ι ο))} (wf : ∀ entries ∈ history, WellFormed entries)
    (hcong : model.Congruent) {as : List ParallelAction} {s : Parallel ι ο σ}
    (hrun : run (Parallel.step model computeInfo timeout) (.start history) as = some s) :
    as.length ≤ Parallel.bound history ∧
    (∀ result info, s.main = .done result info → Parallel.Sound model timeout history result) ∧
    (history ≠ [] ∨ 0 < timeout → (∀ a, s.step model computeInfo timeout a = none) →
      ∃ result info, s.main = .done result info) := by
  obtain ⟨⟨w, received, inv⟩, hle⟩ := Parallel.run_inv wf hcong hrun
  refine ⟨hle, fun result info hmain => ?_, fun hne hstuck => ?_⟩
  · have h := inv.main
    rw [hmain] at h
    exact h.1
  · by_contra hdone
    push Not at hdone
    obtain ⟨a, s', hstep⟩ := inv.enabled wf hcong hne hdone
    rw [hstuck a] at hstep
    cases hstep

/-- **The partial linearizations** that `checkParallel` returns are those of the partitions; and
after `Ok` or without a timeout, each operation of a partial linearization is in one that is at
least as long. -/
theorem checkParallel_informative {model : FullModel ι ο σ} {computeInfo : Bool} {timeout : ℤ}
    {history : List (List (Entry ι ο))} (wf : ∀ entries ∈ history, WellFormed entries)
    (hcong : model.Congruent) {as : List ParallelAction} {s : Parallel ι ο σ}
    (hrun : run (Parallel.step model computeInfo timeout) (.start history) as = some s)
    {result : CheckResult} {parts : List (List (List ℤ))}
    (hmain : s.main = .done result (some parts)) :
    List.Forall₂ (fun entries p =>
      Parallel.Informative model entries (result = .ok ∨ timeout ≤ 0) p) history parts := by
  obtain ⟨⟨w, received, inv⟩, -⟩ := Parallel.run_inv wf hcong hrun
  have h := inv.main
  rw [hmain] at h
  exact h.2 parts rfl

/-- Two partitions of two overlapping operations each: in the first the second operation takes
effect before the first one, and in the second one operation has a wrong output. -/
theorem checkParallel_informative_twoPartitions :
    let model : Model ℕ ℕ ℕ := { init := 0, step := fun s x y => (y = s, x) }
    let first := makeEntries (insertionByTime ℕ ℕ) [⟨0, 1, 0, 2, 10⟩, ⟨1, 2, 5, 0, 15⟩]
    let second := makeEntries (insertionByTime ℕ ℕ) [⟨2, 3, 1, 0, 11⟩, ⟨3, 4, 6, 9, 16⟩]
    List.Forall₂ (fun entries p => Parallel.Informative (fillDefault model) entries
      (CheckResult.illegal = .ok ∨ (0 : ℤ) ≤ 0) p) [first, second] [[[1, 0]], [[0]]] := by
  intro model first second
  obtain ⟨s, hrun, hmain⟩ : ∃ s, run (Parallel.step (fillDefault model) true 0)
      (.start [first, second])
      ([.routine 0, .routine 1, .routine 1, .routine 0] ++ List.replicate 5 (.routine 1) ++
        List.replicate 4 (.routine 0) ++ [.receive, .receive]) = some s ∧
        s.main = .done .illegal (some [[[1, 0]], [[0]]]) := by decide +kernel
  have wf : ∀ entries ∈ [first, second], WellFormed entries := by
    simp only [List.forall_mem_cons, List.not_mem_nil, false_imp_iff, implies_true, and_true]
    exact ⟨wellFormed_makeEntries _ (by decide), wellFormed_makeEntries _ (by decide)⟩
  exact checkParallel_informative wf (fillDefault_congruent rfl) hrun hmain

end DistSys.Porcupine
