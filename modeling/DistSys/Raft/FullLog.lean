import DistSys.Raft.Steps

/-!
# The full log behind a compacted one

`Backs L blind rf`: the log of `rf` is the part of `L` above `lastIncludedIndex`, below a
placeholder. The placeholder shows the term of the last compacted entry, except on a *blind* server:
when `InstallSnapshot` empties the log it puts the term of the server's own previous snapshot there,
which is too small.

For each handler that changes the log, what becomes of `L`: `Start` appends to it
(`Backs.appendCommand`), compaction leaves it alone (`Backs.compact`), and accepted entries and
snapshots replace it by `adopt L P`, where `P` is the segment of the leader's log that the request
stands for (`Backs.merged`, `Backs.installed`).
-/

namespace DistSys

open Raft

variable {n : ℕ} {C : Type} [Inhabited C]

/-- `L` is the full log behind the compacted log of `rf`. -/
structure Backs (L : List (LogEntry C)) (blind : Prop) (rf : Raft n C) : Prop where
  base_le : rf.lastIncludedIndex ≤ L.length
  log : ∃ hd, rf.log = hd :: L.drop rf.lastIncludedIndex ∧
    (¬ blind → hd.term = termAt L rf.lastIncludedIndex) ∧
    (blind → L.length = rf.lastIncludedIndex ∧ hd.term < termAt L rf.lastIncludedIndex)
  base_term : rf.lastIncludedTerm = termAt L rf.lastIncludedIndex

/-- The last term that a log shows. -/
def Raft.lastShown (rf : Raft n C) : ℤ := (rf.log.getLast?.map LogEntry.term).getD 0

namespace Backs

variable {L : List (LogEntry C)} {blind : Prop} {rf rf' : Raft n C}

theorem of_sameLog (h : Backs L blind rf) (hs : SameLog rf rf') : Backs L blind rf' := by
  refine ⟨?_, ?_, ?_⟩
  · rw [hs.lastIncludedIndex]
    exact h.base_le
  · rw [hs.lastIncludedIndex, hs.log]
    exact h.log
  · rw [hs.lastIncludedIndex, hs.lastIncludedTerm]
    exact h.base_term

theorem length (h : Backs L blind rf) : rf.log.length = L.length - rf.lastIncludedIndex + 1 := by
  obtain ⟨hd, hlog, -⟩ := h.log
  rw [hlog, List.length_cons, List.length_drop]

theorem lastLogIdx_eq (h : Backs L blind rf) : rf.lastLogIdx = L.length := by
  have := h.base_le
  rw [lastLogIdx, virtualLogIdx, h.length]
  omega

theorem virtualLogIdx_eq (h : Backs L blind rf) :
    rf.virtualLogIdx rf.log.length = L.length + 1 := by
  have := h.base_le
  rw [virtualLogIdx, h.length]
  omega

theorem logAt_eq (h : Backs L blind rf) {i : ℕ} (hi : rf.lastIncludedIndex ≤ i) :
    rf.logAt (i + 1) = L[i]? := by
  obtain ⟨hd, hlog, -⟩ := h.log
  rw [logAt_of_le (by omega), hlog, show i + 1 - rf.lastIncludedIndex =
    i - rf.lastIncludedIndex + 1 by omega, List.getElem?_cons_succ, List.getElem?_drop]
  congr 1
  omega

/-- What a log shows at an index is the term there, unless it shows a wrong placeholder. -/
theorem shown_eq (h : Backs L blind rf) {v : ℕ} {e : LogEntry C} (he : rf.logAt v = some e) :
    rf.lastIncludedIndex ≤ v ∧ v ≤ L.length ∧
      (e.term = termAt L v ∨ (blind ∧ v = rf.lastIncludedIndex ∧ e.term < termAt L v)) := by
  obtain ⟨hle, hat⟩ := logAt_eq_some.1 he
  have hlt := (List.getElem?_eq_some_iff.1 hat).1
  rw [h.length] at hlt
  have hbase := h.base_le
  refine ⟨hle, by omega, ?_⟩
  rcases hle.lt_or_eq with hv | rfl
  · obtain ⟨i, rfl⟩ : ∃ i, v = i + 1 := ⟨v - 1, by omega⟩
    rw [h.logAt_eq (by omega)] at he
    exact Or.inl (termAt_of_getElem? he).symm
  · obtain ⟨hd, hlog, hsee, hblind⟩ := h.log
    rw [Nat.sub_self, hlog] at hat
    cases hat
    by_cases hb : blind
    · exact Or.inr ⟨hb, rfl, (hblind hb).2⟩
    · exact Or.inl (hsee hb)

/-- The last term shown is the last term of the full log, or a smaller one on a blind server. -/
theorem lastShown_eq (h : Backs L blind rf) :
    (¬ blind → rf.lastShown = lastTerm L) ∧ (blind → rf.lastShown < lastTerm L) := by
  obtain ⟨hd, hlog, hsee, hblind⟩ := h.log
  have hbase := h.base_le
  rcases hbase.lt_or_eq with hlt | heq
  · have hne : L.drop rf.lastIncludedIndex ≠ [] := by
      rw [ne_eq, List.drop_eq_nil_iff]
      omega
    have hlast : rf.log.getLast? = L[L.length - 1]? := by
      rw [hlog, List.getLast?_cons_of_ne_nil hne, List.getLast?_drop, if_neg (by omega),
        List.getLast?_eq_getElem?]
    have hget := List.getElem?_eq_getElem (show L.length - 1 < L.length by omega)
    have hterm : rf.lastShown = lastTerm L := by
      have ht := termAt_of_getElem? hget
      rw [show L.length - 1 + 1 = L.length by omega] at ht
      rw [lastShown, hlast, hget, lastTerm, ht]
      rfl
    exact ⟨fun _ => hterm, fun hb => by have := (hblind hb).1; omega⟩
  · have hnil : L.drop rf.lastIncludedIndex = [] := by
      rw [List.drop_eq_nil_iff]
      omega
    have hterm : rf.lastShown = hd.term := by rw [lastShown, hlog, hnil]; rfl
    rw [hterm, lastTerm, ← heq]
    exact ⟨hsee, fun hb => (hblind hb).2⟩

theorem length_of_blind (h : Backs L blind rf) (hb : blind) : L.length = rf.lastIncludedIndex := by
  obtain ⟨hd, -, -, hblind⟩ := h.log
  exact (hblind hb).1

theorem shown_of_blind (h : Backs L blind rf) (hb : blind) {v : ℕ} {e : LogEntry C}
    (he : rf.logAt v = some e) : v = rf.lastIncludedIndex ∧ e.term < termAt L v := by
  obtain ⟨hle, hlen, -⟩ := h.shown_eq he
  obtain ⟨hd, hlog, -, hblind⟩ := h.log
  obtain rfl : v = rf.lastIncludedIndex := by
    have := (hblind hb).1
    omega
  rw [logAt_of_le le_rfl, Nat.sub_self, hlog] at he
  cases he
  exact ⟨rfl, (hblind hb).2⟩

/-- The log from position `k` on. -/
theorem drop (h : Backs L blind rf) {k : ℕ} {e : LogEntry C} (hk : rf.log[k]? = some e) :
    rf.log.drop k = e :: L.drop (rf.lastIncludedIndex + k) := by
  obtain ⟨hlt, he⟩ := List.getElem?_eq_some_iff.1 hk
  obtain ⟨hd, hlog, -⟩ := h.log
  have hrest : rf.log.drop (k + 1) = L.drop (rf.lastIncludedIndex + k) := by
    rw [hlog, List.drop_succ_cons, List.drop_drop]
  rw [List.drop_eq_getElem_cons hlt, he, hrest]

/-! ## `Start` and `Snapshot` -/

theorem appendCommand (h : Backs L blind rf) (hb : ¬ blind) (command : C) :
    Backs (L ++ [⟨rf.currentTerm, command⟩]) blind (rf.appendCommand command) := by
  have hbase := h.base_le
  obtain ⟨hd, hlog, hsee, -⟩ := h.log
  have hterm := termAt_of_isPrefix (List.prefix_append L [⟨rf.currentTerm, command⟩]) hbase
  refine ⟨?_, ⟨hd, ?_, fun _ => (hsee hb).trans hterm, fun hb' => absurd hb' hb⟩,
    h.base_term.trans hterm⟩
  · rw [List.length_append]
    exact hbase.trans (Nat.le_add_right _ _)
  · show rf.log ++ [_] = hd :: List.drop rf.lastIncludedIndex _
    rw [List.drop_append_of_le_length hbase, hlog]
    rfl

theorem compact (h : Backs L blind rf) {index : ℕ} (hlt : rf.lastIncludedIndex < index)
    {e : LogEntry C} (he : rf.logAt index = some e) (data : Data) :
    Backs L blind (rf.compact index e.term data) ∧
      (rf.compact index e.term data).lastShown = rf.lastShown := by
  obtain ⟨hle, hlen, hterm⟩ := h.shown_eq he
  have hb : ¬ blind := fun hb => by
    have := h.length_of_blind hb
    omega
  have hterm : e.term = termAt L index := hterm.resolve_right fun hb' => hb hb'.1
  have hbacks : Backs L blind (rf.compact index e.term data) := by
    refine ⟨hlen, ⟨e, ?_, fun _ => hterm, fun hb' => absurd hb' hb⟩, hterm⟩
    show rf.log.drop (index - rf.lastIncludedIndex) = e :: L.drop index
    rw [h.drop (logAt_eq_some.1 he).2, Nat.add_sub_cancel' hle]
  exact ⟨hbacks, by rw [hbacks.lastShown_eq.1 hb, h.lastShown_eq.1 hb]⟩

end Backs

/-! ## Accepted entries and snapshots -/

/-- Equal terms at an index mean equal logs up to it. -/
def LogsMatch (A L : List (LogEntry C)) : Prop :=
  ∀ i, i ≤ A.length → i ≤ L.length → termAt A i = termAt L i → A.take i = L.take i

namespace Backs

variable {A L : List (LogEntry C)} {blind : Prop} {rf : Raft n C}

omit [Inhabited C] in
theorem isPrefix_adopt_self {X A L : List (LogEntry C)} (hA : X <+: A) (hL : X <+: L) :
    X <+: adopt A L := by
  have h := isPrefix_adopt_of_isPrefix (k := L.length) hA hL
  rwa [List.take_length] at h

/-- Where the terms of the new entries agree with the log, the full logs agree. -/
theorem term_of_agree (h : Backs A blind rf) {args : AppendEntriesArgs n C}
    (hbase : rf.lastIncludedIndex ≤ args.prevLogIndex) (hle : args.prevLogIndex ≤ A.length)
    (hterm : termAt A args.prevLogIndex = termAt L args.prevLogIndex) {j : ℕ}
    (hj : args.prevLogIndex + j ≤ L.length)
    (hag : AgreeUpTo rf.log (rf.insertAt args) (L.drop args.prevLogIndex) j) :
    args.prevLogIndex + j ≤ A.length ∧
      termAt A (args.prevLogIndex + j) = termAt L (args.prevLogIndex + j) := by
  cases j with
  | zero => exact ⟨hle, hterm⟩
  | succ j =>
    have hL := List.getElem?_eq_getElem (show args.prevLogIndex + j < L.length by omega)
    obtain ⟨e', he', hterm'⟩ := hag j _ (Nat.lt_succ_self j) (by rw [List.getElem?_drop, hL])
    have hA : A[args.prevLogIndex + j]? = some e' := by
      rw [← h.logAt_eq (by omega), logAt_of_le (by omega), ← he', insertAt]
      congr 1
      omega
    refine ⟨(List.getElem?_eq_some_iff.1 hA).1, ?_⟩
    rw [← Nat.add_assoc, termAt_of_getElem? hA, termAt_of_getElem? hL]
    exact hterm'

/-- **An accepted `AppendEntries` request adopts the leader's segment.** -/
theorem merged (h : Backs A blind rf) (hb : ¬ blind) (hm : LogsMatch A L)
    {args : AppendEntriesArgs n C} {prev : LogEntry C}
    (hat : rf.logAt args.prevLogIndex = some prev)
    (hprev : prev.term = termAt L args.prevLogIndex) (hlen : args.prevLogIndex ≤ L.length)
    (hent : args.entries = L.drop args.prevLogIndex) :
    Backs (adopt A L) False { rf with log := rf.mergedLog args } := by
  obtain ⟨hbase, hle, hshown⟩ := h.shown_eq hat
  have hterm : termAt A args.prevLogIndex = termAt L args.prevLogIndex := by
    rw [← hprev]
    exact (hshown.resolve_right fun hb' => hb hb'.1).symm
  have htake := hm _ hle hlen hterm
  have hpre : A.take args.prevLogIndex <+: adopt A L :=
    isPrefix_adopt_self (List.take_prefix _ _) (htake ▸ List.take_prefix _ _)
  have hlenA : (A.take args.prevLogIndex).length = args.prevLogIndex := by
    rw [List.length_take, Nat.min_eq_left hle]
  have hbaseTerm : termAt A rf.lastIncludedIndex = termAt (adopt A L) rf.lastIncludedIndex := by
    rw [← termAt_of_isPrefix hpre (by omega), termAt_take hbase]
  obtain ⟨hd, hlog, hsee, -⟩ := h.log
  refine ⟨?_, ⟨hd, ?_, fun _ => (hsee hb).trans hbaseTerm, nofun⟩, h.base_term.trans hbaseTerm⟩
  · exact hbase.trans (hlenA ▸ hpre.length_le)
  have hr : rf.insertAt args ≤ rf.log.length :=
    (List.getElem?_eq_some_iff.1 (logAt_eq_some.1 hat).2).1
  show rf.mergedLog args = hd :: (adopt A L).drop rf.lastIncludedIndex
  rw [mergedLog, hent]
  rcases mergeEntries_cases hr (L.drop args.prevLogIndex) with ⟨heq, hag⟩ |
    ⟨j, hj, hjlen, hag, hne, heq⟩
  · -- all entries are there already
    rw [List.length_drop] at hag
    have hfull := h.term_of_agree hbase hle hterm (by omega) hag
    rw [Nat.add_sub_cancel' hlen] at hfull
    have hLA : L <+: A := by
      have := hm _ hfull.1 le_rfl hfull.2
      rw [List.take_length] at this
      exact this ▸ List.take_prefix _ _
    rw [heq, adopt_of_isPrefix hLA, hlog]
  · -- the log is cut at the first difference and continues as the leader's
    rw [List.length_drop] at hj
    have hcut := h.term_of_agree hbase hle hterm (by omega) hag
    have htake' := hm _ hcut.1 (by omega) hcut.2
    have hLA : ¬ L <+: A := fun hLA => by
      have hL := List.getElem?_eq_getElem (show args.prevLogIndex + j < L.length by omega)
      refine hne _ _ (by rw [List.getElem?_drop, hL]) ?_ rfl
      obtain ⟨X, rfl⟩ := hLA
      have := h.logAt_eq (i := args.prevLogIndex + j) (by omega)
      rw [List.getElem?_append_left (by omega), hL, logAt_of_le (by omega)] at this
      rw [← this, insertAt]
      congr 1
      omega
    have hrj : rf.insertAt args + j =
        args.prevLogIndex + j - rf.lastIncludedIndex + 1 := by
      rw [insertAt]
      omega
    have hlenL : rf.lastIncludedIndex ≤ (L.take (args.prevLogIndex + j)).length := by
      rw [List.length_take]
      omega
    rw [heq, adopt_of_not_isPrefix hLA, hrj, hlog, List.take_succ_cons, ← List.drop_take, htake',
      List.drop_drop, List.cons_append, ← List.drop_append_of_le_length hlenL,
      List.take_append_drop]

section installed

variable {args : InstallSnapshotArgs n C}

/-- The snapshot's last entry is in the log, so the whole segment is, and what follows it stays. -/
theorem installed_of_found (h : Backs A blind rf) (hm : LogsMatch A L)
    (hle : rf.lastIncludedIndex ≤ args.lastIncludedIndex)
    (hlen : L.length = args.lastIncludedIndex)
    (hterm : args.lastIncludedTerm = termAt L args.lastIncludedIndex)
    (hbase : termAt A rf.lastIncludedIndex = termAt L rf.lastIncludedIndex) {k : ℕ} {e : LogEntry C}
    (hk : rf.log[k]? = some e) (he : e.term = args.lastIncludedTerm)
    (hi : rf.lastIncludedIndex + k = args.lastIncludedIndex)
    (heq : rf.installedLog args = rf.log.drop k) :
    L <+: A ∧ Backs A False (rf.install args) := by
  have hat : rf.logAt args.lastIncludedIndex = some e := by
    rw [logAt_of_le hle, ← hk]
    congr 1
    omega
  obtain ⟨-, hleA, hshown⟩ := h.shown_eq hat
  have hAL : termAt A args.lastIncludedIndex = termAt L args.lastIncludedIndex := by
    rcases hshown with hshown | ⟨-, hib, hlt⟩
    · rw [← hshown, he, hterm]
    · rw [hib] at hlt
      rw [he, hterm, hib, hbase] at hlt
      exact absurd hlt (lt_irrefl _)
  have hLA : L <+: A := by
    have htake := hm _ hleA hlen.ge hAL
    rw [← hlen, List.take_length] at htake
    exact htake ▸ List.take_prefix _ _
  refine ⟨hLA, hleA, ⟨e, ?_, fun _ => ?_, nofun⟩, ?_⟩
  · show rf.installedLog args = e :: A.drop args.lastIncludedIndex
    rw [heq, h.drop hk, hi]
  · show e.term = termAt A args.lastIncludedIndex
    rw [hAL, ← hterm, he]
  · show args.lastIncludedTerm = termAt A args.lastIncludedIndex
    rw [hAL, hterm]

/-- A snapshot past the boundary whose last entry is not found is not in the log. -/
theorem not_isPrefix_of_missing (h : Backs A blind rf) (hlen : L.length = args.lastIncludedIndex)
    (hterm : args.lastIncludedTerm = termAt L args.lastIncludedIndex)
    (hnone : ∀ k e, rf.log[k]? = some e → rf.lastIncludedIndex + k = args.lastIncludedIndex →
      e.term ≠ args.lastIncludedTerm)
    (hlt : rf.lastIncludedIndex < args.lastIncludedIndex) : ¬ L <+: A := by
  intro hLA
  have hL := List.getElem?_eq_getElem (show args.lastIncludedIndex - 1 < L.length by omega)
  have hat := h.logAt_eq (i := args.lastIncludedIndex - 1) (by omega)
  obtain ⟨X, rfl⟩ := hLA
  rw [List.getElem?_append_left (by omega), hL, Nat.sub_add_cancel (by omega)] at hat
  have hk := (logAt_eq_some.1 hat).2
  have hlast := termAt_of_getElem? hL
  rw [Nat.sub_add_cancel (by omega)] at hlast
  exact hnone _ _ hk (by omega) (hlast.symm.trans hterm.symm)

/-- Only a blind server does not find the entry at its own boundary, and it has nothing else. -/
theorem eq_of_missing (h : Backs A blind rf) (hlen : L.length = args.lastIncludedIndex)
    (hterm : args.lastIncludedTerm = termAt L args.lastIncludedIndex)
    (hkeep : A.take rf.lastIncludedIndex = L.take rf.lastIncludedIndex)
    (hnone : ∀ k e, rf.log[k]? = some e → rf.lastIncludedIndex + k = args.lastIncludedIndex →
      e.term ≠ args.lastIncludedTerm)
    (heq : rf.lastIncludedIndex = args.lastIncludedIndex) : A = L := by
  have hbase : termAt A rf.lastIncludedIndex = termAt L rf.lastIncludedIndex := by
    rw [← termAt_take le_rfl, hkeep, termAt_take le_rfl]
  have hb : blind := by
    by_contra hb
    obtain ⟨hd, hlog, hsee, -⟩ := h.log
    refine hnone 0 hd (by rw [hlog]; rfl) heq ?_
    rw [hsee hb, hbase, hterm, heq]
  calc
    A = A.take rf.lastIncludedIndex := by rw [← h.length_of_blind hb, List.take_length]
    _ = L := by rw [hkeep, heq, ← hlen, List.take_length]

/-- **An accepted `InstallSnapshot` request adopts the segment up to the snapshot's last entry.** It
leaves the server blind only if its log did not have that segment. -/
theorem installed (h : Backs A blind rf) (hm : LogsMatch A L)
    (hle : rf.lastIncludedIndex ≤ args.lastIncludedIndex)
    (hlen : L.length = args.lastIncludedIndex)
    (hterm : args.lastIncludedTerm = termAt L args.lastIncludedIndex)
    (hkeep : A.take rf.lastIncludedIndex = L.take rf.lastIncludedIndex)
    (hord : termAt L rf.lastIncludedIndex ≤ termAt L args.lastIncludedIndex) :
    ∃ b : Prop, Backs (adopt A L) b (rf.install args) ∧ (b → ¬ L <+: A) := by
  have hbase : termAt A rf.lastIncludedIndex = termAt L rf.lastIncludedIndex := by
    rw [← termAt_take le_rfl, hkeep, termAt_take le_rfl]
  rcases installedLog_cases rf args with ⟨k, e, hk, he, hi, heq⟩ | ⟨hnone, heq⟩
  · obtain ⟨hLA, hbacks⟩ := h.installed_of_found hm hle hlen hterm hbase hk he hi heq
    rw [adopt_of_isPrefix hLA]
    exact ⟨False, hbacks, nofun⟩
  · -- the log is emptied; its placeholder shows the term of the previous snapshot
    have hnot := h.not_isPrefix_of_missing hlen hterm hnone
    have hadopt : adopt A L = L := by
      rcases hle.lt_or_eq with hlt | heq'
      · exact adopt_of_not_isPrefix (hnot hlt)
      · rw [h.eq_of_missing hlen hterm hkeep hnone heq']
        exact adopt_of_isPrefix List.prefix_rfl
    rw [hadopt]
    refine ⟨rf.lastIncludedTerm ≠ termAt L args.lastIncludedIndex,
      ⟨hlen.ge, ⟨⟨rf.lastIncludedTerm, args.lastIncludedCmd⟩, ?_, fun hb => not_not.1 hb,
        fun hb => ⟨hlen, lt_of_le_of_ne ?_ hb⟩⟩, hterm⟩,
      fun hb => hnot (lt_of_le_of_ne hle fun heq' => hb ?_)⟩
    · show rf.installedLog args = _ :: L.drop args.lastIncludedIndex
      rw [heq, ← hlen, List.drop_length]
    · rw [h.base_term, hbase]
      exact hord
    · rw [h.base_term, hbase, heq']

end installed

end Backs

theorem Raft.lastShown_of_getLast? {rf : Raft n C} {last : LogEntry C}
    (hl : rf.log.getLast? = some last) : rf.lastShown = last.term := by
  rw [lastShown, hl]
  rfl

end DistSys
