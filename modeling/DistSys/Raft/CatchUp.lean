import DistSys.Raft.Bounds
import DistSys.Raft.Merge
import DistSys.Raft.Snapshots

/-!
# Catching up a follower

A leader and one follower that exchange messages with nothing lost and nothing else happening
(`round`). A rejection moves `nextIndex` strictly back, at most to `lastIncludedIndex` of the
leader. If that is positive, the next message is a snapshot, and after a second one at the latest
the boundary of the follower's log has the term that the leader has there, so that the next request
passes.

A leader that has never compacted does not send snapshots. If its follower has, the exchange ends
just when the search for a common entry stops at one (`MeetAt`); otherwise `nextIndex` falls to 0
and every request is rejected, for ever (`Apart`).

Main results: `catchUp_terminates`, `Sends.catchesUp_iff`.
-/

namespace DistSys

open Raft

variable {n : ℕ} {C : Type} [Inhabited C]

namespace Raft

variable {leader leader' follower follower' : Raft n C} {i : Fin n} {args : AppendEntriesArgs n C}

/-! ## Rounds -/

/-- The call is an `AppendEntries` that has been accepted. -/
def Rpc.accepted : Rpc n C → Bool
  | .appendEntries _ (some reply) => reply.success
  | _ => false

/-- The leader sends peer `i` what `doLeader` builds for it, the peer handles it, and the leader
handles the reply. -/
def round (i : Fin n) (leader follower : Raft n C) : Option ((Raft n C × Raft n C) × Bool) := do
  let (_, task) ← leader.doLeaderFor i
  let rpc ← task.rpc leader
  let (follower, rpc) ← rpc.handle follower
  let leader ← rpc.finish leader i
  some ((leader, follower), rpc.accepted)

/-- The two servers after `k` rounds. -/
def rounds (i : Fin n) : ℕ → Raft n C → Raft n C → Option (Raft n C × Raft n C)
  | 0, leader, follower => some (leader, follower)
  | k + 1, leader, follower => do
    let ((leader, follower), _) ← round i leader follower
    rounds i k leader follower

/-- After finitely many rounds one succeeds, and the leader knows then that the follower has its
whole log. -/
def CatchesUp (i : Fin n) (leader follower : Raft n C) : Prop :=
  ∃ k leader₁ follower₁ leader₂ follower₂,
    rounds i k leader follower = some (leader₁, follower₁) ∧
    round i leader₁ follower₁ = some ((leader₂, follower₂), true) ∧
    leader₂.matchIndex i = leader₂.lastLogIdx ∧ leader₂.log = leader.log ∧
    leader₂.lastIncludedIndex = leader.lastIncludedIndex

/-- The two logs have the same term at `j`, and the leader's log has only later terms above, up to
where its next request starts. -/
structure MeetAt (i : Fin n) (leader follower : Raft n C) (j : ℕ) : Prop where
  le : j ≤ leader.nextIndex i - 1
  same : ∃ e e', leader.logAt j = some e ∧ follower.logAt j = some e' ∧ e'.term = e.term
  later : ∀ v, j < v → v ≤ leader.nextIndex i - 1 → ∀ e f, leader.logAt j = some e →
    leader.logAt v = some f → e.term < f.term

theorem rounds_succ {b : Bool} (h : round i leader follower = some ((leader', follower'), b))
    (k : ℕ) : rounds i (k + 1) leader follower = rounds i k leader' follower' := by
  rw [rounds, h]
  rfl

theorem CatchesUp.of_round {b : Bool}
    (h : round i leader follower = some ((leader', follower'), b))
    (hlog : leader'.log = leader.log)
    (hbase : leader'.lastIncludedIndex = leader.lastIncludedIndex)
    (hup : CatchesUp i leader' follower') : CatchesUp i leader follower := by
  obtain ⟨k, leader₁, follower₁, leader₂, follower₂, hk, hround, hmatch, hlog', hbase'⟩ := hup
  exact ⟨k + 1, leader₁, follower₁, leader₂, follower₂, (rounds_succ h k).trans hk, hround, hmatch,
    hlog'.trans hlog, hbase'.trans hbase⟩

/-! ## One round -/

/-- What the exchange needs of a leader. -/
structure Sends (i : Fin n) (leader : Raft n C) : Prop where
  state : leader.state = .leader
  term_pos : 0 < leader.currentTerm
  boundary : leader.Boundary
  commit_base : leader.lastIncludedIndex ≤ leader.commitIndex
  next_le : leader.nextIndex i ≤ leader.lastLogIdx + 1

theorem Boundary.log_ne_nil (h : leader.Boundary) : leader.log ≠ [] := by
  obtain ⟨e, he, -⟩ := h
  rintro hnil
  rw [hnil] at he
  cases he

theorem Sends.withNext (h : Sends i leader) {next : ℕ} (hnext : next ≤ leader.lastLogIdx + 1) :
    Sends i (leader.withNext i next) :=
  { h with next_le := by rwa [withNext_nextIndex] }

/-- What a leader sends from its log: all that follows `nextIndex - 1`. -/
structure Request (i : Fin n) (leader : Raft n C) (args : AppendEntriesArgs n C) : Prop where
  sends : leader.doLeaderFor i = some (i, .sendAppendEntries args)
  term : args.term = leader.currentTerm
  prevLogIndex : args.prevLogIndex = leader.nextIndex i - 1
  prevLogTerm : ∃ prev, leader.logAt (leader.nextIndex i - 1) = some prev ∧
    args.prevLogTerm = prev.term
  last : args.prevLogIndex + args.entries.length = leader.lastLogIdx

theorem Sends.request (h : Sends i leader)
    (hbase : leader.lastIncludedIndex ≤ leader.nextIndex i - 1) :
    ∃ args, Request i leader args := by
  have hne := h.boundary.log_ne_nil
  have hpos := List.length_pos_iff.2 hne
  have hnext := h.next_le
  obtain ⟨task, htask, hsnapshot⟩ := exists_doLeaderFor hne hnext
  obtain ⟨-, rfl | ⟨prev, hprev, rfl⟩⟩ := doLeaderFor_eq_some htask
  · exact absurd (hsnapshot.1 rfl) (Nat.not_lt.2 hbase)
  · refine ⟨_, htask, rfl, rfl, ⟨prev, hprev, rfl⟩, ?_⟩
    simp only [List.length_drop, lastLogIdx, virtualLogIdx] at hnext ⊢
    omega

/-- A request that passes ends the exchange. -/
theorem CatchesUp.of_passes (h : Sends i leader) (hreq : Request i leader args)
    (hpass : follower.Passes args) : CatchesUp i leader follower := by
  have hne : (leader.recordMatch i (args.prevLogIndex + args.entries.length)).log ≠ [] :=
    h.boundary.log_ne_nil
  obtain ⟨leader', hleader⟩ :=
    Option.ne_none_iff_exists'.1 (advanceCommit_ne_none hne h.commit_base le_rfl)
  have hsend : leader.sendAppendEntries i args ⟨follower.currentTerm, true⟩ = some leader' := by
    rw [sendAppendEntries, if_neg (by simp), if_neg (by rw [hreq.term]; exact lt_irrefl _),
      if_neg (by simp)]
    exact hleader
  refine ⟨0, leader, follower, leader', follower.accepted args, rfl, ?_, ?_⟩
  · rw [round, hreq.sends]
    simp only [Option.bind_eq_bind, Option.bind_some, Task.rpc, Rpc.handle,
      appendEntries_of_passes hpass, Option.map_some, Rpc.finish, hsend, Rpc.accepted]
  · rcases advanceCommit_cases hleader with rfl | ⟨N, -, -, rfl, -⟩
    · exact ⟨(Function.update_self ..).trans hreq.last, rfl, rfl⟩
    · obtain ⟨ch, hch, -⟩ := signal_eq
        { leader.recordMatch i (args.prevLogIndex + args.entries.length) with commitIndex := N }
      rw [hch]
      exact ⟨(Function.update_self ..).trans hreq.last, rfl, rfl⟩

/-- A rejection by a follower that was still in an older term: the leader ignores the reply. -/
theorem round_of_older (hreq : Request i leader args)
    (hpos : 0 < follower.currentTerm) (hlt : follower.currentTerm < leader.currentTerm)
    (hpass : ¬ follower.Passes args) :
    round i leader follower =
      some ((leader, (follower.adoptTerm leader.currentTerm).persist), false) := by
  rcases appendEntries_eq follower args with ⟨hpass', -⟩ | ⟨-, follower', heq, hf⟩
  · exact absurd hpass' hpass
  rw [hreq.term] at hf
  rcases hf with ⟨hlt', -⟩ | rfl
  · omega
  have hsend : leader.sendAppendEntries i args ⟨follower.currentTerm, false⟩ = some leader := by
    rw [sendAppendEntries, if_neg (fun h0 => by simp only at h0; omega),
      if_neg (by rw [hreq.term]; exact lt_irrefl _), if_pos (by simp),
      if_neg (Int.not_lt.2 hlt.le), if_neg fun h0 => absurd h0.1 hlt.ne]
  rw [round, hreq.sends]
  simp only [Option.bind_eq_bind, Option.bind_some, Task.rpc, Rpc.handle, heq, Option.map_some,
    Rpc.finish, hsend, Rpc.accepted]

/-- A rejection by a follower in the leader's term. -/
theorem round_of_rejects (h : Sends i leader) (hreq : Request i leader args)
    (hterm : follower.currentTerm = leader.currentTerm) (hpass : ¬ follower.Passes args) {m : ℕ}
    (hm : leader.backup (leader.nextIndex i) (leader.nextIndex i) = some m) :
    round i leader follower =
      some ((leader.withNext i m, (follower.adoptTerm leader.currentTerm).persist), false) := by
  rcases appendEntries_eq follower args with ⟨hpass', -⟩ | ⟨-, follower', heq, hf⟩
  · exact absurd hpass' hpass
  rw [hreq.term] at hf
  rcases hf with ⟨hlt, -⟩ | rfl
  · omega
  have hpos := h.term_pos
  have hrej : leader.Rejected args ⟨follower.currentTerm, false⟩ :=
    ⟨h.state, rfl, (by simp only; omega), hterm, hreq.term.ge⟩
  have hsend := sendAppendEntries_of_rejected hrej hm
  rw [round, hreq.sends]
  simp only [Option.bind_eq_bind, Option.bind_some, Task.rpc, Rpc.handle, heq, Option.map_some,
    Rpc.finish, hsend, Rpc.accepted]

/-- A snapshot is accepted. -/
theorem round_of_snapshot (h : Sends i leader)
    (hbase : leader.nextIndex i - 1 < leader.lastIncludedIndex)
    (hle : follower.currentTerm ≤ leader.currentTerm) :
    ∃ args : InstallSnapshotArgs n C, args.term = leader.currentTerm ∧
      args.lastIncludedIndex = leader.lastIncludedIndex ∧
      args.lastIncludedTerm = leader.lastIncludedTerm ∧
      round i leader follower =
        some ((leader.withNext i (leader.lastIncludedIndex + 1), follower.install args), false) := by
  have hpos := h.term_pos
  obtain ⟨args, hargs⟩ := Option.ne_none_iff_exists'.1
    (installSnapshotArgs_ne_none h.boundary.log_ne_nil)
  obtain ⟨hterm, -, hidx, hlast, -⟩ := installSnapshotArgs_eq_some hargs
  refine ⟨args, hterm, hidx, hlast, ?_⟩
  have hfinish : leader.handleInstallSnapshot i ⟨args.term, false⟩ =
      leader.withNext i (leader.lastIncludedIndex + 1) := by
    rw [handleInstallSnapshot, if_neg (by simp only; omega),
      if_neg (by rw [hterm]; exact lt_irrefl _), virtualLogIdx, Nat.add_comm]
    rfl
  rw [round, doLeaderFor, if_pos hbase]
  simp only [Option.bind_eq_bind, Option.bind_some, Task.rpc, hargs, Option.map_some, Rpc.handle,
    installSnapshot_of_le (hterm ▸ hle), Rpc.finish, hfinish, Rpc.accepted]

/-! ## The exchange -/

/-- The follower has adopted the leader's term. -/
theorem adopted_currentTerm {t : ℤ} (hle : follower.currentTerm ≤ t) :
    (follower.adoptTerm t).persist.currentTerm = t := adoptTerm_term hle

/-- The two logs have the same boundary. -/
def SameBoundary (leader follower : Raft n C) : Prop :=
  follower.lastIncludedIndex = leader.lastIncludedIndex ∧
    ∃ e e', leader.log.head? = some e ∧ follower.log.head? = some e' ∧ e'.term = e.term

/-- A request that begins at a common boundary passes. -/
theorem SameBoundary.passes (h : SameBoundary leader follower) (hreq : Request i leader args)
    (hnext : leader.nextIndex i - 1 = leader.lastIncludedIndex)
    (hle : follower.currentTerm ≤ leader.currentTerm) : follower.Passes args := by
  obtain ⟨hbase, e, e', he, he', hterm⟩ := h
  obtain ⟨prev, hprev, hprevTerm⟩ := hreq.prevLogTerm
  rw [hnext, logAt_of_le le_rfl, Nat.sub_self, ← List.head?_eq_getElem?, he,
    Option.some.injEq] at hprev
  refine ⟨hreq.term ▸ hle, e', ?_, ?_⟩
  · rw [hreq.prevLogIndex, hnext, ← hbase, logAt_of_le le_rfl, Nat.sub_self,
      ← List.head?_eq_getElem?, he']
  · rw [hprevTerm, ← hprev, hterm]

theorem lastIncludedIndex_le_lastLogIdx (rf : Raft n C) : rf.lastIncludedIndex ≤ rf.lastLogIdx :=
  Nat.le_add_left _ _

theorem Sends.afterSnapshot (h : Sends i leader) :
    Sends i (leader.withNext i (leader.lastIncludedIndex + 1)) :=
  h.withNext (Nat.succ_le_succ (lastIncludedIndex_le_lastLogIdx leader))

/-- A snapshot suffices for a follower that has its term already: an emptied log gets that term at
the boundary. -/
theorem CatchesUp.of_known_snapshot (h : Sends i leader)
    (hbase : leader.nextIndex i - 1 < leader.lastIncludedIndex)
    (hle : follower.currentTerm ≤ leader.currentTerm)
    (hknown : follower.lastIncludedTerm = leader.lastIncludedTerm) :
    CatchesUp i leader follower := by
  obtain ⟨args, hterm, hidx, hlit, hround⟩ := round_of_snapshot h hbase hle
  refine .of_round hround rfl rfl ?_
  obtain ⟨req, hreq⟩ := h.afterSnapshot.request (by
    rw [withNext_nextIndex]
    exact le_rfl)
  obtain ⟨e, he, heterm⟩ := h.boundary
  have hinstalled : (follower.install args).Boundary :=
    boundary_install (.inr (hlit.trans hknown.symm))
  obtain ⟨e', he', heterm'⟩ := hinstalled
  refine .of_passes h.afterSnapshot hreq (SameBoundary.passes ?_ hreq ?_ hterm.le)
  · exact ⟨hidx, e, e', he, he', heterm'.trans (hlit.trans heterm.symm)⟩
  · rw [withNext_nextIndex]
    rfl

/-- Once the leader sends snapshots, two of them suffice: the first sets the follower's
`lastIncludedTerm`. -/
theorem CatchesUp.of_snapshot (h : Sends i leader)
    (hbase : leader.nextIndex i - 1 < leader.lastIncludedIndex)
    (hle : follower.currentTerm ≤ leader.currentTerm) : CatchesUp i leader follower := by
  obtain ⟨args, hterm, -, hlit, hround⟩ := round_of_snapshot h hbase hle
  refine .of_round hround rfl rfl ?_
  obtain ⟨req, hreq⟩ := h.afterSnapshot.request (by
    rw [withNext_nextIndex]
    exact le_rfl)
  by_cases hpass : (follower.install args).Passes req
  · exact .of_passes h.afterSnapshot hreq hpass
  -- rejected: `nextIndex` falls back to the boundary, and the snapshot is sent again
  obtain ⟨m, hm, hge, hlt⟩ := backup_lt h.afterSnapshot.boundary.log_ne_nil h.afterSnapshot.next_le
    (by rw [withNext_nextIndex]; exact Nat.lt_succ_self _)
  rw [withNext_nextIndex] at hlt
  obtain rfl : m = leader.lastIncludedIndex := le_antisymm (Nat.lt_succ_iff.1 hlt) hge
  refine .of_round (round_of_rejects h.afterSnapshot hreq hterm hpass hm) rfl rfl ?_
  refine .of_known_snapshot (h.afterSnapshot.withNext
    ((lastIncludedIndex_le_lastLogIdx leader).trans (Nat.le_succ _))) ?_
    (adopted_currentTerm hterm.le).le ((Sim.quiet_adoptTerm _ _).log.lastIncludedTerm.trans hlit)
  rw [withNext_nextIndex]
  show leader.lastIncludedIndex - 1 < leader.lastIncludedIndex
  omega

/-- A request that begins at a common entry passes. -/
theorem MeetAt.passes {j : ℕ} (h : MeetAt i leader follower j) (hreq : Request i leader args)
    (hj : j = leader.nextIndex i - 1) (hle : follower.currentTerm ≤ leader.currentTerm) :
    follower.Passes args := by
  obtain ⟨e, e', he, he', hterm⟩ := h.same
  obtain ⟨prev, hprev, hprevTerm⟩ := hreq.prevLogTerm
  cases he.symm.trans (hj ▸ hprev)
  exact ⟨hreq.term ▸ hle, e', by rw [hreq.prevLogIndex, ← hj, he'], hterm.trans hprevTerm.symm⟩

theorem MeetAt.of_passes (hreq : Request i leader args) (hpass : follower.Passes args) :
    MeetAt i leader follower (leader.nextIndex i - 1) := by
  obtain ⟨prev, hprev, hprevTerm⟩ := hreq.prevLogTerm
  obtain ⟨-, e', he', hterm⟩ := hpass
  rw [hreq.prevLogIndex] at he'
  exact ⟨le_rfl, ⟨prev, e', hprev, he', hterm.trans hprevTerm⟩, fun v hlt hle => by omega⟩

theorem MeetAt.adopt {j : ℕ} (h : MeetAt i leader follower j) (t : ℤ) :
    MeetAt i leader (follower.adoptTerm t).persist j := by
  obtain ⟨e, e', he, he', hterm⟩ := h.same
  exact ⟨h.le, ⟨e, e', he, by rwa [(Sim.quiet_adoptTerm follower t).log.logAt], hterm⟩, h.later⟩

theorem MeetAt.lt {j : ℕ} (h : MeetAt i leader follower j) (hreq : Request i leader args)
    (hle : follower.currentTerm ≤ leader.currentTerm) (hpass : ¬ follower.Passes args) :
    j < leader.nextIndex i - 1 :=
  lt_of_le_of_ne h.le fun hj => hpass (h.passes hreq hj hle)

/-- The search for an entry of an earlier term does not go past a common entry. -/
theorem MeetAt.back {j m : ℕ} (h : MeetAt i leader follower j) (hs : Sends i leader)
    (hj : j < leader.nextIndex i - 1)
    (hm : leader.backup (leader.nextIndex i) (leader.nextIndex i) = some m) :
    MeetAt i (leader.withNext i m) follower j := by
  obtain ⟨e, e', he, he', hterm⟩ := h.same
  have hnext := hs.next_le
  obtain ⟨f, hf⟩ := exists_logAt hs.boundary.log_ne_nil (v := leader.nextIndex i - 1)
    ((logAt_eq_some.1 he).1.trans h.le) (by omega)
  have hearlier : j ∈ leader.earlierTerm (leader.nextIndex i - 1) :=
    ⟨hj, e, f, he, hf, h.later _ hj le_rfl e f he hf⟩
  have hle : j ≤ m - 1 ∧ m - 1 ≤ leader.nextIndex i - 1 := by
    obtain ⟨m', hm', hend⟩ := backup_spec hs.boundary.log_ne_nil hs.next_le
    cases hm.symm.trans hm'
    rcases hend with ⟨hzero, -⟩ | ⟨-, hempty⟩ | ⟨k, rfl, hk⟩
    · omega
    · rw [hempty] at hearlier
      exact hearlier.elim
    · exact ⟨hk.2 hearlier, hk.1.1.le⟩
  refine ⟨by rw [withNext_nextIndex]; exact hle.1, ⟨e, e', he, he', hterm⟩, fun v hlt hv => ?_⟩
  rw [withNext_nextIndex] at hv
  exact h.later v hlt (hv.trans hle.2)

/-- Nothing keeps the leader from finding a common entry. -/
def Comparable (i : Fin n) (leader follower : Raft n C) : Prop :=
  0 < leader.lastIncludedIndex ∨ SameBoundary leader follower ∨ ∃ j, MeetAt i leader follower j

theorem SameBoundary.adopt (h : SameBoundary leader follower) (t : ℤ) :
    SameBoundary leader (follower.adoptTerm t).persist := by
  have hsame := (Sim.quiet_adoptTerm follower t).log
  rwa [SameBoundary, hsame.log, hsame.lastIncludedIndex]

/-- The exchange with a follower in the leader's term. Induction on `nextIndex`, which every
rejection lowers. -/
theorem CatchesUp.of_term (h : Sends i leader)
    (hterm : follower.currentTerm = leader.currentTerm) (hcomp : Comparable i leader follower) :
    CatchesUp i leader follower := by
  induction hN : leader.nextIndex i using Nat.strong_induction_on generalizing leader follower with
  | _ N ih =>
    rcases Nat.lt_or_ge (leader.nextIndex i - 1) leader.lastIncludedIndex with hsnap | hbase
    · exact .of_snapshot h hsnap hterm.le
    obtain ⟨args, hreq⟩ := h.request hbase
    by_cases hpass : follower.Passes args
    · exact .of_passes h hreq hpass
    have hnext : leader.lastIncludedIndex < leader.nextIndex i := by
      rcases hcomp with hpos | hsame | ⟨j, hmeet⟩
      · omega
      · by_contra hle
        refine hpass (hsame.passes hreq ?_ hterm.le)
        omega
      · have hj := hmeet.lt hreq hterm.le hpass
        obtain ⟨e, -, he, -⟩ := hmeet.same
        have hlow := (logAt_eq_some.1 he).1
        omega
    obtain ⟨m, hm, hge, hlt⟩ := backup_lt h.boundary.log_ne_nil h.next_le hnext
    have hround := round_of_rejects h hreq hterm hpass hm
    have hm' : m ≤ leader.lastLogIdx + 1 := hlt.le.trans h.next_le
    refine .of_round hround rfl rfl (ih m (hN ▸ hlt) (h.withNext hm')
      (adopted_currentTerm hterm.le) ?_ (withNext_nextIndex leader i m))
    rcases hcomp with hpos | hsame | ⟨j, hmeet⟩
    · exact .inl hpos
    · exact .inr (.inl (hsame.adopt _))
    · exact .inr (.inr ⟨j, (hmeet.back h (hmeet.lt hreq hterm.le hpass) hm).adopt _⟩)

/-- A follower in an older term has the leader's after the first message. -/
theorem Sends.catchesUp (h : Sends i leader) (hpos : 0 < follower.currentTerm)
    (hle : follower.currentTerm ≤ leader.currentTerm) (hcomp : Comparable i leader follower) :
    CatchesUp i leader follower := by
  rcases hle.eq_or_lt with hterm | hlt
  · exact .of_term h hterm hcomp
  rcases Nat.lt_or_ge (leader.nextIndex i - 1) leader.lastIncludedIndex with hsnap | hbase
  · exact .of_snapshot h hsnap hle
  obtain ⟨args, hreq⟩ := h.request hbase
  by_cases hpass : follower.Passes args
  · exact .of_passes h hreq hpass
  have hround := round_of_older hreq hpos hlt hpass
  refine .of_round hround rfl rfl (.of_term h (adopted_currentTerm hle) ?_)
  rcases hcomp with hpos | hsame | ⟨j, hmeet⟩
  · exact .inl hpos
  · exact .inr (.inl (hsame.adopt _))
  · exact .inr (.inr ⟨j, hmeet.adopt _⟩)

/-! ## The exchange that does not end -/

/-- The leader has never compacted, the follower has, and the logs do not meet. -/
structure Apart (i : Fin n) (leader follower : Raft n C) : Prop where
  sends : Sends i leader
  base : leader.lastIncludedIndex = 0
  compacted : 0 < follower.lastIncludedIndex
  term_pos : 0 < follower.currentTerm
  term_le : follower.currentTerm ≤ leader.currentTerm
  apart : ∀ j, ¬ MeetAt i leader follower j

/-- Logs cannot meet at index 0, which the follower has compacted. -/
theorem MeetAt.pos {j : ℕ} (h : MeetAt i leader follower j)
    (hcompacted : 0 < follower.lastIncludedIndex) : 0 < j := by
  obtain ⟨-, e', -, he', -⟩ := h.same
  exact hcompacted.trans_le (logAt_eq_some.1 he').1

/-- Logs that meet below an entry of an earlier term meet below the one that was rejected. -/
theorem MeetAt.of_back {j m : ℕ} (h : MeetAt i (leader.withNext i m) follower j)
    (hs : Sends i leader) (hbase : leader.lastIncludedIndex = 0)
    (hcompacted : 0 < follower.lastIncludedIndex)
    (hm : leader.backup (leader.nextIndex i) (leader.nextIndex i) = some m) :
    MeetAt i leader follower j := by
  have hpos := h.pos hcompacted
  have hj := h.le
  rw [withNext_nextIndex] at hj
  obtain ⟨m', hm', hend⟩ := backup_spec hs.boundary.log_ne_nil hs.next_le
  cases hm.symm.trans hm'
  rcases hend with ⟨-, rfl⟩ | ⟨rfl, -⟩ | ⟨k, rfl, ⟨hk, d, d', hd, hd', hdd⟩, hgreatest⟩
  · omega
  · omega
  have hbelow : ∀ v, j < v → v ≤ k → ∀ e f, leader.logAt j = some e →
      leader.logAt v = some f → e.term < f.term := fun v hlt hle =>
    h.later v hlt (by rw [withNext_nextIndex]; exact hle)
  refine ⟨by omega, h.same, fun v hlt hle e f he hf => ?_⟩
  rcases Nat.lt_or_ge k v with hkv | hvk
  · -- between the entry found and the rejected one there are no earlier terms than the latter's
    have hed : e.term ≤ d.term := by
      rcases (show j ≤ k from hj).eq_or_lt with rfl | hjk
      · cases he.symm.trans hd
        exact le_rfl
      · exact (hbelow k hjk le_rfl e d he hd).le
    have hdf : d'.term ≤ f.term := by
      by_contra hfd
      rcases hle.eq_or_lt with rfl | hvN
      · cases hf.symm.trans hd'
        exact hfd le_rfl
      · exact absurd (hgreatest ⟨hvN, f, d', hf, hd', not_le.1 hfd⟩) (Nat.not_le.2 hkv)
    omega
  · exact hbelow v hlt hvk e f he hf

theorem Apart.round (h : Apart i leader follower) : ∃ leader' follower',
    round i leader follower = some ((leader', follower'), false) ∧ Apart i leader' follower' := by
  obtain ⟨args, hreq⟩ := h.sends.request (by rw [h.base]; exact Nat.zero_le _)
  have hpass : ¬ follower.Passes args := fun hp => h.apart _ (.of_passes hreq hp)
  have hadopted := adopted_currentTerm h.term_le
  have hsame := (Sim.quiet_adoptTerm follower leader.currentTerm).log
  have hcompacted : 0 < (follower.adoptTerm leader.currentTerm).persist.lastIncludedIndex := by
    rw [hsame.lastIncludedIndex]
    exact h.compacted
  have hback : ∀ {leader : Raft n C} {j t}, MeetAt i leader (follower.adoptTerm t).persist j →
      MeetAt i leader follower j := fun {leader j t} hmeet => by
    obtain ⟨e, e', he, he', hterm⟩ := hmeet.same
    exact ⟨hmeet.le, ⟨e, e', he, by rwa [(Sim.quiet_adoptTerm follower t).log.logAt] at he', hterm⟩,
      hmeet.later⟩
  rcases h.term_le.eq_or_lt with hterm | hlt
  · obtain ⟨m, hle, hm⟩ := backup_le h.sends.boundary.log_ne_nil h.sends.next_le
    exact ⟨_, _, round_of_rejects h.sends hreq hterm hpass hm, h.sends.withNext hle, h.base,
      hcompacted, h.sends.term_pos.trans_eq hadopted.symm, hadopted.le,
      fun j hmeet => h.apart j ((hback hmeet).of_back h.sends h.base h.compacted hm)⟩
  · exact ⟨_, _, round_of_older hreq h.term_pos hlt hpass, h.sends, h.base, hcompacted,
      h.sends.term_pos.trans_eq hadopted.symm, hadopted.le, fun j hmeet => h.apart j (hback hmeet)⟩

theorem Apart.rounds (h : Apart i leader follower) {k : ℕ}
    (hk : rounds i k leader follower = some (leader', follower')) : Apart i leader' follower' := by
  induction k generalizing leader follower with
  | zero =>
    cases hk
    exact h
  | succ k ih =>
    obtain ⟨leader₁, follower₁, hround, h₁⟩ := h.round
    rw [rounds_succ hround] at hk
    exact ih h₁ hk

/-- **When an exchange ends** between a leader that has never compacted and a follower that has:
just when their logs meet. -/
theorem Sends.catchesUp_iff (h : Sends i leader) (hbase : leader.lastIncludedIndex = 0)
    (hcompacted : 0 < follower.lastIncludedIndex) (hpos : 0 < follower.currentTerm)
    (hle : follower.currentTerm ≤ leader.currentTerm) :
    CatchesUp i leader follower ↔ ∃ j, MeetAt i leader follower j := by
  constructor
  · rintro ⟨k, leader₁, follower₁, leader₂, follower₂, hk, hround, -⟩
    by_contra hnone
    have hapart : Apart i leader follower :=
      ⟨h, hbase, hcompacted, hpos, hle, fun j hmeet => hnone ⟨j, hmeet⟩⟩
    obtain ⟨leader', follower', hround', -⟩ := (hapart.rounds hk).round
    rw [hround] at hround'
    cases hround'
  · exact fun hmeet => h.catchesUp hpos hle (.inr (.inr hmeet))

end Raft

/-! ## Runs of the cluster -/

section Runs

variable {covers : Data → ℕ → LogEntry C → Prop} {c c' : Cluster n C} {g : History n}
  {p : Proto (Fin n) (LogEntry C)} {a : Action n C}

/-- A log that has never been compacted begins with the placeholder of `Make`. -/
def Raft.Root (rf : Raft n C) : Prop :=
  rf.lastIncludedIndex = 0 → ∃ e, rf.log.head? = some e ∧ e.term = -1

theorem Sim.root_act (h : Sim covers c g p) (hc : c.Sound) (hroot : ∀ s, (c.servers s).Root)
    (hstale : c.NoStaleSnapshot a) (hstep : Cluster.Step c a c') (s : Fin n) :
    (c'.servers s).Root := by
  intro hzero
  rcases hstep.sameHead hc s with hsame | ⟨k, call, args, rfl, hk, rfl, hrpc, hle, heq⟩ |
    ⟨index, e, data, hlt, -, heq⟩
  · rw [hsame.head]
    exact hroot s (hsame.lastIncludedIndex ▸ hzero)
  · rw [heq] at hzero ⊢
    -- the request is not older, so nothing had been compacted before it either
    have hfresh := hstale call hk
    rw [hrpc] at hfresh
    have hbase : (c.servers call.server).lastIncludedIndex = 0 :=
      Nat.le_zero.1 ((hfresh hle).trans hzero.le)
    show ∃ e, ((c.servers call.server).installedLog args).head? = some e ∧ _
    rcases installedLog_cases (c.servers call.server) args with ⟨j, e, -, -, hj, hlog⟩ | ⟨-, hlog⟩
    · have hidx : args.lastIncludedIndex = 0 := hzero
      rw [hlog, show j = 0 by omega, List.drop_zero]
      exact hroot _ hbase
    · have hterm := (h.servers call.server).backs.base_term
      rw [hbase, termAt_zero] at hterm
      rw [hlog]
      exact ⟨_, rfl, hterm⟩
  · rw [heq] at hzero
    exact absurd hzero (Nat.ne_of_gt (Nat.zero_lt_of_lt hlt))

theorem root_of_run {as : List (Action n C)}
    (hno : Along Cluster.step Cluster.NoOverwrite Cluster.init as)
    (hstale : Along Cluster.step Cluster.NoStaleSnapshot Cluster.init as)
    (h : run Cluster.step Cluster.init as = some c) (s : Fin n) : (c.servers s).Root :=
  (sim_induction (P := fun c => ∀ s, (c.servers s).Root)
    (fun _ _ _ _ _ he hs hroot hC hstep => hs.root_act he.sound hroot hC hstep) hno hstale h
    fun _ _ => ⟨_, rfl, rfl⟩).2 s

/-- A leader is ready to send: the boundary of its log has the right term, because a server whose
boundary has not is not elected. -/
theorem Sim.sends (h : Sim covers c g p) (he : Elected c g) {l : Fin n}
    (hl : (c.servers l).state = .leader) (hb : (c.servers l).Bounded) (i : Fin n) :
    Sends i (c.servers l) := by
  obtain ⟨-, hblind⟩ := h.lead_log (he.led l hl)
  obtain ⟨hd, hlog, hterm, -⟩ := (h.servers l).backs.log
  refine ⟨hl, he.term_pos l, ⟨hd, by rw [hlog]; rfl, ?_⟩, (h.servers l).commit_base, hb.next_le hl i⟩
  rw [hterm hblind, (h.servers l).backs.base_term]

theorem mem_of_mapM {α β : Type} {f : α → Option β} {l : List α} {l' : List β}
    (h : l.mapM f = some l') {x : α} (hx : x ∈ l) {y : β} (hy : f x = some y) : y ∈ l' := by
  induction l generalizing l' with
  | nil => exact absurd hx List.not_mem_nil
  | cons a l ih =>
    rw [List.mapM_cons] at h
    obtain ⟨b, hb, h⟩ := Option.bind_eq_some_iff.1 h
    obtain ⟨bs, hbs, h⟩ := Option.bind_eq_some_iff.1 h
    cases h
    rcases List.mem_cons.1 hx with rfl | hx
    · rw [hb, Option.some.injEq] at hy
      exact hy ▸ List.mem_cons_self
    · exact List.mem_cons_of_mem b (ih hbs hx)

theorem Cluster.step_of_act (h : c.act a = some c') : c.step a = some c'.refresh := by
  rw [Cluster.step, h, Option.map_some]

theorem Cluster.act_task {k : ℕ} {t : Spawned n C} (hk : c.tasks[k]? = some t)
    (hep : t.epoch = c.epoch t.caller) (hl : (c.servers t.caller).state = .leader) {rpc : Rpc n C}
    (hrpc : t.task.rpc (c.servers t.caller) = some rpc) :
    c.act (.task k) =
      some (({ c with tasks := c.tasks.eraseIdx k } : Cluster n C).call t.caller [t.server] rpc) := by
  rw [Cluster.act, hk]
  simp only [Option.bind_eq_bind, Option.bind_some]
  rw [if_neg (not_not.2 hep), if_neg fun h => h.1 hl, hrpc, Option.map_some]

/-- A new slice shows what it was built from. -/
theorem Cluster.getElem?_refresh_spawn {l j : Fin n} {gs : List (Fin n × Task n C)} {k : ℕ}
    {task : Task n C} (hk : gs[k]? = some (j, task))
    (htask : (c.servers l).doLeaderFor j = some (j, task)) :
    (c.spawn l gs).refresh.tasks[c.tasks.length + k]? =
      some ⟨l, c.epoch l, j, task, (c.servers l).array, none⟩ := by
  have hspawned : (c.spawn l gs).tasks[c.tasks.length + k]? =
      some ⟨l, c.epoch l, j, task, (c.servers l).array, none⟩ := by
    rw [Cluster.spawn, List.getElem?_append_right (Nat.le_add_right _ _), Nat.add_sub_cancel_left,
      List.getElem?_map, hk, Option.map_some]
  rw [Cluster.refresh, List.getElem?_map, hspawned, Option.map_some, Option.some.injEq]
  split
  · refine Spawned.reread_eq fun v e e' he he' => ?_
    exact Option.some.inj ((logAt_of_doLeaderFor htask he').symm.trans he)
  · rfl

/-- A round is a run of the cluster: the leader wakes up, its goroutine for the peer calls it, the
call is delivered, and the reply is received. -/
theorem Cluster.run_round (hc : c.Sound) {l i : Fin n} (hne : i ≠ l)
    (hl : (c.servers l).state = .leader) (hleader : (c.servers l).doLeader ≠ none)
    {leader follower : Raft n C} {b : Bool}
    (h : round i (c.servers l) (c.servers i) = some ((leader, follower), b)) :
    ∃ as c', run Cluster.step c as = some c' ∧
      c'.servers = Function.update (Function.update c.servers i follower) l leader := by
  obtain ⟨⟨j, task⟩, htask, h⟩ := Option.bind_eq_some_iff.1 h
  obtain ⟨rpc, hrpc, h⟩ := Option.bind_eq_some_iff.1 h
  obtain ⟨⟨follower', rpc'⟩, hhandle, h⟩ := Option.bind_eq_some_iff.1 h
  obtain ⟨leader', hfinish, h⟩ := Option.bind_eq_some_iff.1 h
  cases h
  obtain ⟨rfl, -⟩ := doLeaderFor_eq_some htask
  obtain ⟨gs, hgs⟩ := Option.ne_none_iff_exists'.1 hleader
  have hmem : (j, task) ∈ gs :=
    mem_of_mapM hgs (mem_otherPeers.2 (by rw [hc.me l]; exact hne)) htask
  obtain ⟨k, hk⟩ := List.mem_iff_getElem?.1 hmem
  let c₁ := (c.spawn l gs).refresh
  let c₂ := (({ c₁ with tasks := c₁.tasks.eraseIdx (c.tasks.length + k) } : Cluster n C).call l [j]
    rpc).refresh
  let call : Call n C := { caller := l, epoch := c.epoch l, server := j, rpc := rpc }
  let c₃ := (c₂.answerCall c.calls.length call follower rpc').refresh
  have h₁ : c.step (.msgComing l) = some c₁ :=
    step_of_act (by rw [Cluster.act, if_pos hl, hgs, Option.map_some])
  have h₂ : c₁.step (.task (c.tasks.length + k)) = some c₂ :=
    step_of_act (act_task (getElem?_refresh_spawn hk htask) rfl hl hrpc)
  have hcall₂ : c₂.calls[c.calls.length]? = some call := List.getElem?_concat_length ..
  have h₃ : c₂.step (.deliver c.calls.length) = some c₃ := by
    refine step_of_act ?_
    rw [Cluster.act, hcall₂]
    show ((rpc.handle (c.servers j)).bind _) = _
    rw [hhandle]
    rfl
  have hcall₃ : c₃.calls[c.calls.length]? = some { call with rpc := rpc' } := by
    obtain ⟨hlt, -⟩ := List.getElem?_eq_some_iff.1 hcall₂
    exact List.getElem?_set_self hlt
  have h₄ : c₃.step (.receive c.calls.length) =
      some (c₃.finishCall c.calls.length { call with rpc := rpc' } leader).refresh := by
    refine step_of_act ?_
    rw [Cluster.act, hcall₃]
    show (if _ then (rpc'.finish (c₃.servers l) j).map _ else none) = _
    have hl₃ : c₃.servers l = c.servers l := Function.update_of_ne hne.symm ..
    rw [if_pos ⟨rfl, rfl⟩, hl₃, hfinish, Option.map_some]
  refine ⟨[.msgComing l, .task (c.tasks.length + k), .deliver c.calls.length,
    .receive c.calls.length],
    (c₃.finishCall c.calls.length { call with rpc := rpc' } leader).refresh, ?_, rfl⟩
  rw [run_cons, h₁, Option.bind_some, run_cons, h₂, Option.bind_some, run_cons, h₃, Option.bind_some,
    run_cons, h₄]
  rfl

end Runs

/-- **Catching up terminates.** In a run in which no request is overwritten before it is encoded and
no server has accepted a snapshot older than its own, a leader and a server whose term is not newer
that only exchange messages come, after finitely many rounds, to a request that is accepted and with
which the server has the leader's whole log. This holds if the leader has compacted its log, or the
server has not, or the two logs have the same term at an index above which the leader's log, up to
`nextIndex - 1`, has only later terms. -/
theorem catchUp_terminates {c : Cluster n C} {as : List (Action n C)}
    (hno : Along Cluster.step Cluster.NoOverwrite Cluster.init as)
    (hstale : Along Cluster.step Cluster.NoStaleSnapshot Cluster.init as)
    (h : run Cluster.step Cluster.init as = some c) {l i : Fin n}
    (hl : (c.servers l).state = .leader)
    (hle : (c.servers i).currentTerm ≤ (c.servers l).currentTerm)
    (hreach : 0 < (c.servers l).lastIncludedIndex ∨ (c.servers i).lastIncludedIndex = 0 ∨
      ∃ j, MeetAt i (c.servers l) (c.servers i) j) :
    CatchesUp i (c.servers l) (c.servers i) := by
  obtain ⟨⟨g, p, he, hs⟩, hb⟩ := bounded_of_run hno hstale h
  refine (hs.sends he hl (hb l) i).catchesUp (he.term_pos i) hle ?_
  rcases hreach with hpos | hzero | hmeet
  · exact .inl hpos
  · rcases Nat.eq_zero_or_pos (c.servers l).lastIncludedIndex with hzero' | hpos
    · obtain ⟨e, he, hterm⟩ := root_of_run hno hstale h l hzero'
      obtain ⟨e', he', hterm'⟩ := root_of_run hno hstale h i hzero
      exact .inr (.inl ⟨hzero.trans hzero'.symm, e, e', he, he', hterm'.trans hterm.symm⟩)
    · exact .inl hpos
  · exact .inr (.inr hmeet)

/-- The follower of `emptyFollowerRun` needs the snapshot twice. -/
theorem catchUp_terminates_emptyFollowerRun :
    ∃ c : Cluster 3 ℕ, run Cluster.step Cluster.init emptyFollowerRun = some c ∧
      (c.servers 0).lastIncludedIndex = 1 ∧ (c.servers 2).log = [⟨-1, 0⟩] ∧
      CatchesUp 2 (c.servers 0) (c.servers 2) := by
  have h : ∃ c : Cluster 3 ℕ, run Cluster.step Cluster.init emptyFollowerRun = some c ∧
      (c.servers 0).state = .leader ∧ (c.servers 2).currentTerm ≤ (c.servers 0).currentTerm ∧
      (c.servers 0).lastIncludedIndex = 1 ∧ (c.servers 2).log = [⟨-1, 0⟩] := by
    decide +kernel
  obtain ⟨c, hc, hl, hle, hbase, hlog⟩ := h
  exact ⟨c, hc, hbase, hlog,
    catchUp_terminates (by decide +kernel) (by decide +kernel) hc hl hle
      (.inl (by rw [hbase]; decide))⟩

/-- Server 0 of three leads term 2 and commits command 7 with both others; server 2 compacts it.
Command 8 reaches server 1 only, which then is elected in term 3 and sends server 2 two requests.
The first is rejected because server 2 does not have index 2, the second because it begins at index
0. -/
def uncompactedLeaderRun : List (Action 3 ℕ) :=
  startedRun ++ ([.commitChecker 2, .msgComing 0, .task 0, .task 0, .deliver 4, .receive 4,
    .deliver 5, .receive 5, .msgComing 0, .task 1, .deliver 6, .commitChecker 2, .commitChecker 2,
    .snapshot 2 1 [7], .start 0 8, .msgComing 0, .task 1, .deliver 7, .timeout 1, .deliver 8,
    .receive 8, .timeout 1, .deliver 11, .receive 11, .msgComing 1, .task 3, .deliver 12,
    .receive 12, .msgComing 1, .task 4, .deliver 13, .receive 13] : List (Action 3 ℕ))

/-- From then on server 2 rejects every request. -/
theorem catchUp_terminates_fails :
    ∃ c : Cluster 3 ℕ, run Cluster.step Cluster.init uncompactedLeaderRun = some c ∧
      Along Cluster.step Cluster.NoOverwrite Cluster.init uncompactedLeaderRun ∧
      Along Cluster.step Cluster.NoStaleSnapshot Cluster.init uncompactedLeaderRun ∧
      Along Cluster.step Cluster.SnapshotsHanded Cluster.init uncompactedLeaderRun ∧
      (c.servers 1).state = .leader ∧ (c.servers 2).currentTerm = (c.servers 1).currentTerm ∧
      (c.servers 1).lastIncludedIndex = 0 ∧ (c.servers 2).lastIncludedIndex = 1 ∧
      ∀ k leader follower, rounds 2 k (c.servers 1) (c.servers 2) = some (leader, follower) →
        ∃ leader' follower', round 2 leader follower = some ((leader', follower'), false) := by
  have h : ∃ c : Cluster 3 ℕ, run Cluster.step Cluster.init uncompactedLeaderRun = some c ∧
      (c.servers 1).state = .leader ∧ (c.servers 2).currentTerm = (c.servers 1).currentTerm ∧
      (c.servers 1).lastIncludedIndex = 0 ∧ (c.servers 2).lastIncludedIndex = 1 ∧
      (c.servers 1).nextIndex 2 = 0 := by
    decide +kernel
  have hno : Along Cluster.step Cluster.NoOverwrite Cluster.init uncompactedLeaderRun := by
    decide +kernel
  have hstale : Along Cluster.step Cluster.NoStaleSnapshot Cluster.init uncompactedLeaderRun := by
    decide +kernel
  obtain ⟨c, hc, hl, hterm, hbase, hbase', hnext⟩ := h
  refine ⟨c, hc, hno, hstale, by decide +kernel, hl, hterm, hbase, hbase',
    fun k leader follower hk => ?_⟩
  obtain ⟨⟨g, p, he, hs⟩, hb⟩ := bounded_of_run hno hstale hc
  have hcompacted : 0 < (c.servers 2).lastIncludedIndex := by
    rw [hbase']
    decide
  -- `nextIndex` is 0 already, and the logs cannot meet there
  have hapart : Apart 2 (c.servers 1) (c.servers 2) :=
    ⟨hs.sends he hl (hb 1) 2, hbase, hcompacted, he.term_pos 2, hterm.le, fun j hmeet => by
      have hle := hmeet.le
      have hpos := hmeet.pos hcompacted
      omega⟩
  obtain ⟨leader', follower', hround, -⟩ := (hapart.rounds hk).round
  exact ⟨leader', follower', hround⟩

end DistSys
