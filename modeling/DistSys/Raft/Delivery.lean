import DistSys.Raft.Steps

/-!
# The order of delivery on `applyCh`

Two goroutines send on `applyCh`: `CommitChecker`, from a buffer that it filled earlier, and the
goroutine that `InstallSnapshot` leaves behind. `InstallSnapshot` sets `lastApplied` to the index of
the snapshot before that goroutine has sent anything, so `CommitChecker` may go on with the next
command first: `deliveryOrder_fails` is such a run.

What holds in every run is that an index up to `lastApplied`, or below the next buffered command,
has been handed over or is covered by a snapshot that still waits to be sent (`Ready`). Hence
delivery is in order as long as no command overtakes a snapshot that the service still needs
(`deliveryOrder`).

The messages of `CommitChecker` carry the term of their entry in `CommandTerm` and none in
`SnapshotTerm` (`Cluster.snapshotTerm_of_command`).
-/

namespace DistSys

open Raft

variable {n : ℕ} {C : Type} [Inhabited C]

namespace Raft

/-- The event hands index `j` to the service of incarnation `epoch` of `s`. -/
def Event.Hands (s : Fin n) (epoch j : ℕ) : Event n C → Prop
  | .make s' epoch' b => s' = s ∧ epoch' = epoch ∧ j ≤ b
  | .apply s' epoch' msg => s' = s ∧ epoch' = epoch ∧
      ((msg.commandValid = true ∧ msg.commandIndex = j) ∨
        (msg.snapshotValid = true ∧ j ≤ msg.snapshotIndex))
  | _ => False

instance (s : Fin n) (epoch j : ℕ) : (ev : Event n C) → Decidable (ev.Hands s epoch j)
  | .make s' epoch' b => inferInstanceAs (Decidable (s' = s ∧ epoch' = epoch ∧ j ≤ b))
  | .apply s' epoch' msg => inferInstanceAs (Decidable (s' = s ∧ epoch' = epoch ∧
      ((msg.commandValid = true ∧ msg.commandIndex = j) ∨
        (msg.snapshotValid = true ∧ j ≤ msg.snapshotIndex))))
  | .start _ _ _ _ | .commit _ _ _ _ => isFalse id

/-- Index `j` has been handed over in the incarnation `epoch` of `s`: as a command, in a snapshot
message, or in the snapshot that it started from. -/
def Handed (tr : List (Event n C)) (s : Fin n) (epoch j : ℕ) : Prop :=
  ∃ ev ∈ tr, ev.Hands s epoch j

instance (tr : List (Event n C)) (s : Fin n) (epoch j : ℕ) : Decidable (Handed tr s epoch j) :=
  inferInstanceAs (Decidable (∃ ev ∈ tr, _))

/-- Every command is handed over after all smaller indices. -/
def InOrder (tr : List (Event n C)) : Prop :=
  ∀ k s epoch msg, tr[k]? = some (.apply s epoch msg) → msg.commandValid = true →
    ∀ j, 1 ≤ j → j < msg.commandIndex → Handed (tr.take k) s epoch j

theorem Handed.mono {tr tr' : List (Event n C)} (h : ∀ ev ∈ tr, ev ∈ tr') {s : Fin n}
    {epoch j : ℕ} (hj : Handed tr s epoch j) : Handed tr' s epoch j := by
  obtain ⟨ev, hev, hh⟩ := hj
  exact ⟨ev, h ev hev, hh⟩

/-- One more event. -/
theorem InOrder.append {tr : List (Event n C)} (h : InOrder tr) (ev : Event n C)
    (hev : ∀ s epoch msg, ev = .apply s epoch msg → msg.commandValid = true →
      ∀ j, 1 ≤ j → j < msg.commandIndex → Handed tr s epoch j) : InOrder (tr ++ [ev]) := by
  intro k s epoch msg hk hv j hj hlt
  rcases Nat.lt_or_ge k tr.length with hlen | hlen
  · rw [List.getElem?_append_left hlen] at hk
    rw [List.take_append_of_le_length hlen.le]
    exact h k s epoch msg hk hv j hj hlt
  · rw [List.getElem?_append_right hlen] at hk
    have hk0 := (List.getElem?_eq_some_iff.1 hk).1
    rw [List.length_singleton] at hk0
    rw [show k - tr.length = 0 by omega] at hk
    rw [show k = tr.length by omega, List.take_left]
    exact hev s epoch msg (Option.some.inj hk) hv j hj hlt

variable {rf rf' : Raft n C}

/-! ## What is waiting to be sent -/

/-- Everything up to index `i` has been handed over, or waits in a snapshot up to `i` at most. -/
def Ready (H : ℕ → Prop) (rf : Raft n C) (i : ℕ) : Prop :=
  ∀ j, 1 ≤ j → j ≤ i → H j ∨ ∃ p ∈ rf.snapSenders, j ≤ p.snapshotIndex ∧ p.snapshotIndex ≤ i

/-- Commands with the indices `i + 1`, `i + 2`, and so on. -/
def Consecutive : ℕ → List (ApplyMsg C) → Prop
  | _, [] => True
  | i, msg :: msgBuf => msg.commandIndex = i + 1 ∧ msg.commandValid = true ∧
      Consecutive (i + 1) msgBuf

/-- The command that `CommitChecker` is about to send. -/
def Checker.next : Checker C → Option (ApplyMsg C)
  | .sending (msg :: _) => some msg
  | _ => none

/-- The invariant of one server, where `H j` says that index `j` has been handed over. -/
structure Served (H : ℕ → Prop) (rf : Raft n C) : Prop where
  base_le : rf.lastIncludedIndex ≤ rf.lastApplied
  applied : Ready H rf rf.lastApplied
  snapshots : ∀ p ∈ rf.snapSenders, p.snapshotValid = true ∧ p.commandValid = false
  sending : ∀ msgBuf, rf.checker = .sending msgBuf → ∃ i, Ready H rf i ∧ Consecutive i msgBuf
  sent : ∀ msg msgBuf, rf.checker = .sent msg msgBuf →
    Ready H rf msg.commandIndex ∧ Consecutive msg.commandIndex msgBuf

theorem Ready.mono {H H' : ℕ → Prop} (hH : ∀ j, H j → H' j)
    (hsend : ∀ p ∈ rf.snapSenders, p ∈ rf'.snapSenders ∨ ∀ j, j ≤ p.snapshotIndex → H' j) {i : ℕ}
    (h : Ready H rf i) : Ready H' rf' i := by
  intro j hj hji
  rcases h j hj hji with hd | ⟨p, hp, hjp, hpi⟩
  · exact Or.inl (hH j hd)
  · rcases hsend p hp with hp | hp
    · exact Or.inr ⟨p, hp, hjp, hpi⟩
    · exact Or.inl (hp j hjp)

theorem collect_consecutive {fuel i : ℕ} {msgBuf : List (ApplyMsg C)}
    (hi : rf.lastIncludedIndex ≤ i) (h : rf.collect fuel i = some msgBuf) :
    Consecutive i msgBuf := by
  induction fuel generalizing i msgBuf with
  | zero =>
    cases h
    trivial
  | succ fuel ih =>
    rw [collect, if_neg (by omega)] at h
    split at h
    · cases h
      trivial
    · obtain ⟨e, -, h⟩ := Option.bind_eq_some_iff.1 h
      obtain ⟨buf, hbuf, h⟩ := Option.bind_eq_some_iff.1 h
      cases h
      exact ⟨rfl, rfl, ih (by omega) hbuf⟩

/-- What handlers that neither deliver nor install a snapshot keep. -/
structure SameDelivery (rf rf' : Raft n C) : Prop where
  lastApplied : rf'.lastApplied = rf.lastApplied
  lastIncludedIndex : rf'.lastIncludedIndex = rf.lastIncludedIndex
  snapSenders : rf'.snapSenders = rf.snapSenders
  checker : Woken rf.checker rf'.checker

theorem SameDelivery.refl (rf : Raft n C) : SameDelivery rf rf := ⟨rfl, rfl, rfl, Or.inl rfl⟩

theorem Served.same {H H' : ℕ → Prop} (h : Served H rf) (hH : ∀ j, H j → H' j)
    (hs : SameDelivery rf rf') : Served H' rf' := by
  have hready : ∀ {i}, Ready H rf i → Ready H' rf' i :=
    fun hr => hr.mono hH fun p hp => Or.inl (hs.snapSenders ▸ hp)
  refine ⟨?_, ?_, ?_, fun buf hbuf => ?_, fun msg buf hbuf => ?_⟩
  · rw [hs.lastIncludedIndex, hs.lastApplied]
    exact h.base_le
  · rw [hs.lastApplied]
    exact hready h.applied
  · rw [hs.snapSenders]
    exact h.snapshots
  · rcases hs.checker with he | ⟨-, he⟩
    · obtain ⟨i, hi, hc⟩ := h.sending buf (he ▸ hbuf)
      exact ⟨i, hready hi, hc⟩
    · rw [he] at hbuf
      cases hbuf
  · rcases hs.checker with he | ⟨-, he⟩
    · obtain ⟨hi, hc⟩ := h.sent msg buf (he ▸ hbuf)
      exact ⟨hready hi, hc⟩
    · rw [he] at hbuf
      cases hbuf

theorem sameDelivery_finish {rpc : Rpc n C} {server : Fin n} (h : rpc.finish rf server = some rf') :
    SameDelivery rf rf' := by
  rcases Rpc.finish_cases h with ⟨args, reply, -, h⟩ | ⟨args, reply, -, rfl⟩ |
    ⟨reply, -, rfl⟩ | ⟨args, reply, -, rfl⟩
  · rcases sendAppendEntries_cases h with ⟨next, rfl⟩ | ⟨-, rfl⟩ | ⟨-, -, h⟩
    · exact ⟨rfl, rfl, rfl, Or.inl rfl⟩
    · exact ⟨rfl, rfl, rfl, Or.inl rfl⟩
    · obtain ⟨N', ch, rfl, hw⟩ := advanceCommit_frame h
      exact ⟨rfl, rfl, rfl, hw⟩
  · rcases sendRequestVote_cases rf args reply with h | ⟨-, -, h⟩ | ⟨-, -, -, h⟩
    · rw [h]
      exact SameDelivery.refl rf
    · rw [h]
      exact ⟨rfl, rfl, rfl, Or.inl rfl⟩
    · rw [h, countVote]
      split <;> exact ⟨rfl, rfl, rfl, Or.inl rfl⟩
  · rcases sendPreVote_cases rf reply with h | ⟨-, r, -, h⟩
    · rw [h]
      exact SameDelivery.refl rf
    · rw [h]
      exact ⟨rfl, rfl, rfl, Or.inl rfl⟩
  · rcases handleInstallSnapshot_cases rf server reply with ⟨next, h⟩ | ⟨-, h⟩
    · rw [h]
      exact ⟨rfl, rfl, rfl, Or.inl rfl⟩
    · rw [h]
      exact ⟨rfl, rfl, rfl, Or.inl rfl⟩

/-- A handler delivers nothing itself; `InstallSnapshot` leaves a snapshot to be sent. -/
theorem sameDelivery_handle {rpc rpc' : Rpc n C} (h : rpc.handle rf = some (rf', rpc')) :
    SameDelivery rf rf' ∨ ∃ args, rpc = .installSnapshot args none ∧ rf.currentTerm ≤ args.term ∧
      rf' = rf.install args := by
  rcases Rpc.handle_cases h with ⟨args, reply, -, -, h⟩ | ⟨args, reply, -, -, h⟩ | ⟨-, -, rfl⟩ |
    ⟨args, reply, hrpc, -, h⟩
  · have hadopt : SameDelivery rf (rf.adoptTerm args.term) := by
      unfold adoptTerm
      split <;> exact ⟨rfl, rfl, rfl, Or.inl rfl⟩
    rcases appendEntries_cases h with ⟨rfl, -⟩ | ⟨-, -, rfl⟩ | ⟨-, -, -, rfl⟩
    · exact Or.inl (SameDelivery.refl _)
    · exact Or.inl ⟨hadopt.1, hadopt.2, hadopt.3, hadopt.4⟩
    · obtain ⟨ch, hch, hw⟩ := acceptEntries_eq (rf.adoptTerm args.term) args
      rw [hch]
      refine Or.inl ⟨hadopt.1, hadopt.2, hadopt.3, ?_⟩
      have : (rf.adoptTerm args.term).checker = rf.checker := by
        unfold adoptTerm
        split <;> rfl
      rwa [this] at hw
  · rcases requestVote_cases h with ⟨rfl, -⟩ | ⟨-, rfl, -⟩ | ⟨-, -, -, rfl, -⟩ <;>
      exact Or.inl ⟨rfl, rfl, rfl, Or.inl rfl⟩
  · exact Or.inl (SameDelivery.refl _)
  · have hcases := installSnapshot_cases rf args
    rw [h] at hcases
    rcases hcases with rfl | ⟨hle, rfl⟩
    · exact Or.inl (SameDelivery.refl _)
    · exact Or.inr ⟨args, hrpc, hle, rfl⟩

theorem Served.install {H : ℕ → Prop} (h : Served H rf) (args : InstallSnapshotArgs n C) :
    Served H (rf.install args) := by
  have hready : ∀ {i}, Ready H rf i → Ready H (rf.install args) i :=
    fun hr => hr.mono (fun _ hj => hj) fun p hp => Or.inl (List.mem_append_left _ hp)
  refine ⟨le_rfl, fun j _ hj => Or.inr ⟨snapshotMsg args, ?_, hj, le_rfl⟩, fun p hp => ?_,
    fun buf hbuf => ?_, fun msg buf hbuf => ?_⟩
  · exact List.mem_append_right _ (List.mem_singleton.2 rfl)
  · rcases List.mem_append.1 hp with hp | hp
    · exact h.snapshots p hp
    · rw [List.mem_singleton.1 hp]
      exact ⟨rfl, rfl⟩
  · obtain ⟨i, hi, hc⟩ := h.sending buf hbuf
    exact ⟨i, hready hi, hc⟩
  · obtain ⟨hi, hc⟩ := h.sent msg buf hbuf
    exact ⟨hready hi, hc⟩

theorem Served.compact {H : ℕ → Prop} (h : Served H rf) {index : ℕ} (t : ℤ) (data : Data)
    (hindex : ∀ j ≤ index, 1 ≤ j → H j) : Served H (rf.compact index t data) := by
  refine ⟨le_max_right _ _, fun j hj hji => ?_, h.snapshots, h.sending, h.sent⟩
  rcases Nat.lt_or_ge index j with hlt | hle
  · have hji : j ≤ max rf.lastApplied index := hji
    rcases h.applied j hj (by omega) with hd | ⟨p, hp, hjp, hpi⟩
    · exact Or.inl hd
    · exact Or.inr ⟨p, hp, hjp, hpi.trans (le_max_left _ _)⟩
  · exact Or.inl (hindex j hle hj)

/-- A waiting snapshot is sent. -/
theorem Served.sendSnapshot {H H' : ℕ → Prop} (h : Served H rf) {k : ℕ} {msg : ApplyMsg C}
    (hk : rf.snapSenders[k]? = some msg) (hH : ∀ j, H j → H' j)
    (hmsg : ∀ j ≤ msg.snapshotIndex, H' j) :
    Served H' { rf with snapSenders := rf.snapSenders.eraseIdx k } := by
  have hready : ∀ {i}, Ready H rf i →
      Ready H' { rf with snapSenders := rf.snapSenders.eraseIdx k } i := fun hr =>
    hr.mono hH fun p hp => by
      obtain ⟨i, hi⟩ := List.mem_iff_getElem?.1 hp
      by_cases hik : i = k
      · rw [hik, hk, Option.some.injEq] at hi
        exact Or.inr fun j hj => hmsg j (hi ▸ hj)
      · exact Or.inl (List.mem_eraseIdx_iff_getElem?.2 ⟨i, hik, hi⟩)
  refine ⟨h.base_le, hready h.applied, fun p hp => h.snapshots p (List.mem_of_mem_eraseIdx hp),
    fun buf hbuf => ?_, fun msg buf hbuf => ?_⟩
  · obtain ⟨i, hi, hc⟩ := h.sending buf hbuf
    exact ⟨i, hready hi, hc⟩
  · obtain ⟨hi, hc⟩ := h.sent msg buf hbuf
    exact ⟨hready hi, hc⟩

theorem served_make {H : ℕ → Prop} (s : Fin n) (persister : Persister n C)
    (hH : ∀ j ≤ (make s persister).lastIncludedIndex, H j) : Served H (make s persister) := by
  refine ⟨(make_lastApplied s persister).ge, fun j _ hj => Or.inl (hH j ?_), fun p hp => ?_,
    fun buf hbuf => ?_, fun msg buf hbuf => ?_⟩
  · rwa [make_lastApplied] at hj
  · rw [make_snapSenders] at hp
    cases hp
  · rw [make_checker] at hbuf
    cases hbuf
  · rw [make_checker] at hbuf
    cases hbuf

/-- A step of `CommitChecker` on a server whose buffered command, if it sends one, is due. -/
theorem Served.commitChecker {H H' : ℕ → Prop} (h : Served H rf) {msg : Option (ApplyMsg C)}
    (hr : rf.commitChecker = some (rf', msg)) (hH : ∀ j, H j → H' j)
    (hmsg : ∀ m, msg = some m → H' m.commandIndex) : Served H' rf' := by
  have hready : ∀ {i} {ch : Checker C} {applied : ℕ}, Ready H rf i →
      Ready H' { rf with checker := ch, lastApplied := applied } i :=
    fun hr => hr.mono hH fun p hp => Or.inl hp
  unfold Raft.commitChecker at hr
  split at hr
  · cases hr
    exact ⟨h.base_le, hready h.applied, h.snapshots, (fun _ hb => nomatch hb),
      fun _ _ hb => nomatch hb⟩
  · cases hr
  · obtain ⟨buf, hbuf, hr⟩ := Option.bind_eq_some_iff.1 hr
    cases hr
    rw [fillBuffer] at hbuf
    split at hbuf
    · cases hbuf
    · refine ⟨h.base_le, hready h.applied, h.snapshots, fun buf' hb => ?_, fun _ _ hb => nomatch hb⟩
      cases hb
      exact ⟨rf.lastApplied, hready h.applied, collect_consecutive h.base_le hbuf⟩
  · cases hr
    exact ⟨h.base_le, hready h.applied, h.snapshots, (fun _ hb => nomatch hb),
      fun _ _ hb => nomatch hb⟩
  · rename_i m buf hch
    cases hr
    obtain ⟨i, hi, hidx, -, hrest⟩ := h.sending _ hch
    refine ⟨h.base_le, hready h.applied, h.snapshots, (fun _ hb => nomatch hb),
      fun m' buf' hb => ?_⟩
    cases hb
    refine ⟨fun j hj hji => ?_, by rwa [hidx]⟩
    rcases Nat.lt_or_ge i j with hlt | hle
    · have : j = m.commandIndex := by omega
      exact Or.inl (this ▸ hmsg m rfl)
    · rcases hi j hj hle with hd | ⟨p, hp, hjp, hpi⟩
      · exact Or.inl (hH j hd)
      · exact Or.inr ⟨p, hp, hjp, by omega⟩
  · rename_i m buf hch
    obtain ⟨hi, hrest⟩ := h.sent _ _ hch
    simp only at hr
    split at hr
    · cases hr
      refine ⟨h.base_le, hready h.applied, h.snapshots, fun buf' hb => ?_,
        fun _ _ hb => nomatch hb⟩
      cases hb
      exact ⟨m.commandIndex, hready hi, hrest⟩
    · rename_i hnext
      cases hr
      have hmax : max m.commandIndex rf.lastApplied = m.commandIndex := by omega
      rw [hmax]
      have hbase := h.base_le
      refine ⟨?_, hready hi, h.snapshots, fun buf' hb => ?_, fun _ _ hb => nomatch hb⟩
      · show rf.lastIncludedIndex ≤ m.commandIndex
        omega
      · cases hb
        exact ⟨m.commandIndex, hready hi, hrest⟩

/-- What waits to be sent is well formed, whatever has been handed over. -/
theorem Served.move (h : Served (fun _ => True) rf) (hm : Move rf rf') :
    Served (fun _ => True) rf' := by
  have hsame : ∀ {rf' : Raft n C}, SameDelivery rf rf' → Served (fun _ => True) rf' :=
    fun hs => h.same (fun _ => id) hs
  cases hm with
  | idle => exact h
  | start command hl => exact hsame ⟨rfl, rfl, rfl, Or.inl rfl⟩
  | preVote hl => exact hsame ⟨rfl, rfl, rfl, Or.inl rfl⟩
  | election => exact hsame ⟨rfl, rfl, rfl, Or.inl rfl⟩
  | handle rpc rpc' _ hr =>
    rcases sameDelivery_handle hr with hs | ⟨args, -, -, rfl⟩
    · exact hsame hs
    · exact h.install args
  | finish rpc server _ hr => exact hsame (sameDelivery_finish hr)
  | commitChecker _ msg hr => exact h.commitChecker hr (fun _ => id) fun _ _ => trivial
  | sendSnapshot k =>
    exact ⟨h.base_le, fun _ _ _ => Or.inl trivial,
      fun p hp => h.snapshots p (List.mem_of_mem_eraseIdx hp),
      fun buf hbuf => (h.sending buf hbuf).imp fun _ hi => ⟨fun _ _ _ => Or.inl trivial, hi.2⟩,
      fun msg buf hbuf => ⟨fun _ _ _ => Or.inl trivial, (h.sent msg buf hbuf).2⟩⟩
  | snapshot index data _ hr =>
    rcases snapshot_cases hr with rfl | ⟨-, -, e, -, rfl⟩
    · exact h
    · exact h.compact e.term data fun _ _ _ => trivial
  | grow => exact hsame ⟨rfl, rfl, rfl, Or.inl rfl⟩
  | crash => exact served_make _ _ fun _ _ => trivial

theorem commitChecker_sends {msg : ApplyMsg C} (h : rf.commitChecker = some (rf', some msg)) :
    ∃ msgBuf, rf.checker = .sending (msg :: msgBuf) := by
  unfold commitChecker at h
  split at h
  · cases h
  · cases h
  · obtain ⟨buf, -, h⟩ := Option.bind_eq_some_iff.1 h
    cases h
  · cases h
  · rename_i m buf hch
    cases h
    exact ⟨buf, hch⟩
  · simp only at h
    split at h <;> cases h

end Raft

/-! ## Runs -/

namespace Cluster

/-- The service compacts the log only up to indices that it has been handed. -/
def SnapshotsHanded (c : Cluster n C) : Action n C → Prop
  | .snapshot s index _ => ∀ j ≤ index, 1 ≤ j → Handed c.trace s (c.epoch s) j
  | _ => True

/-- `CommitChecker` sends no command while a snapshot below it, with something that the service
has not been handed, still waits to be sent. -/
def NoOvertaking (c : Cluster n C) : Action n C → Prop
  | .commitChecker s => ∀ msg ∈ (c.servers s).checker.next, ∀ p ∈ (c.servers s).snapSenders,
      p.snapshotIndex < msg.commandIndex →
        ∀ j ≤ p.snapshotIndex, 1 ≤ j → Handed c.trace s (c.epoch s) j
  | _ => True

instance (c : Cluster n C) : (a : Action n C) → Decidable (c.SnapshotsHanded a)
  | .snapshot s index _ =>
    inferInstanceAs (Decidable (∀ j ≤ index, 1 ≤ j → Handed c.trace s (c.epoch s) j))
  | .start _ _ | .msgComing _ | .timeout _ | .task _ | .encode _ | .deliver _ | .receive _ | .lose _
  | .commitChecker _ | .sendSnapshot _ _ | .grow _ | .crash _ => isTrue trivial

instance (c : Cluster n C) : (a : Action n C) → Decidable (c.NoOvertaking a)
  | .commitChecker s => inferInstanceAs (Decidable (∀ msg ∈ (c.servers s).checker.next,
      ∀ p ∈ (c.servers s).snapSenders, p.snapshotIndex < msg.commandIndex →
        ∀ j ≤ p.snapshotIndex, 1 ≤ j → Handed c.trace s (c.epoch s) j))
  | .start _ _ | .msgComing _ | .timeout _ | .task _ | .encode _ | .deliver _ | .receive _ | .lose _
  | .sendSnapshot _ _ | .snapshot _ _ _ | .grow _ | .crash _ => isTrue trivial

/-- Delivery so far is in order, and every server is ready to go on. -/
structure Delivered (c : Cluster n C) : Prop where
  inOrder : InOrder c.trace
  served : ∀ s, Served (Handed c.trace s (c.epoch s)) (c.servers s)

namespace Delivered

variable {c c' : Cluster n C} {a : Action n C}

/-- Server `s` moves to `rf` and the events `es` happen. -/
theorem move (hd : Delivered c) {s : Fin n} {rf : Raft n C} {es : List (Event n C)}
    (hservers : c'.servers = (c.set s rf).servers) (hepoch : c'.epoch = c.epoch)
    (htrace : c'.trace = c.trace ++ es) (hin : InOrder (c.trace ++ es))
    (hs : Served (Handed (c.trace ++ es) s (c.epoch s)) rf) : Delivered c' := by
  refine ⟨htrace ▸ hin, fun q => ?_⟩
  rw [hservers, hepoch, htrace]
  refine forall_set (P := fun q rf => Served (Handed (c.trace ++ es) q (c.epoch q)) rf)
    (fun q => ?_) hs q
  exact (hd.served q).same (fun j hj => hj.mono fun ev h => List.mem_append_left _ h)
    (SameDelivery.refl _)

/-- Server `s` moves without an event. -/
theorem quiet (hd : Delivered c) {s : Fin n} {rf : Raft n C}
    (hservers : c'.servers = (c.set s rf).servers) (hepoch : c'.epoch = c.epoch)
    (htrace : c'.trace = c.trace)
    (hs : Served (Handed c.trace s (c.epoch s)) rf) : Delivered c' := by
  refine ⟨htrace ▸ hd.inOrder, fun q => ?_⟩
  rw [hservers, hepoch, htrace]
  exact forall_set (P := fun q rf => Served (Handed c.trace q (c.epoch q)) rf) hd.served hs q

theorem act (hd : Delivered c) (hsnap : c.SnapshotsHanded a) (hover : c.NoOvertaking a)
    (hstep : Step c a c') : Delivered c' := by
  have hsame : ∀ {s : Fin n} {rf : Raft n C}, SameDelivery (c.servers s) rf →
      Served (Handed c.trace s (c.epoch s)) rf := fun hs => (hd.served _).same (fun _ h => h) hs
  have hself : ∀ s, c.servers = (c.set s (c.servers s)).servers := fun s => by
    rw [Cluster.set_self]
  have hdone : ∀ {ev : Event n C}, (∀ s epoch msg, ev ≠ .apply s epoch msg) →
      InOrder (c.trace ++ [ev]) := fun hev =>
    hd.inOrder.append _ fun s epoch msg h => absurd h (hev s epoch msg)
  have hmono : ∀ {es : List (Event n C)} {s : Fin n} {epoch j : ℕ}, Handed c.trace s epoch j →
      Handed (c.trace ++ es) s epoch j := fun h => h.mono fun ev hev => List.mem_append_left _ hev
  cases hstep with
  | idle => exact hd
  | start s command hl =>
    refine hd.move rfl rfl rfl (hdone fun _ _ _ h => by cases h) ?_
    exact (hd.served s).same (fun _ h => hmono h) ⟨rfl, rfl, rfl, Or.inl rfl⟩
  | spawn a s gs hl hgs => exact hd.quiet (hself s) rfl rfl (hd.served s)
  | preVote s hl => exact hd.quiet rfl rfl rfl (hsame ⟨rfl, rfl, rfl, Or.inl rfl⟩)
  | election s rf args hcand h =>
    obtain ⟨rfl, -⟩ := beginElection_eq_some h
    exact hd.quiet rfl rfl rfl (hsame ⟨rfl, rfl, rfl, Or.inl rfl⟩)
  | dropTask k => exact ⟨hd.inOrder, hd.served⟩
  | runTask k t rpc ht hep hl hrpc => exact ⟨hd.inOrder, hd.served⟩
  | encode k t j ht hj => exact ⟨hd.inOrder, hd.served⟩
  | deliver k call rf rpc hk h =>
    refine hd.quiet rfl rfl rfl ?_
    rcases sameDelivery_handle h with hs | ⟨args, -, -, rfl⟩
    · exact hsame hs
    · exact (hd.served call.server).install args
  | receive k call rf hk hw he h =>
    refine hd.move rfl rfl rfl ?_ ((hd.served call.caller).same (fun _ h => hmono h)
      (sameDelivery_finish h))
    rw [Cluster.commitEvents]
    split
    · exact hdone fun _ _ _ h => by cases h
    · rw [List.append_nil]
      exact hd.inOrder
  | lose k call hk he => exact ⟨hd.inOrder, hd.served⟩
  | commitChecker s rf msg h =>
    cases msg with
    | none =>
      refine hd.quiet rfl rfl (List.append_nil _) ?_
      exact (hd.served s).commitChecker h (fun _ h => h) fun m hm => by cases hm
    | some msg =>
      obtain ⟨buf, hbuf⟩ := commitChecker_sends h
      obtain ⟨i, hi, hidx, hvalid, -⟩ := (hd.served s).sending _ hbuf
      refine hd.move rfl rfl rfl ?_ ?_
      · refine hd.inOrder.append _ fun s' epoch msg' hev hv j hj hlt => ?_
        cases hev
        rcases hi j hj (by omega) with hh | ⟨p, hp, hjp, hpi⟩
        · exact hh
        · exact hover msg (by rw [hbuf]; rfl) p hp (by omega) j hjp hj
      · refine (hd.served s).commitChecker h (fun _ h => hmono h) fun m hm => ?_
        cases hm
        exact ⟨_, List.mem_append_right _ (List.mem_singleton.2 rfl),
          rfl, rfl, Or.inl ⟨hvalid, rfl⟩⟩
  | sendSnapshot s k msg h =>
    have hvalid := (hd.served s).snapshots msg (List.mem_of_getElem? h)
    refine hd.move rfl rfl rfl ?_ ?_
    · refine hd.inOrder.append _ fun s' epoch msg' hev hv => ?_
      cases hev
      rw [hvalid.2] at hv
      cases hv
    · refine (hd.served s).sendSnapshot h (fun _ h => hmono h) fun j hj => ?_
      exact ⟨_, List.mem_append_right _ (List.mem_singleton.2 rfl), rfl, rfl,
        Or.inr ⟨hvalid.1, hj⟩⟩
  | snapshot s index data rf h =>
    refine hd.quiet rfl rfl rfl ?_
    rcases snapshot_cases h with rfl | ⟨-, -, e, -, rfl⟩
    · exact hd.served s
    · exact (hd.served s).compact e.term data hsnap
  | grow s => exact hd.quiet rfl rfl rfl (hsame ⟨rfl, rfl, rfl, Or.inl rfl⟩)
  | crash s =>
    refine ⟨hdone (fun _ _ _ h => by cases h), fun q => ?_⟩
    by_cases hq : q = s
    · subst hq
      simp only [Cluster.restart, Cluster.emit, Cluster.set, Function.update_self]
      refine served_make q _ fun j hj => ?_
      exact ⟨_, List.mem_append_right _ (List.mem_singleton.2 rfl), rfl, rfl, hj⟩
    · simp only [Cluster.restart, Cluster.emit, Cluster.set, Function.update_of_ne hq]
      exact (hd.served q).same (fun _ h => hmono h) (SameDelivery.refl _)

/-- **The invariant is kept by every step** in which the service keeps its side and no command
overtakes a snapshot. -/
theorem step (hd : Delivered c) (hsnap : c.SnapshotsHanded a)
    (hover : c.NoOvertaking a) (hstep : c.step a = some c') : Delivered c' := by
  obtain ⟨c₀, hs, rfl⟩ := Cluster.step_cases hstep
  have hd₀ := hd.act hsnap hover hs
  exact ⟨hd₀.inOrder, hd₀.served⟩

theorem init : Delivered (Cluster.init : Cluster n C) where
  inOrder k s epoch msg h := by simp [Cluster.init] at h
  served s := ⟨le_rfl, fun j hj hj' => absurd hj' (Nat.not_le.2 hj), fun p hp => (nomatch hp),
    fun _ hb => (nomatch hb), fun _ _ hb => (nomatch hb)⟩

end Delivered

end Cluster

/-- **Delivery order.** In a run in which the service compacts only what it has been handed, and in
which no command overtakes a snapshot that the service still needs, every command is handed over
after all smaller indices. -/
theorem deliveryOrder {c : Cluster n C} {as : List (Action n C)}
    (hsnap : Along Cluster.step Cluster.SnapshotsHanded Cluster.init as)
    (hover : Along Cluster.step Cluster.NoOvertaking Cluster.init as)
    (h : run Cluster.step Cluster.init as = some c) : InOrder c.trace := by
  have hd : c.Delivered := run_induction (P := Cluster.Delivered)
    (fun c a c' hP hC hstep => Cluster.Delivered.step hP hC.1 hC.2 hstep) (hsnap.and hover) h
    Cluster.Delivered.init
  exact hd.inOrder

/-- Server 0 of three leads term 2. Its first command reaches server 2, but the reply is lost; the
command is committed with server 1, delivered and compacted, so that server 2 is sent a snapshot.
A second command is then replicated to server 2 and committed there. -/
def snapshotRun : List (Action 3 ℕ) :=
  [.timeout 0, .deliver 0, .receive 0, .timeout 0, .deliver 2, .receive 2,
    .commitChecker 0, .commitChecker 2,
    .start 0 7, .msgComing 0, .task 0, .task 0, .deliver 4, .receive 4, .deliver 5, .lose 5,
    .commitChecker 0, .commitChecker 0, .snapshot 0 1 [1],
    .msgComing 0, .task 0, .task 0, .deliver 7, .receive 7,
    .start 0 8, .msgComing 0, .task 1, .deliver 8, .receive 8,
    .msgComing 0, .task 2, .deliver 9]

/-- Server 2 sends the second command before the snapshot that holds the first. -/
def overtakingRun : List (Action 3 ℕ) :=
  snapshotRun ++ ([.commitChecker 2, .commitChecker 2] : List (Action 3 ℕ))

theorem deliveryOrder_fails :
    ∃ c : Cluster 3 ℕ, run Cluster.step Cluster.init overtakingRun = some c ∧
      Along Cluster.step Cluster.SnapshotsHanded Cluster.init overtakingRun ∧
      ¬ InOrder c.trace := by
  have h : ∃ c : Cluster 3 ℕ, run Cluster.step Cluster.init overtakingRun = some c ∧
      c.trace[5]? = some (.apply 2 0
        { commandValid := true, command := 8, commandIndex := 2, commandTerm := 2 }) ∧
      ¬ Handed (c.trace.take 5) 2 0 1 := by
    decide +kernel
  obtain ⟨c, hc, hsent, hlost⟩ := h
  exact ⟨c, hc, by decide +kernel, fun hin => hlost (hin 5 2 0 _ hsent rfl 1 le_rfl (by decide))⟩

/-- The snapshot is sent first. -/
def orderlyRun : List (Action 3 ℕ) :=
  snapshotRun ++ ([.sendSnapshot 2 0, .commitChecker 2, .commitChecker 2] : List (Action 3 ℕ))

theorem deliveryOrder_orderlyRun :
    ∃ c : Cluster 3 ℕ, run Cluster.step Cluster.init orderlyRun = some c ∧
      c.trace.length = 7 ∧ InOrder c.trace := by
  have h : ∃ c : Cluster 3 ℕ, run Cluster.step Cluster.init orderlyRun = some c ∧
      c.trace.length = 7 := by
    decide +kernel
  obtain ⟨c, hc, hlength⟩ := h
  exact ⟨c, hc, hlength, deliveryOrder (by decide +kernel) (by decide +kernel) hc⟩

/-! ## The terms of commands -/

namespace Raft

variable {rf rf' : Raft n C}

/-- What `CommitChecker` still has to send. -/
def Checker.buffer : Checker C → List (ApplyMsg C)
  | .sending msgBuf | .sent _ msgBuf => msgBuf
  | .loop | .waiting | .woken => []

/-- A new message in the buffer has no `SnapshotTerm`. -/
theorem Move.mem_buffer (hm : Move rf rf') {msg : ApplyMsg C} (hmsg : msg ∈ rf'.checker.buffer) :
    msg ∈ rf.checker.buffer ∨ msg.snapshotTerm = 0 := by
  have hsame : SameDelivery rf rf' → msg ∈ rf.checker.buffer ∨ msg.snapshotTerm = 0 := by
    intro hs
    rcases hs.checker with he | ⟨-, he⟩
    · exact Or.inl (he ▸ hmsg)
    · rw [he] at hmsg
      cases hmsg
  cases hm with
  | idle => exact Or.inl hmsg
  | start command hl => exact Or.inl hmsg
  | preVote hl => exact Or.inl hmsg
  | election => exact Or.inl hmsg
  | handle rpc rpc' _ hr =>
    rcases sameDelivery_handle hr with hs | ⟨args, -, -, rfl⟩
    · exact hsame hs
    · exact Or.inl hmsg
  | finish rpc server _ hr => exact hsame (sameDelivery_finish hr)
  | commitChecker _ sent hr =>
    unfold Raft.commitChecker at hr
    split at hr
    · cases hr
      cases hmsg
    · cases hr
    · obtain ⟨buf, hbuf, hr⟩ := Option.bind_eq_some_iff.1 hr
      cases hr
      rw [fillBuffer] at hbuf
      split at hbuf
      · cases hbuf
      · exact Or.inr (collect_terms hbuf msg hmsg).1
    · cases hr
      cases hmsg
    · rename_i first buf hch
      cases hr
      rw [hch]
      exact Or.inl (List.mem_cons_of_mem first hmsg)
    · rename_i first buf hch
      rw [hch]
      simp only at hr
      split at hr <;> cases hr <;> exact Or.inl hmsg
  | sendSnapshot k => exact Or.inl hmsg
  | snapshot index data _ hr =>
    rcases snapshot_cases hr with rfl | ⟨-, -, e, -, rfl⟩ <;> exact Or.inl hmsg
  | grow => exact Or.inl hmsg
  | crash =>
    rw [make_checker] at hmsg
    cases hmsg

end Raft

namespace Cluster

variable {c c' : Cluster n C} {a : Action n C}

/-- A message on `applyCh` comes from the buffer of `CommitChecker` or is a snapshot's. -/
theorem Step.mem_apply (h : Step c a c') {s : Fin n} {epoch : ℕ} {msg : ApplyMsg C}
    (hmsg : .apply s epoch msg ∈ c'.trace) :
    .apply s epoch msg ∈ c.trace ∨ msg ∈ (c.servers s).checker.buffer ∨
      msg ∈ (c.servers s).snapSenders := by
  cases h with
  | start s' command hl =>
    rcases List.mem_append.1 hmsg with hmsg | hmsg
    · exact Or.inl hmsg
    · cases List.mem_singleton.1 hmsg
  | receive k call rf hk hw he h =>
    rcases List.mem_append.1 hmsg with hmsg | hmsg
    · exact Or.inl hmsg
    · rw [commitEvents] at hmsg
      split at hmsg
      · cases List.mem_singleton.1 hmsg
      · cases hmsg
  | commitChecker s' rf sent h =>
    rcases List.mem_append.1 hmsg with hmsg | hmsg
    · exact Or.inl hmsg
    · obtain ⟨msg', hsent, heq⟩ := List.mem_map.1 hmsg
      cases heq
      rw [Option.mem_toList] at hsent
      rw [hsent] at h
      obtain ⟨buf, hbuf⟩ := commitChecker_sends h
      rw [hbuf]
      exact Or.inr (Or.inl List.mem_cons_self)
  | sendSnapshot s' k msg' h =>
    rcases List.mem_append.1 hmsg with hmsg | hmsg
    · exact Or.inl hmsg
    · cases List.mem_singleton.1 hmsg
      exact Or.inr (Or.inr (List.mem_of_getElem? h))
  | crash s' =>
    rcases List.mem_append.1 hmsg with hmsg | hmsg
    · exact Or.inl hmsg
    · cases List.mem_singleton.1 hmsg
  | _ => exact Or.inl hmsg

/-- `SnapshotTerm` is set in no command, waiting or sent. -/
structure Unset (c : Cluster n C) : Prop where
  sound : c.Sound
  served : ∀ s, Served (fun _ => True) (c.servers s)
  buffers : ∀ s, ∀ msg ∈ (c.servers s).checker.buffer, msg.snapshotTerm = 0
  commands : ∀ s epoch msg, .apply s epoch msg ∈ c.trace → msg.commandValid = true →
    msg.snapshotTerm = 0

/-- What waits to be sent. -/
theorem Unset.waiting (h : c.Unset) {s : Fin n} {msg : ApplyMsg C}
    (hmsg : msg ∈ (c.servers s).checker.buffer ∨ msg ∈ (c.servers s).snapSenders)
    (hvalid : msg.commandValid = true) : msg.snapshotTerm = 0 := by
  rcases hmsg with hbuf | hsnap
  · exact h.buffers s msg hbuf
  · rw [((h.served s).snapshots msg hsnap).2] at hvalid
    cases hvalid

theorem Unset.step (h : c.Unset) (hstep : c.step a = some c') : c'.Unset := by
  have hsound := h.sound.step hstep
  obtain ⟨c₀, hcases, rfl⟩ := step_cases hstep
  have hmove := hcases.move h.sound
  refine ⟨hsound, fun s => (h.served s).move (hmove s), fun s msg hmsg => ?_,
    fun s epoch msg hmsg hvalid => ?_⟩
  · rcases (hmove s).mem_buffer hmsg with hold | hnew
    · exact h.buffers s msg hold
    · exact hnew
  · rcases hcases.mem_apply hmsg with hold | hwaiting
    · exact h.commands s epoch msg hold hvalid
    · exact h.waiting hwaiting hvalid

theorem unset_of_run {as : List (Action n C)} (h : run step init as = some c) : c.Unset := by
  refine run_invariant (fun _ _ _ hc hstep => hc.step hstep) h ⟨sound_init, fun s => ?_,
    fun s msg hmsg => ?_, fun s epoch msg hmsg => ?_⟩
  · exact served_make s {} fun _ _ => trivial
  · cases hmsg
  · cases hmsg

/-- **No command has a `SnapshotTerm`**, in any run: the term of an entry is in `CommandTerm`. -/
theorem snapshotTerm_of_command {as : List (Action n C)} (h : run step init as = some c) {s : Fin n}
    {epoch : ℕ} {msg : ApplyMsg C} (hmsg : .apply s epoch msg ∈ c.trace)
    (hvalid : msg.commandValid = true) : msg.snapshotTerm = 0 :=
  (unset_of_run h).commands s epoch msg hmsg hvalid

end Cluster

end DistSys
