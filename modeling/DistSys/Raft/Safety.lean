import DistSys.Raft.Delivery
import DistSys.Raft.LogMatching
import DistSys.Raft.RefinementLogs

/-!
# State Machine Safety and Leader Completeness

Both follow from the refinement: what a server hands to its service is committed in the protocol,
committed segments are comparable, and the log of every later leader begins with them.

* `stateMachineSafety` — in a run without compaction, two command messages with one index are equal.
  This needs `NoOverwrite`: in `divergedRun` the overwritten request of `overwrittenRun` makes two
  logs differ at an index below one at which they have the same term, and both are delivered.
* `leaderCompleteness` — with compaction, a server that becomes a leader has what was committed, in
  its log or in its snapshot. This also needs `NoStaleSnapshot`: `InstallSnapshot` accepts a
  snapshot older than the server's own, and empties the log when it does. In `staleSnapshotRun` a
  server so forgets an entry that it had acknowledged, and votes for a leader without it
  (`leaderCompleteness_fails`).
-/

namespace DistSys

open Raft

variable {n : ℕ} {C : Type} [Inhabited C]

/-! ## Runs -/

section Runs

variable {covers : Data → ℕ → LogEntry C → Prop} {c : Cluster n C} {as : List (Action n C)}

theorem Sim.init : Sim covers (Cluster.init : Cluster n C) History.init (Proto.init 1) where
  inv := Proto.Inv.init 1
  vote _ _ := rfl
  lead _ := rfl
  own := nofun
  servers _ :=
    { term := rfl
      backs := ⟨le_rfl, ⟨_, rfl, fun _ => rfl, nofun⟩, rfl⟩
      voted := rfl
      commit_base := le_rfl
      commit_le := le_rfl
      committed := Or.inl rfl
      covered := fun _ _ hi => absurd hi (Nat.not_lt_zero _)
      outgoing := fun _ hmsg => absurd hmsg List.not_mem_nil
      shown := nofun }
  tasks _ ht := absurd ht List.not_mem_nil
  calls _ hcall := absurd hcall List.not_mem_nil
  matched _ _ _ := Nat.zero_le _
  trace _ hev := absurd hev List.not_mem_nil

/-- Every run that overwrites no request and accepts no stale snapshots is a run of the protocol. -/
theorem exists_sim (hno : Along Cluster.step Cluster.NoOverwrite Cluster.init as)
    (hstale : Along Cluster.step Cluster.NoStaleSnapshot Cluster.init as)
    (hcov : Along Cluster.step (Cluster.SnapshotsCover covers) Cluster.init as)
    (h : run Cluster.step Cluster.init as = some c) :
    ∃ g p, Elected c g ∧ Sim covers c g p :=
  (Cluster.Intact.init.run_induction (P := fun c => ∃ g p, Elected c g ∧ Sim covers c g p)
    (fun c a c' hc hP hC hstep => by
      obtain ⟨g, p, he, hs⟩ := hP
      obtain ⟨p', -, hs'⟩ := hs.act he hc.mirrored hC.1 hC.2 hstep
      exact ⟨_, p', he.act hstep, hs'⟩) hno (hstale.and hcov) h ⟨_, _, Elected.init, Sim.init⟩).2

/-- The same, when nothing is asked of the service. -/
theorem exists_sim_true (hno : Along Cluster.step Cluster.NoOverwrite Cluster.init as)
    (hstale : Along Cluster.step Cluster.NoStaleSnapshot Cluster.init as)
    (h : run Cluster.step Cluster.init as = some c) :
    ∃ g p, Elected c g ∧ Sim (fun _ _ _ => True) c g p :=
  exists_sim hno hstale (hstale.mono fun c a _ => c.snapshotsCover_true a) h

/-- What holds at first and is kept by every action of a cluster that the protocol mirrors. -/
theorem sim_induction {P : Cluster n C → Prop}
    (hP : ∀ c g p a c', Elected c g → Sim (fun _ _ _ => True) c g p → P c → c.NoStaleSnapshot a →
      Cluster.Step c a c' → P c')
    (hno : Along Cluster.step Cluster.NoOverwrite Cluster.init as)
    (hstale : Along Cluster.step Cluster.NoStaleSnapshot Cluster.init as)
    (h : run Cluster.step Cluster.init as = some c) (hinit : P Cluster.init) :
    (∃ g p, Elected c g ∧ Sim (fun _ _ _ => True) c g p) ∧ P c :=
  (Cluster.Intact.init.run_induction
    (P := fun c => (∃ g p, Elected c g ∧ Sim (fun _ _ _ => True) c g p) ∧ P c)
    (fun c a c' hc hc' hC hstep => by
      obtain ⟨⟨g, p, he, hs⟩, hp⟩ := hc'
      obtain ⟨p', -, hs'⟩ := hs.act he hc.mirrored hC (c.snapshotsCover_true a) hstep
      exact ⟨⟨_, p', he.act hstep, hs'⟩, hP c g p a c' he hs hp hC hstep⟩)
    hno hstale h ⟨⟨_, _, Elected.init, Sim.init⟩, hinit⟩).2

end Runs

/-! ## Without compaction -/

namespace Cluster

variable {c c' : Cluster n C} {a : Action n C}

/-- No log has been compacted, and every snapshot on its way is empty. -/
structure Uncompacted (c : Cluster n C) : Prop where
  base : ∀ s, (c.servers s).lastIncludedIndex = 0
  calls : ∀ call ∈ c.calls, ∀ args reply, call.rpc = .installSnapshot args reply →
    args.lastIncludedIndex = 0

namespace Uncompacted

theorem noStaleSnapshot (hu : c.Uncompacted) (a : Action n C) : c.NoStaleSnapshot a := by
  cases a with
  | deliver k =>
    intro call _
    unfold Rpc.Fresh
    split
    · exact fun _ => by rw [hu.base]; exact Nat.zero_le _
    · trivial
  | _ => trivial

/-- A request leaves `lastIncludedIndex` alone, unless it brings a snapshot. -/
theorem base_handle {rf rf' : Raft n C} {rpc rpc' : Rpc n C} (hb : rf.lastIncludedIndex = 0)
    (hhandle : rpc.handle rf = some (rf', rpc'))
    (hargs : ∀ args reply, rpc = .installSnapshot args reply → args.lastIncludedIndex = 0) :
    rf'.lastIncludedIndex = 0 := by
  rcases Rpc.handle_cases hhandle with ⟨args, reply, -, -, hr⟩ | ⟨args, reply, -, -, hr⟩ |
    ⟨-, -, rfl⟩ | ⟨args, reply, hrpc, -, hr⟩
  · have hadopt := (sameLog_adoptTerm rf args.term).lastIncludedIndex
    rcases appendEntries_cases hr with ⟨rfl, -⟩ | ⟨-, -, rfl⟩ | ⟨-, -, -, rfl⟩
    · exact hb
    · exact hadopt.trans hb
    · obtain ⟨ch, hch, -⟩ := acceptEntries_eq (rf.adoptTerm args.term) args
      rw [hch]
      exact hadopt.trans hb
  · exact (sameLog_requestVote hr).lastIncludedIndex.trans hb
  · exact hb
  · have hcases := installSnapshot_cases rf args
    rw [hr] at hcases
    rcases hcases with rfl | ⟨-, rfl⟩
    · exact hb
    · exact hargs args none hrpc

theorem act (hu : c.Uncompacted) (hc : c.Sound) (hsnap : ∀ s index data, a ≠ .snapshot s index data)
    (hcases : Step c a c') : c'.Uncompacted := by
  refine ⟨fun s => ?_, fun call hcall args reply hrpc => ?_⟩
  · have hb := hu.base s
    have hlog := hcases.logStep hc s
    generalize c'.servers s = rf at hlog ⊢
    cases hlog with
    | same _ hsame hterm => exact hsame.lastIncludedIndex.trans hb
    | start command => exact hb
    | handle k call _ rpc ha hk hserver h =>
      exact base_handle hb h (hu.calls call (List.mem_of_getElem? hk))
    | snapshot index data _ ha h => exact absurd ha (hsnap s index data)
  · rcases hcases.mem_installSnapshot hcall hrpc with ⟨old, hold, reply', hold'⟩ | ⟨s, -, hargs⟩
    · exact hu.calls old hold args reply' hold'
    · rw [(installSnapshotArgs_eq_some hargs).2.2.1]
      exact hu.base s

end Uncompacted

end Cluster

/-- A run without compaction that overwrites no request is a run of the protocol. -/
theorem exists_sim_of_no_snapshot {c : Cluster n C} {as : List (Action n C)}
    (hno : Along Cluster.step Cluster.NoOverwrite Cluster.init as)
    (hsnap : ∀ a ∈ as, ∀ s index data, a ≠ Action.snapshot s index data)
    (h : run Cluster.step Cluster.init as = some c) :
    ∃ g p, Elected c g ∧ Sim (fun _ _ _ => True) c g p := by
  obtain ⟨-, -, g, p, he, hs⟩ := Cluster.Intact.init.run_induction
    (P := fun c => c.Uncompacted ∧ ∃ g p, Elected c g ∧ Sim (fun _ _ _ => True) c g p)
    (fun c a c' hc hP ha hstep => by
      obtain ⟨hu, g, p, he, hs⟩ := hP
      obtain ⟨p', -, hs'⟩ :=
        hs.act he hc.mirrored (hu.noStaleSnapshot a) (c.snapshotsCover_true a) hstep
      exact ⟨hu.act he.sound ha hstep, _, p', he.act hstep, hs'⟩)
    hno (along_of_forall hsnap) h
    ⟨⟨fun _ => rfl, fun _ hcall => absurd hcall List.not_mem_nil⟩, _, _, Elected.init, Sim.init⟩
  exact ⟨g, p, he, hs⟩

/-- Messages for one index carry one entry. -/
theorem Proto.Inv.approved_eq {p : Proto (Fin n) (LogEntry C)} (hinv : p.Inv)
    {msg₁ msg₂ : ApplyMsg C} (h₁ : Approved p msg₁) (h₂ : Approved p msg₂)
    (hv₁ : msg₁.commandValid = true) (hv₂ : msg₂.commandValid = true)
    (hi : msg₁.commandIndex = msg₂.commandIndex) :
    msg₁.command = msg₂.command ∧ msg₁.commandTerm = msg₂.commandTerm := by
  obtain ⟨t₁, i₁, hi₁, P₁, hP₁, he₁⟩ := h₁ hv₁
  obtain ⟨t₂, i₂, hi₂, P₂, hP₂, he₂⟩ := h₂ hv₂
  obtain rfl : i₁ = i₂ := by omega
  have he := hinv.committed_getElem? hP₁ hP₂ he₁ he₂
  rw [LogEntry.mk.injEq] at he
  exact ⟨he.2, he.1⟩

/-- **State Machine Safety.** In a run in which no service compacts its log and no request is
overwritten before it is encoded, no two servers send command messages with the same index and a
different command or term. -/
theorem stateMachineSafety {c : Cluster n C} {as : List (Action n C)}
    (hno : Along Cluster.step Cluster.NoOverwrite Cluster.init as)
    (hsnap : ∀ a ∈ as, ∀ s index data, a ≠ Action.snapshot s index data)
    (h : run Cluster.step Cluster.init as = some c) {s₁ s₂ : Fin n} {epoch₁ epoch₂ : ℕ}
    {msg₁ msg₂ : ApplyMsg C} (h₁ : Event.apply s₁ epoch₁ msg₁ ∈ c.trace)
    (h₂ : Event.apply s₂ epoch₂ msg₂ ∈ c.trace) (hv₁ : msg₁.commandValid = true)
    (hv₂ : msg₂.commandValid = true) (hi : msg₁.commandIndex = msg₂.commandIndex) :
    msg₁.command = msg₂.command ∧ msg₁.commandTerm = msg₂.commandTerm := by
  obtain ⟨g, p, -, hs⟩ := exists_sim_of_no_snapshot hno hsnap h
  exact hs.inv.approved_eq (hs.trace _ h₁) (hs.trace _ h₂) hv₁ hv₂ hi

/-- Server 0 leads term 2, commits a command with server 1, and both deliver it. -/
def deliveredRun : List (Action 3 ℕ) :=
  firstElection ++ ([.commitChecker 0, .commitChecker 1, .start 0 7, .msgComing 0, .task 0,
    .deliver 4, .receive 4, .msgComing 0, .task 1, .deliver 5,
    .commitChecker 0, .commitChecker 0, .commitChecker 1, .commitChecker 1] : List (Action 3 ℕ))

theorem stateMachineSafety_deliveredRun :
    ∃ c : Cluster 3 ℕ, run Cluster.step Cluster.init deliveredRun = some c ∧
      .apply 0 0 { commandValid := true, command := 7, commandIndex := 1, commandTerm := 2 } ∈
        c.trace ∧
      ∀ epoch msg, .apply 1 epoch msg ∈ c.trace → msg.commandValid = true → msg.commandIndex = 1 →
        msg.command = 7 ∧ msg.commandTerm = 2 := by
  have h : ∃ c : Cluster 3 ℕ, run Cluster.step Cluster.init deliveredRun = some c ∧
      .apply 0 0 { commandValid := true, command := 7, commandIndex := 1, commandTerm := 2 } ∈
        c.trace := by
    decide +kernel
  obtain ⟨c, hc, happly⟩ := h
  refine ⟨c, hc, happly, fun epoch msg hmsg hv hi => ?_⟩
  refine stateMachineSafety (by decide +kernel) ?_ hc hmsg happly hv rfl hi
  simp [deliveredRun, firstElection]

/-- No server crashes or compacts its log. -/
def Raft.Action.Undisturbed : Action n C → Bool
  | .snapshot _ _ _ | .crash _ => false
  | _ => true

/-- After `overwrittenRun` servers 2, 4 and 5 elect server 3 in term 4. Its log and that of server 2
have the same term at index 3, so that its command 6 is accepted on top of both. It is committed,
and the two servers deliver their logs. -/
def divergedRun : List (Action 7 ℕ) := List.flatten
  [overwrittenRun, [.timeout 3], answered [30, 31, 32], [.timeout 3, .timeout 3],
    answered [42, 43, 44],
    [.start 3 6, .commitChecker 2, .commitChecker 3, .msgComing 3, .task 16, .task 16, .task 16],
    answered [46, 47, 48], [.msgComing 3, .task 20, .task 20], answered [49, 50],
    [.msgComing 3, .task 23, .deliver 51], List.replicate 4 (.commitChecker 2),
    List.replicate 4 (.commitChecker 3)]

theorem stateMachineSafety_fails :
    ∃ c : Cluster 7 ℕ, run Cluster.step Cluster.init divergedRun = some c ∧
      (∀ a ∈ divergedRun, a.Undisturbed) ∧
      .apply 2 0 { commandValid := true, command := 5, commandIndex := 2, commandTerm := 3 } ∈
        c.trace ∧
      .apply 3 0 { commandValid := true, command := 8, commandIndex := 2, commandTerm := 2 } ∈
        c.trace := by
  decide +kernel

/-! ## With compaction -/

/-- An advance of `commitIndex` by a leader of term `T` covers entry `e` at index `i`. -/
def Raft.Event.Commits (T : ℤ) (i : ℕ) (e : LogEntry C) : Event n C → Prop
  | .commit _ t base entries => t = T ∧ ∃ k, i = base + k + 1 ∧ entries[k]? = some e
  | _ => False

/-- Entry `e` at index `i` is in the log, or below `lastIncludedIndex` and covered by the
snapshot. -/
def Raft.Keeps (covers : Data → ℕ → LogEntry C → Prop) (rf : Raft n C) (i : ℕ) (e : LogEntry C) :
    Prop :=
  (rf.lastIncludedIndex < i ∧ rf.logAt i = some e) ∨
    (i ≤ rf.lastIncludedIndex ∧ covers rf.snapShot i e)

theorem Raft.not_keeps {rf : Raft n C} {i : ℕ} {e : LogEntry C} (hbase : rf.lastIncludedIndex < i)
    (hlog : rf.logAt i ≠ some e)
    (covers : Data → ℕ → LogEntry C → Prop) : ¬ rf.Keeps covers i e := by
  rintro (⟨-, hsome⟩ | ⟨hle, -⟩)
  · exact hlog hsome
  · omega

/-- Entries of terms below `t` were not committed by leaders of terms above `t`. -/
def Raft.Event.NotAhead (t : ℤ) : Event n C → Prop
  | .commit _ T _ entries => ∀ e ∈ entries, e.term < t → T ≤ t
  | _ => True

/-- The reply brings the last vote that the candidate `rf` needs. -/
def Raft.Rpc.Decides (rf : Raft n C) : Rpc n C → Prop
  | .requestVote args (some reply) =>
    rf.currentTerm = args.term ∧ reply.voteGranted = true ∧ n / 2 < rf.voteCount + 1
  | _ => False

/-- No server wins an old term with votes that were late: one that receives the last vote it needs
is not behind the leaders that have committed entries of terms below its own. -/
def Cluster.NoLateWinner (c : Cluster n C) : Action n C → Prop
  | .receive k => ∀ call ∈ c.calls[k]?, call.rpc.Decides (c.servers call.caller) →
      ∀ ev ∈ c.trace, ev.NotAhead (c.servers call.caller).currentTerm
  | _ => True

instance (t : ℤ) : (ev : Event n C) → Decidable (ev.NotAhead t)
  | .commit _ T _ entries => inferInstanceAs (Decidable (∀ e ∈ entries, e.term < t → T ≤ t))
  | .make _ _ _ | .start _ _ _ _ | .apply _ _ _ => isTrue trivial

instance (rf : Raft n C) : (rpc : Rpc n C) → Decidable (rpc.Decides rf)
  | .requestVote args (some reply) => inferInstanceAs (Decidable
      (rf.currentTerm = args.term ∧ reply.voteGranted = true ∧ n / 2 < rf.voteCount + 1))
  | .requestVote _ none | .appendEntries _ _ | .preVote _ | .installSnapshot _ _ => isFalse id

instance (c : Cluster n C) : (a : Action n C) → Decidable (c.NoLateWinner a)
  | .receive k => inferInstanceAs (Decidable (∀ call ∈ c.calls[k]?,
      call.rpc.Decides (c.servers call.caller) →
        ∀ ev ∈ c.trace, ev.NotAhead (c.servers call.caller).currentTerm))
  | .start _ _ | .msgComing _ | .timeout _ | .task _ | .encode _ | .deliver _ | .lose _
  | .commitChecker _ | .sendSnapshot _ _ | .snapshot _ _ _ | .grow _ | .crash _ => isTrue trivial

theorem Raft.Event.Commits.le_of_notAhead {ev : Event n C} {t T : ℤ} {i : ℕ} {e : LogEntry C}
    (h : ev.Commits T i e) (hn : ev.NotAhead t) (ht : e.term < t) : T ≤ t := by
  cases ev with
  | commit q T base entries =>
    obtain ⟨rfl, k, -, hk⟩ := h
    exact hn e (List.mem_of_getElem? hk) ht
  | make s epoch base => exact h.elim
  | start s i t command => exact h.elim
  | apply s epoch msg => exact h.elim

/-- A leader keeps what was committed in terms up to its own. -/
theorem Sim.keeps_of_leader {covers : Data → ℕ → LogEntry C → Prop} {c : Cluster n C}
    {g : History n} {p : Proto (Fin n) (LogEntry C)} (h : Sim covers c g p) (he : Elected c g)
    {s : Fin n} (hl : (c.servers s).state = .leader) {ev : Event n C} (hev : ev ∈ c.trace) {T : ℤ}
    {i : ℕ} {e : LogEntry C} (hcommits : ev.Commits T i e) (hT : T ≤ (c.servers s).currentTerm) :
    (c.servers s).Keeps covers i e := by
  have hs := h.servers s
  obtain ⟨hlead, -⟩ := h.lead_log (he.led s hl)
  cases ev with
  | commit q t base entries =>
    obtain ⟨rfl, k, rfl, hk⟩ := hcommits
    obtain ⟨P, hP, hPk⟩ := h.trace _ hev k e hk
    obtain ⟨X, hX⟩ := h.inv.prefix_lead_of_committed hP hT hlead
    have hat : (p.log s)[base + k]? = some e := by
      rw [← hX, List.getElem?_append_left (List.getElem?_eq_some_iff.1 hPk).1, hPk]
    rcases Nat.lt_or_ge (base + k) (c.servers s).lastIncludedIndex with hlt | hge
    · exact Or.inr ⟨hlt, hs.covered _ _ hlt hat⟩
    · exact Or.inl ⟨by omega, by rw [hs.backs.logAt_eq hge, hat]⟩
  | make s epoch base => exact hcommits.elim
  | start s i t command => exact hcommits.elim
  | apply s epoch msg => exact hcommits.elim

/-- **Leader Completeness.** In a run in which no request is overwritten before it is encoded, no
server accepts a snapshot older than its own and no server wins an old term late, a server that
becomes a leader in a term above that of a committed entry has this entry, in its log or in its
snapshot. -/
theorem leaderCompleteness {covers : Data → ℕ → LogEntry C → Prop} {c c' : Cluster n C}
    {as : List (Action n C)} {a : Action n C}
    (hno : Along Cluster.step Cluster.NoOverwrite Cluster.init (as ++ [a]))
    (hcov : Along Cluster.step (Cluster.SnapshotsCover covers) Cluster.init (as ++ [a]))
    (hstale : Along Cluster.step Cluster.NoStaleSnapshot Cluster.init (as ++ [a]))
    (hlate : Along Cluster.step Cluster.NoLateWinner Cluster.init (as ++ [a]))
    (h : run Cluster.step Cluster.init as = some c) (hstep : c.step a = some c') {s : Fin n}
    (hold : (c.servers s).state ≠ .leader) (hnew : (c'.servers s).state = .leader)
    {ev : Event n C} (hev : ev ∈ c.trace) {T : ℤ} {i : ℕ} {e : LogEntry C}
    (hcommits : ev.Commits T i e) (ht : e.term < (c'.servers s).currentTerm) :
    (c'.servers s).Keeps covers i e := by
  obtain ⟨g, p, he, hs⟩ :=
    exists_sim (hno.of_append h).1 (hstale.of_append h).1 (hcov.of_append h).1 h
  have hc : c.Intact := .of_run h (hno.of_append h).1
  have hstep := hc.step_cases (hno.of_append h).2.1 hstep
  have hT : T ≤ (c'.servers s).currentTerm := by
    obtain ⟨k, call, args, reply, rfl, hk, rfl, -, -, hrpc, hterm, hg, -, hmaj, hsame⟩ :=
      (he.leader_cases hstep hnew).resolve_left fun hl => hold hl.1
    have hdec : call.rpc.Decides (c.servers call.caller) := by
      rw [hrpc]
      exact ⟨hterm, hg, hmaj⟩
    rw [hsame] at ht ⊢
    exact hcommits.le_of_notAhead ((hlate.of_append h).2.1 call hk hdec ev hev) ht
  obtain ⟨p', -, hs'⟩ :=
    hs.act he hc.mirrored (hstale.of_append h).2.1 (hcov.of_append h).2.1 hstep
  exact hs'.keeps_of_leader (he.act hstep) hnew (hstep.trace.subset hev) hcommits hT

/-- Server 0 of three leads term 2. Its first command reaches server 2, but the reply is lost; the
command is committed with server 1, delivered and compacted, so that server 2 is sent a snapshot.
This call (number 6) is late, and server 2 installs the snapshot from the second try. The second
command is committed with server 2, which learns of it. -/
def retriedRun : List (Action 3 ℕ) :=
  [.timeout 0, .deliver 0, .receive 0, .timeout 0, .deliver 2, .receive 2,
    .commitChecker 0, .commitChecker 2,
    .start 0 7, .msgComing 0, .task 0, .task 0, .deliver 4, .receive 4, .deliver 5, .lose 5,
    .commitChecker 0, .commitChecker 0, .snapshot 0 1 [7],
    .msgComing 0, .task 1, .lose 6, .deliver 7, .receive 7, .sendSnapshot 2 0,
    .start 0 8, .msgComing 0, .task 2, .deliver 8, .receive 8, .msgComing 0, .task 3, .deliver 9]

/-- Server 2 delivers and compacts the second command. Then the late snapshot arrives, and server 2
votes for server 1, which has only the first command. -/
def staleSnapshotRun : List (Action 3 ℕ) :=
  retriedRun ++ ([.commitChecker 2, .commitChecker 2, .snapshot 2 2 [7, 8], .deliver 6,
    .timeout 1, .deliver 11, .receive 11, .timeout 1, .deliver 13] : List (Action 3 ℕ))

theorem leaderCompleteness_fails :
    ∃ c c' : Cluster 3 ℕ, run Cluster.step Cluster.init staleSnapshotRun = some c ∧
      Along Cluster.step Cluster.SnapshotsHanded Cluster.init staleSnapshotRun ∧
      c.step (.receive 13) = some c' ∧ (c.servers 1).state ≠ .leader ∧
      (c'.servers 1).state = .leader ∧ (c'.servers 1).currentTerm = 3 ∧
      (∃ ev ∈ c.trace, ev.Commits 2 2 ⟨2, 8⟩) ∧
      ∀ covers, ¬ (c'.servers 1).Keeps covers 2 ⟨2, 8⟩ := by
  have h : ∃ c : Cluster 3 ℕ, run Cluster.step Cluster.init staleSnapshotRun = some c ∧
      .commit 0 2 1 [⟨2, 8⟩] ∈ c.trace ∧ (c.servers 1).state ≠ .leader ∧
      ∃ c', c.step (.receive 13) = some c' ∧ (c'.servers 1).state = .leader ∧
        (c'.servers 1).currentTerm = 3 ∧ (c'.servers 1).lastIncludedIndex < 2 ∧
        (c'.servers 1).logAt 2 ≠ some ⟨2, 8⟩ := by
    decide +kernel
  obtain ⟨c, hc, hcommit, hold, c', hc', hnew, hterm, hbase, hlog⟩ := h
  exact ⟨c, c', hc, by decide +kernel, hc', hold, hnew, hterm,
    ⟨_, hcommit, rfl, 0, rfl, rfl⟩, not_keeps hbase hlog⟩

/-- Server 2 is elected in term 3 with the vote of server 1, while that vote is on its way server 0
comes back in term 4 and commits its old entry of term 2. -/
def lateWinnerRun : List (Action 3 ℕ) :=
  [.timeout 0, .deliver 0, .receive 0, .timeout 0, .deliver 2, .receive 2, .start 0 5,
    .timeout 2, .deliver 4, .receive 4, .timeout 2, .timeout 2, .deliver 9, .deliver 8,
    .timeout 0, .deliver 10, .receive 10, .timeout 0, .deliver 12, .receive 12, .start 0 6,
    .msgComing 0, .task 0, .deliver 14, .receive 14, .msgComing 0, .task 1, .deliver 15, .receive 15]

/-- The other condition is needed as well, also without compaction: a leader of a term between that
of an entry and that of its commit. -/
theorem leaderCompleteness_fails_lateWinner :
    ∃ c c' : Cluster 3 ℕ, run Cluster.step Cluster.init lateWinnerRun = some c ∧
      c.step (.receive 9) = some c' ∧ (c.servers 2).state ≠ .leader ∧
      (c'.servers 2).state = .leader ∧ (c'.servers 2).currentTerm = 3 ∧
      (∃ ev ∈ c.trace, ev.Commits 4 1 ⟨2, 5⟩) ∧
      ∀ covers, ¬ (c'.servers 2).Keeps covers 1 ⟨2, 5⟩ := by
  have h : ∃ c : Cluster 3 ℕ, run Cluster.step Cluster.init lateWinnerRun = some c ∧
      .commit 0 4 0 [⟨2, 5⟩, ⟨4, 6⟩] ∈ c.trace ∧ (c.servers 2).state ≠ .leader ∧
      ∃ c', c.step (.receive 9) = some c' ∧ (c'.servers 2).state = .leader ∧
        (c'.servers 2).currentTerm = 3 ∧ (c'.servers 2).lastIncludedIndex < 1 ∧
        (c'.servers 2).logAt 1 ≠ some ⟨2, 5⟩ := by
    decide +kernel
  obtain ⟨c, hc, hcommit, hold, c', hc', hnew, hterm, hbase, hlog⟩ := h
  exact ⟨c, c', hc, hc', hold, hnew, hterm, ⟨_, hcommit, rfl, 0, rfl, rfl⟩, not_keeps hbase hlog⟩

/-- Servers 3, 4 and 5 elect server 2 in term 5. -/
def divergedElection : List (Action 7 ℕ) := List.flatten
  [divergedRun, [.timeout 2], answered [54, 55, 56], [.timeout 2], answered [60, 61], [.deliver 62]]

/-- And so is the third: a leader whose entries come from an overwritten request. -/
theorem leaderCompleteness_fails_overwritten :
    ∃ c c' : Cluster 7 ℕ, run Cluster.step Cluster.init divergedElection = some c ∧
      c.step (.receive 62) = some c' ∧ (c.servers 2).state ≠ .leader ∧
      (c'.servers 2).state = .leader ∧ (c'.servers 2).currentTerm = 5 ∧
      (∃ ev ∈ c.trace, ev.Commits 4 2 ⟨2, 8⟩) ∧
      ∀ covers, ¬ (c'.servers 2).Keeps covers 2 ⟨2, 8⟩ := by
  have h : ∃ c : Cluster 7 ℕ, run Cluster.step Cluster.init divergedElection = some c ∧
      .commit 3 4 0 [⟨2, 7⟩, ⟨2, 8⟩, ⟨2, 9⟩, ⟨4, 6⟩] ∈ c.trace ∧ (c.servers 2).state ≠ .leader ∧
      ∃ c', c.step (.receive 62) = some c' ∧ (c'.servers 2).state = .leader ∧
        (c'.servers 2).currentTerm = 5 ∧ (c'.servers 2).lastIncludedIndex < 2 ∧
        (c'.servers 2).logAt 2 ≠ some ⟨2, 8⟩ := by
    decide +kernel
  obtain ⟨c, hc, hcommit, hold, c', hc', hnew, hterm, hbase, hlog⟩ := h
  exact ⟨c, c', hc, hc', hold, hnew, hterm, ⟨_, hcommit, rfl, 1, rfl, rfl⟩, not_keeps hbase hlog⟩

/-- Snapshots that list the commands. -/
def ListsCommands (data : Data) (i : ℕ) (e : LogEntry ℕ) : Prop :=
  data[i - 1]? = some (UInt8.ofNat e.command)

/-- A first snapshot, which lists the commands up to `index`. -/
def Cluster.ListsFirst (c : Cluster 3 ℕ) : Action 3 ℕ → Prop
  | .snapshot s index data => (c.servers s).lastIncludedIndex = 0 ∧
      ∀ i ≤ index, ∀ e ∈ (c.servers s).logAt i, 0 < i → data[i - 1]? = some (UInt8.ofNat e.command)
  | _ => True

instance (c : Cluster 3 ℕ) : (a : Action 3 ℕ) → Decidable (c.ListsFirst a)
  | .snapshot s index data => inferInstanceAs (Decidable ((c.servers s).lastIncludedIndex = 0 ∧
      ∀ i ≤ index, ∀ e ∈ (c.servers s).logAt i, 0 < i →
        data[i - 1]? = some (UInt8.ofNat e.command)))
  | .start _ _ | .msgComing _ | .timeout _ | .task _ | .encode _ | .deliver _ | .receive _ | .lose _
  | .commitChecker _ | .sendSnapshot _ _ | .grow _ | .crash _ => isTrue trivial

theorem Cluster.ListsFirst.cover {c : Cluster 3 ℕ} {a : Action 3 ℕ} (h : c.ListsFirst a) :
    c.SnapshotsCover ListsCommands a := by
  cases a with
  | snapshot s index data =>
    refine ⟨fun i e hi hle he => h.2 i hle e he (by omega), fun i e hi hle => ?_⟩
    rw [h.1] at hle
    omega
  | _ => trivial

/-- Server 2, which has installed the snapshot, is elected in term 3. -/
def successorRun : List (Action 3 ℕ) :=
  retriedRun ++ ([.timeout 2, .deliver 11, .receive 11, .timeout 2, .deliver 13] : List (Action 3 ℕ))

theorem leaderCompleteness_successorRun :
    ∃ c c' : Cluster 3 ℕ, run Cluster.step Cluster.init successorRun = some c ∧
      c.step (.receive 13) = some c' ∧ (c'.servers 2).state = .leader ∧
      (c'.servers 2).lastIncludedIndex = 1 ∧ (c'.servers 2).Keeps ListsCommands 1 ⟨2, 7⟩ := by
  have h : ∃ c : Cluster 3 ℕ, run Cluster.step Cluster.init successorRun = some c ∧
      .commit 0 2 0 [⟨2, 7⟩] ∈ c.trace ∧ (c.servers 2).state ≠ .leader ∧
      ∃ c', c.step (.receive 13) = some c' ∧ (c'.servers 2).state = .leader ∧
        (c'.servers 2).lastIncludedIndex = 1 ∧ 2 < (c'.servers 2).currentTerm := by
    decide +kernel
  obtain ⟨c, hc, hcommit, hold, c', hc', hnew, hbase, hterm⟩ := h
  have hfirst : Along Cluster.step Cluster.ListsFirst Cluster.init
      (successorRun ++ [Action.receive 13]) := by decide +kernel
  refine ⟨c, c', hc, hc', hnew, hbase, ?_⟩
  exact leaderCompleteness (by decide +kernel) (hfirst.mono fun _ _ => Cluster.ListsFirst.cover)
    (by decide +kernel) (by decide +kernel) hc hc' hold hnew hcommit ⟨rfl, 0, rfl, rfl⟩ hterm

end DistSys
