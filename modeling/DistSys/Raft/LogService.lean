import DistSys.Lib.ReplicatedLog
import DistSys.Raft.Safety
import DistSys.Raft.Started

/-!
# Raft is a replicated log

In a run in which no service compacts its log and no request is overwritten before it is encoded,
what the services see of raft is what they would see of the replicated log of
`DistSys.Lib.ReplicatedLog`: `Start` proposes a command at an index and a term that were not given
out before, every server is handed the entries of one log in order, from the first one on, and a
restarted server is handed them again.

* `Plain` — no snapshot is sent.
* `Due` — `CommitChecker` hands over the next entry.
* `LogSim` — the relation. The log has an entry as soon as some server has been handed it; that all
  servers are handed the same one is State Machine Safety, and that it was proposed is `Started`.

Main result: `raft_refines_replicatedLog`.
-/

namespace DistSys

open Raft

variable {n : ℕ} {C : Type} [Inhabited C]

/-! ## Without snapshots -/

/-- No log has been compacted, and no snapshot is on its way. -/
structure Cluster.Plain (c : Cluster n C) : Prop where
  base : ∀ s, (c.servers s).lastIncludedIndex = 0
  tasks : ∀ t ∈ c.tasks, t.task ≠ .handleInstallSnapshot
  calls : ∀ call ∈ c.calls, ∀ args reply, call.rpc ≠ .installSnapshot args reply

namespace Cluster.Plain

variable {c c' : Cluster n C} {a : Action n C}

theorem uncompacted (h : c.Plain) : c.Uncompacted :=
  ⟨h.base, fun call hcall args reply hrpc => absurd hrpc (h.calls call hcall args reply)⟩

theorem init : (Cluster.init : Cluster n C).Plain :=
  ⟨fun _ => rfl, fun _ ht => absurd ht List.not_mem_nil,
    fun _ hcall => absurd hcall List.not_mem_nil⟩

theorem act (h : c.Plain) (hc : c.Sound) (hsnap : ∀ s index data, a ≠ .snapshot s index data)
    (hcases : Step c a c') : c'.Plain := by
  refine ⟨(h.uncompacted.act hc hsnap hcases).base, fun t ht htask => ?_,
    fun call hcall args reply hrpc => ?_⟩
  · rcases hcases.mem_tasks ht with ⟨old, hold, j, rfl, -⟩ | ⟨s, i, -, hsend, -⟩
    · exact h.tasks old hold htask
    · -- nothing lies below index 0
      rw [htask, doLeaderFor, h.base s, if_neg (Nat.not_lt_zero _)] at hsend
      obtain ⟨prev, -, hsend⟩ := Option.bind_eq_some_iff.1 hsend
      cases hsend
  · rcases hcases.mem_calls hcall with ⟨old, hold, heq⟩ | ⟨t, ht, -, htask⟩ | hvote | ⟨args', hvote⟩
    · rw [hrpc] at heq
      cases hrpc' : old.rpc <;> rw [hrpc'] at heq <;> cases heq
      exact h.calls old hold args _ hrpc'
    · rw [hrpc] at htask
      cases htask' : t.task with
      | sendAppendEntries args' =>
        rw [htask'] at htask
        cases htask
      | handleInstallSnapshot => exact h.tasks t ht htask'
    · rw [hrpc] at hvote
      cases hvote
    · rw [hrpc] at hvote
      cases hvote

end Cluster.Plain

/-! ## The next entry -/

namespace Raft

variable {rf rf' : Raft n C} {d : ℕ}

/-- The message for an entry of the log. -/
def ApplyMsg.ofEntry (index : ℕ) (term : ℤ) (command : C) : ApplyMsg C :=
  { commandValid := true, command := command, commandIndex := index, commandTerm := term }

/-- The messages for entries at the indices `i + 1`, `i + 2`, and so on. -/
def OfEntries : ℕ → List (ApplyMsg C) → Prop
  | _, [] => True
  | i, msg :: msgBuf =>
    msg = .ofEntry (i + 1) msg.commandTerm msg.command ∧ OfEntries (i + 1) msgBuf

theorem collect_ofEntries {fuel i : ℕ} {msgBuf : List (ApplyMsg C)} (hi : rf.lastIncludedIndex ≤ i)
    (h : rf.collect fuel i = some msgBuf) : OfEntries i msgBuf := by
  induction fuel generalizing i msgBuf with
  | zero =>
    cases h
    trivial
  | succ fuel ih =>
    rw [collect, if_neg (by omega)] at h
    split at h
    · cases h
      trivial
    · obtain ⟨e, -, h⟩ := Option.bind_eq_some_iff.1 h
      obtain ⟨rest, hrest, h⟩ := Option.bind_eq_some_iff.1 h
      cases h
      exact ⟨rfl, ih (by omega) hrest⟩

/-- What `CommitChecker` hands over next is the entry at index `d + 1`. -/
structure Due (d : ℕ) (rf : Raft n C) : Prop where
  snapshots : rf.snapSenders = []
  applied : (∀ msg msgBuf, rf.checker ≠ .sent msg msgBuf) → rf.lastApplied = d
  sending : ∀ msgBuf, rf.checker = .sending msgBuf → OfEntries d msgBuf
  sent : ∀ msg msgBuf, rf.checker = .sent msg msgBuf →
    msg.commandIndex = d ∧ rf.lastApplied + 1 = d ∧ OfEntries d msgBuf

theorem Due.same (h : Due d rf) (hs : SameDelivery rf rf') : Due d rf' := by
  refine ⟨hs.snapSenders.trans h.snapshots, fun hne => ?_, fun msgBuf hbuf => ?_,
    fun msg msgBuf hbuf => ?_⟩
  · rw [hs.lastApplied]
    refine h.applied fun msg msgBuf hch => ?_
    rcases hs.checker with he | ⟨he, -⟩
    · exact hne msg msgBuf (he.trans hch)
    · rw [hch] at he
      cases he
  · rcases hs.checker with he | ⟨-, he⟩
    · exact h.sending msgBuf (he ▸ hbuf)
    · rw [he] at hbuf
      cases hbuf
  · rw [hs.lastApplied]
    rcases hs.checker with he | ⟨-, he⟩
    · exact h.sent msg msgBuf (he ▸ hbuf)
    · rw [he] at hbuf
      cases hbuf

theorem due_make (s : Fin n) (persister : Persister n C)
    (hbase : (make s persister).lastIncludedIndex = 0) : Due 0 (make s persister) where
  snapshots := make_snapSenders s persister
  applied _ := by rw [make_lastApplied, hbase]
  sending msgBuf hbuf := by
    rw [make_checker] at hbuf
    cases hbuf
  sent msg msgBuf hbuf := by
    rw [make_checker] at hbuf
    cases hbuf

/-- A step of `CommitChecker` that hands over nothing. -/
theorem Due.quiet (h : Due d rf) (hbase : rf.lastIncludedIndex = 0)
    (hr : rf.commitChecker = some (rf', none)) : Due d rf' := by
  unfold Raft.commitChecker at hr
  split at hr
  · rename_i hch
    cases hr
    exact ⟨h.snapshots, fun _ => h.applied (by simp [hch]), (fun _ hb => by cases hb),
      fun _ _ hb => by cases hb⟩
  · cases hr
  · rename_i hch
    obtain ⟨buf, hbuf, hr⟩ := Option.bind_eq_some_iff.1 hr
    cases hr
    have happlied := h.applied (by simp [hch])
    refine ⟨h.snapshots, fun _ => happlied, fun msgBuf hb => ?_, fun _ _ hb => by cases hb⟩
    cases hb
    rw [fillBuffer] at hbuf
    split at hbuf
    · cases hbuf
    · rw [← happlied]
      exact collect_ofEntries (by omega) hbuf
  · rename_i hch
    cases hr
    exact ⟨h.snapshots, fun _ => h.applied (by simp [hch]), (fun _ hb => by cases hb),
      fun _ _ hb => by cases hb⟩
  · cases hr
  · rename_i msg buf hch
    obtain ⟨hidx, happlied, hrest⟩ := h.sent msg buf hch
    simp only at hr
    split at hr
    · rename_i hne
      exact absurd (hidx.trans happlied.symm) hne
    · cases hr
      refine ⟨h.snapshots, fun _ => ?_, fun msgBuf hb => ?_, fun _ _ hb => by cases hb⟩
      · simp only
        omega
      · cases hb
        exact hrest

/-- A step of `CommitChecker` that hands over a message: it is the next one. -/
theorem Due.send (h : Due d rf) {msg : ApplyMsg C} (hr : rf.commitChecker = some (rf', some msg)) :
    msg = .ofEntry (d + 1) msg.commandTerm msg.command ∧ Due (d + 1) rf' := by
  obtain ⟨buf, hch⟩ := commitChecker_sends hr
  obtain ⟨hmsg, hrest⟩ := h.sending _ hch
  have hidx : msg.commandIndex = d + 1 := congrArg ApplyMsg.commandIndex hmsg
  have happlied := h.applied (by simp [hch])
  simp only [Raft.commitChecker, hch, Option.some.injEq, Prod.mk.injEq, and_true] at hr
  subst hr
  refine ⟨hmsg, h.snapshots, fun hne => absurd rfl (hne msg buf), (fun _ hb => by cases hb),
    fun msg' msgBuf hb => ?_⟩
  cases hb
  exact ⟨hidx, by simp only; omega, hrest⟩

end Raft

/-! ## The relation -/

/-- What the service sees of an event. -/
def Raft.Event.visible : Event n C → Option (LogEvent (Fin n) C)
  | .make s _ _ => some (.restarted s)
  | .start s index term command => some (.proposed s index term command)
  | .commit _ _ _ _ => none
  | .apply s _ msg => some (.delivered s msg.commandIndex msg.commandTerm msg.command)

/-- The action is no call of `Start` at a leader, hands over no message, and neither compacts a log
nor restarts a server. -/
def Cluster.Quiet (c : Cluster n C) : Action n C → Prop
  | .start s _ => (c.servers s).state ≠ .leader
  | .commitChecker s => ∀ rf msg, (c.servers s).commitChecker ≠ some (rf, some msg)
  | .snapshot _ _ _ => False
  | .crash _ => False
  | _ => True

structure LogSim (c : Cluster n C) (r : ReplicatedLog (Fin n) C) : Prop where
  trace : r.trace = c.trace.filterMap Event.visible
  proposals : ∀ i t command, r.proposals i t = some command ↔ ∃ s, .start s i t command ∈ c.trace
  due : ∀ s, Due (r.delivered s) (c.servers s)
  delivered_le : ∀ s, r.delivered s ≤ r.log.length
  /-- The entries of the log have been handed over. -/
  log : ∀ k e, r.log[k]? = some e → ∃ s epoch msg, .apply s epoch msg ∈ c.trace ∧
    msg.commandValid = true ∧ msg.commandIndex = k + 1 ∧ e = (msg.commandTerm, msg.command)

/-- What is known of a cluster in a run without compaction that overwrites nothing. -/
structure Cluster.Orderly (c : Cluster n C) : Prop where
  intact : c.Intact
  plain : c.Plain
  started : c.Started
  issued : ∃ g, Elected c g ∧ c.Issued g
  sim : ∃ g p, Elected c g ∧ Sim (fun _ _ _ => True) c g p

namespace Cluster.Orderly

variable {c c' : Cluster n C} {a : Action n C}

theorem init : (Cluster.init : Cluster n C).Orderly :=
  ⟨.init, .init, .init, ⟨_, Elected.init, fun s i t command hmem => by cases hmem⟩,
    ⟨_, _, Elected.init, Sim.init⟩⟩

theorem act (h : c.Orderly) (hno : c.NoOverwrite a)
    (hsnap : ∀ s index data, a ≠ .snapshot s index data) (hstep : Step c a c') : c'.Orderly := by
  obtain ⟨g, he, hi⟩ := h.issued
  obtain ⟨g₁, p, he₁, hs⟩ := h.sim
  obtain ⟨p', -, hs'⟩ := hs.act he₁ h.intact.mirrored (h.plain.uncompacted.noStaleSnapshot a)
    (c.snapshotsCover_true a) hstep
  exact ⟨h.intact.act hno hstep, h.plain.act h.started.sound hsnap hstep, h.started.act hstep,
    ⟨_, he.act hstep, hi.act he hstep⟩, ⟨_, p', he₁.act hstep, hs'⟩⟩

theorem step (h : c.Orderly) (hno : c.NoOverwrite a)
    (hsnap : ∀ s index data, a ≠ .snapshot s index data) (hstep : c.step a = some c') :
    c.act a = some c' ∧ c'.Orderly := by
  have hact := h.intact.act_eq hno hstep
  exact ⟨hact, h.act hno hsnap (act_cases hact)⟩

theorem term_pos (h : c.Orderly) (s : Fin n) : 0 < (c.servers s).currentTerm := by
  obtain ⟨g, he, -⟩ := h.issued
  exact he.term_pos s

/-- A leader's next index has not been given out in its term. -/
theorem fresh (h : c.Orderly) {s s' : Fin n} (hl : (c.servers s).state = .leader) (command : C) :
    .start s' ((c.servers s).virtualLogIdx (c.servers s).log.length) (c.servers s).currentTerm
      command ∉ c.trace := by
  obtain ⟨g, he, hi⟩ := h.issued
  exact hi.fresh he hl

end Cluster.Orderly

namespace LogSim

variable {c c' : Cluster n C} {r : ReplicatedLog (Fin n) C} {a : Action n C}

theorem init : LogSim (Cluster.init : Cluster n C) .init where
  trace := rfl
  proposals i t command := by simp [ReplicatedLog.init, Cluster.init]
  due s := due_make s {} rfl
  delivered_le s := le_rfl
  log k e hk := by simp [ReplicatedLog.init] at hk

/-- The trace only grows, so the entries of the log stay handed over. -/
theorem log_append (h : LogSim c r) {es : List (Event n C)} (htrace : c'.trace = c.trace ++ es)
    (k : ℕ) (e : ℤ × C) (hk : r.log[k]? = some e) : ∃ s epoch msg, .apply s epoch msg ∈ c'.trace ∧
      msg.commandValid = true ∧ msg.commandIndex = k + 1 ∧ e = (msg.commandTerm, msg.command) := by
  obtain ⟨s, epoch, msg, hmem, hrest⟩ := h.log k e hk
  exact ⟨s, epoch, msg, htrace ▸ List.mem_append_left _ hmem, hrest⟩

/-- Only `Start` proposes. -/
theorem proposals_append (h : LogSim c r) {es : List (Event n C)}
    (htrace : c'.trace = c.trace ++ es)
    (hes : ∀ s i t command, .start s i t command ∉ es) (i : ℕ) (t : ℤ) (command : C) :
    r.proposals i t = some command ↔ ∃ s, .start s i t command ∈ c'.trace := by
  rw [h.proposals, htrace]
  refine exists_congr fun s => ⟨List.mem_append_left _, fun hmem => ?_⟩
  rcases List.mem_append.1 hmem with hmem | hmem
  · exact hmem
  · exact absurd hmem (hes s i t command)

/-- A step that the services do not see. -/
theorem quiet (h : LogSim c r) {es : List (Event n C)} (htrace : c'.trace = c.trace ++ es)
    (hes : ∀ ev ∈ es, ev.visible = none) (hdue : ∀ s, Due (r.delivered s) (c'.servers s)) :
    LogSim c' r where
  trace := by
    rw [htrace, List.filterMap_append, List.filterMap_eq_nil_iff.2 hes, List.append_nil]
    exact h.trace
  proposals := h.proposals_append htrace fun _ _ _ _ hmem => by cases hes _ hmem
  due := hdue
  delivered_le := h.delivered_le
  log := h.log_append htrace

/-- The entries of the log were started at their index and term. -/
theorem log_started (h : LogSim c r) (ho : c.Orderly) {p : ℕ} {e : ℤ × C}
    (he : r.log[p]? = some e) : ∃ s, .start s (p + 1) e.1 e.2 ∈ c.trace := by
  obtain ⟨s, epoch, msg, hmem, hvalid, hidx, rfl⟩ := h.log p e he
  obtain ⟨k, hk⟩ := List.mem_iff_getElem?.1 hmem
  obtain ⟨s', hs'⟩ := ho.started.delivered k s epoch msg hk hvalid
  rw [← hidx]
  exact ⟨s', List.mem_of_mem_take hs'⟩

/-- `Start` at a leader. -/
theorem propose (h : LogSim c r) (ho : c.Orderly) {s : Fin n}
    (hl : (c.servers s).state = .leader) (command : C) {i : ℕ} {t : ℤ}
    (hi : i = (c.servers s).virtualLogIdx (c.servers s).log.length)
    (ht : t = (c.servers s).currentTerm) :
    r.proposals i t = none ∧
      LogSim ((c.set s ((c.servers s).appendCommand command)).emit [.start s i t command])
        (r.propose s i t command) := by
  have hfresh : ∀ s' command', .start s' i t command' ∉ c.trace := by
    subst hi ht
    exact fun s' command' => ho.fresh hl command'
  refine ⟨?_, ?_, fun i' t' command' => ?_, fun q => ?_, h.delivered_le, h.log_append rfl⟩
  · cases hp : r.proposals i t with
    | none => rfl
    | some command' =>
      obtain ⟨s', hs'⟩ := (h.proposals i t command').1 hp
      exact absurd hs' (hfresh s' command')
  · simp only [ReplicatedLog.propose, Cluster.emit, Cluster.set, List.filterMap_append, h.trace]
    rfl
  · simp only [ReplicatedLog.propose, Cluster.emit, Cluster.set, List.mem_append,
      List.mem_singleton, Event.start.injEq]
    split
    · rename_i heq
      obtain ⟨rfl, rfl⟩ := heq
      rw [Option.some.injEq]
      refine ⟨fun heq => ⟨s, .inr ⟨rfl, rfl, rfl, heq.symm⟩⟩, ?_⟩
      rintro ⟨s', hs' | ⟨-, -, -, rfl⟩⟩
      · exact absurd hs' (hfresh s' command')
      · rfl
    · rename_i hne
      rw [h.proposals]
      refine exists_congr fun s' => ⟨.inl, ?_⟩
      rintro (hs' | ⟨-, rfl, rfl, -⟩)
      · exact hs'
      · exact absurd ⟨rfl, rfl⟩ hne
  · have hs : Due (r.delivered s) ((c.servers s).appendCommand command) :=
      (h.due s).same ⟨rfl, rfl, rfl, .inl rfl⟩
    exact Cluster.forall_set (P := fun q rf => Due (r.delivered q) rf) h.due hs q

/-- The next entry is that of the message, or has been proposed and can be committed now. -/
theorem next_entry (h : LogSim c r) (ho : c.Orderly) (ho' : c'.Orderly) {s : Fin n}
    {msg : ApplyMsg C} {epoch : ℕ} (htrace : c'.trace = c.trace ++ [.apply s epoch msg])
    (hvalid : msg.commandValid = true) (hidx : msg.commandIndex = r.delivered s + 1)
    (hbuf : msg ∈ (c.servers s).checker.buffer) :
    r.log[r.delivered s]? = some (msg.commandTerm, msg.command) ∨
      r.delivered s = r.log.length ∧
        r.proposals (r.log.length + 1) msg.commandTerm = some msg.command := by
  rcases Nat.lt_or_ge (r.delivered s) r.log.length with hlt | hge
  · left
    have he := List.getElem?_eq_getElem hlt
    obtain ⟨s', epoch', msg', hmem', hvalid', hidx', heq⟩ := h.log _ _ he
    -- both messages are for one index
    obtain ⟨g, p, -, hs⟩ := ho'.sim
    have hmem : .apply s epoch msg ∈ c'.trace := by simp [htrace]
    have hmem₁ : .apply s' epoch' msg' ∈ c'.trace := htrace ▸ List.mem_append_left _ hmem'
    obtain ⟨hcommand, hterm⟩ := hs.inv.approved_eq (hs.trace _ hmem) (hs.trace _ hmem₁) hvalid
      hvalid' (hidx.trans hidx'.symm)
    rw [he, heq, hcommand, hterm]
  · right
    have heq : r.delivered s = r.log.length := le_antisymm (h.delivered_le s) hge
    refine ⟨heq, ?_⟩
    rw [← heq, ← hidx, h.proposals]
    exact ho.started.buffers s msg hbuf

/-- A member is handed an entry that has been committed. -/
theorem after_deliver (h : LogSim c r) {s : Fin n} {msg : ApplyMsg C} {rf : Raft n C} {epoch : ℕ}
    (hdue : Due (r.delivered s + 1) rf) {r₀ : ReplicatedLog (Fin n) C} (htrace : r₀.trace = r.trace)
    (hproposals : r₀.proposals = r.proposals) (hdelivered : r₀.delivered = r.delivered)
    (hidx : msg.commandIndex = r.delivered s + 1) (hle : r.log.length ≤ r₀.log.length)
    (hnext : r.delivered s < r₀.log.length)
    (hlog : ∀ k e, r₀.log[k]? = some e → r.log[k]? = some e ∨
      msg.commandValid = true ∧ msg.commandIndex = k + 1 ∧ e = (msg.commandTerm, msg.command)) :
    LogSim ((c.set s rf).emit [.apply s epoch msg]) (r₀.deliver s msg.commandTerm msg.command) := by
  refine ⟨?_, fun i t command => ?_, fun q => ?_, fun q => ?_, fun k e hk => ?_⟩
  · simp only [ReplicatedLog.deliver, Cluster.emit, Cluster.set, List.filterMap_append, htrace,
      hdelivered, h.trace, ← hidx]
    rfl
  · simp only [ReplicatedLog.deliver, hproposals]
    exact h.proposals_append rfl (by simp) i t command
  · simp only [ReplicatedLog.deliver, hdelivered, Cluster.emit, Cluster.set]
    by_cases hq : q = s
    · subst hq
      rwa [Function.update_self, Function.update_self]
    · rw [Function.update_of_ne hq, Function.update_of_ne hq]
      exact h.due q
  · simp only [ReplicatedLog.deliver, hdelivered]
    by_cases hq : q = s
    · subst hq
      rwa [Function.update_self]
    · rw [Function.update_of_ne hq]
      exact (h.delivered_le q).trans hle
  · rcases hlog k e hk with hold | hnew
    · exact h.log_append rfl k e hold
    · exact ⟨s, epoch, msg, List.mem_append_right _ (List.mem_singleton_self _), hnew⟩

/-- `CommitChecker` hands over a message: the entry is in the log, or is committed now. -/
theorem deliver (h : LogSim c r) (ho : c.Orderly) {s : Fin n} {msg : ApplyMsg C} {rf : Raft n C}
    (hr : (c.servers s).commitChecker = some (rf, some msg))
    (hc' : c' = (c.set s rf).emit [.apply s (c.epoch s) msg]) (ho' : c'.Orderly) :
    msg = .ofEntry (r.delivered s + 1) msg.commandTerm msg.command ∧
      ∃ r₀, (r₀ = r ∨ r.proposals (r.log.length + 1) msg.commandTerm = some msg.command ∧
          r₀ = r.commit msg.commandTerm msg.command) ∧
        r₀.log[r.delivered s]? = some (msg.commandTerm, msg.command) ∧
        LogSim c' (r₀.deliver s msg.commandTerm msg.command) := by
  obtain ⟨hmsg, hdue⟩ := (h.due s).send hr
  have hidx : msg.commandIndex = r.delivered s + 1 := congrArg ApplyMsg.commandIndex hmsg
  have hvalid : msg.commandValid = true := congrArg ApplyMsg.commandValid hmsg
  obtain ⟨buf, hch⟩ := commitChecker_sends hr
  have hbuf : msg ∈ (c.servers s).checker.buffer := by
    rw [hch]
    exact List.mem_cons_self
  refine ⟨hmsg, ?_⟩
  rcases h.next_entry ho ho' (by rw [hc']; rfl) hvalid hidx hbuf with hnext | ⟨hlast, hproposed⟩
  · refine ⟨r, .inl rfl, hnext, ?_⟩
    rw [hc']
    exact h.after_deliver hdue rfl rfl rfl hidx le_rfl (List.getElem?_eq_some_iff.1 hnext).1
      fun _ _ => .inl
  · refine ⟨_, .inr ⟨hproposed, rfl⟩, ?_, ?_⟩
    · rw [hlast]
      exact List.getElem?_concat_length
    · rw [hc']
      refine h.after_deliver hdue rfl rfl rfl hidx ?_ ?_ fun k e hk => ?_
      · simp [ReplicatedLog.commit]
      · simp [ReplicatedLog.commit, hlast]
      · rcases getElem?_concat_cases hk with hold | ⟨rfl, rfl⟩
        · exact .inl hold
        · exact .inr ⟨hvalid, by rw [hidx, hlast], rfl⟩

/-- A server stops and starts again. -/
theorem restart (h : LogSim c r) {s : Fin n} (ho' : (c.restart s).Orderly) :
    LogSim (c.restart s) (r.restart s) := by
  refine ⟨?_, ?_, fun q => ?_, fun q => ?_, h.log_append rfl⟩
  · simp only [ReplicatedLog.restart, Cluster.restart, Cluster.emit, Cluster.set,
      List.filterMap_append, h.trace]
    rfl
  · exact h.proposals_append rfl (by simp)
  · have hbase := ho'.plain.base q
    simp only [ReplicatedLog.restart, Cluster.restart, Cluster.emit, Cluster.set] at hbase ⊢
    by_cases hq : q = s
    · subst hq
      rw [Function.update_self] at hbase ⊢
      rw [Function.update_self]
      exact due_make q _ hbase
    · rw [Function.update_of_ne hq, Function.update_of_ne hq]
      exact h.due q
  · simp only [ReplicatedLog.restart]
    by_cases hq : q = s
    · subst hq
      rw [Function.update_self]
      exact Nat.zero_le _
    · rw [Function.update_of_ne hq]
      exact h.delivered_le q

/-- A step of one server that neither sends on `applyCh` nor installs a snapshot. -/
theorem quiet_set (h : LogSim c r) {s : Fin n} {rf : Raft n C} (hs : SameDelivery (c.servers s) rf)
    (q : Fin n) : Due (r.delivered q) ((c.set s rf).servers q) :=
  Cluster.forall_set (P := fun q rf => Due (r.delivered q) rf) h.due ((h.due s).same hs) q

/-- A step that the services do not see. -/
theorem other (h : LogSim c r) (ho : c.Orderly) (hq : c.Quiet a) (hstep : Cluster.Step c a c') :
    LogSim c' r := by
  have hnil : ∀ {c' : Cluster n C}, c'.trace = c.trace →
      (∀ s, Due (r.delivered s) (c'.servers s)) → LogSim c' r := by
    intro c' htrace hdue
    have htrace' : c'.trace = c.trace ++ [] := by rw [htrace, List.append_nil]
    exact h.quiet htrace' (fun _ hev => absurd hev List.not_mem_nil) hdue
  cases hstep with
  | idle => exact h
  | start s command hl => exact absurd hl hq
  | spawn a s gs hl hgs => exact hnil rfl h.due
  | preVote s hl => exact hnil rfl (h.quiet_set ⟨rfl, rfl, rfl, .inl rfl⟩)
  | election s rf args hcand hr =>
    obtain ⟨rfl, -⟩ := beginElection_eq_some hr
    exact hnil rfl (h.quiet_set ⟨rfl, rfl, rfl, .inl rfl⟩)
  | dropTask k => exact hnil rfl h.due
  | runTask k t rpc ht hep hl hrpc => exact hnil rfl h.due
  | encode k t j ht hj => exact hnil rfl h.due
  | deliver k call rf rpc hk hr =>
    rcases sameDelivery_handle hr with hs | ⟨args, hrpc, -⟩
    · exact hnil rfl (h.quiet_set hs)
    · exact absurd hrpc (ho.plain.calls call (List.mem_of_getElem? hk) args _)
  | receive k call rf hk hw hep hr =>
    refine h.quiet rfl (fun ev hev => ?_) (h.quiet_set (sameDelivery_finish hr))
    rw [Cluster.commitEvents] at hev
    split at hev
    · rw [List.mem_singleton.1 hev]
      rfl
    · cases hev
  | lose k call hk hep => exact hnil rfl h.due
  | commitChecker s rf msg hr =>
    cases msg with
    | some msg => exact absurd hr (hq rf msg)
    | none =>
      refine hnil (List.append_nil _) fun q => ?_
      exact Cluster.forall_set (P := fun q rf => Due (r.delivered q) rf) h.due
        ((h.due s).quiet (ho.plain.base s) hr) q
  | sendSnapshot s k msg hk =>
    rw [(h.due s).snapshots] at hk
    cases hk
  | snapshot s index data rf hr => exact hq.elim
  | grow s => exact hnil rfl (h.quiet_set ⟨rfl, rfl, rfl, .inl rfl⟩)
  | crash s => exact hq.elim

/-- **Every action of the cluster is mirrored by the replicated log.** -/
theorem act (h : LogSim c r) (ho : c.Orderly) (hno : c.NoOverwrite a)
    (hsnap : ∀ s index data, a ≠ .snapshot s index data) (hstep : Cluster.Step c a c') :
    ∃ bs r', run ReplicatedLog.step r bs = some r' ∧ LogSim c' r' := by
  have ho' := ho.act hno hsnap hstep
  by_cases hq : c.Quiet a
  · exact ⟨[], r, rfl, h.other ho hq hstep⟩
  cases hstep with
  | start s command hl =>
    obtain ⟨hfree, h'⟩ := h.propose ho hl command rfl rfl
    refine ⟨[.propose s ((c.servers s).virtualLogIdx (c.servers s).log.length)
      (c.servers s).currentTerm command], _, ?_, h'⟩
    simp [run, ReplicatedLog.step, ho.term_pos s, hfree]
  | commitChecker s rf msg hr =>
    cases msg with
    | none =>
      refine absurd (fun rf' msg' heq => ?_) hq
      rw [hr] at heq
      cases heq
    | some msg =>
      obtain ⟨-, r₀, hr₀, hnext, h'⟩ := h.deliver ho hr rfl ho'
      have hdelivered : r₀.delivered s = r.delivered s := by
        rcases hr₀ with rfl | ⟨-, rfl⟩ <;> rfl
      have hlast : run ReplicatedLog.step r₀ [.deliver s] =
          some (r₀.deliver s msg.commandTerm msg.command) := by
        simp [run, ReplicatedLog.step, hdelivered, hnext]
      rcases hr₀ with rfl | ⟨hproposed, rfl⟩
      · exact ⟨_, _, hlast, h'⟩
      · refine ⟨.commit msg.commandTerm :: [.deliver s], _, ?_, h'⟩
        rw [run_cons, ReplicatedLog.step, hproposed]
        exact hlast
  | crash s => exact ⟨[.restart s], _, rfl, h.restart ho'⟩
  | snapshot s index data rf hr => exact absurd rfl (hsnap s index data)
  | idle => exact ⟨[], r, rfl, h⟩
  | spawn a s gs hl hgs =>
    exact ⟨[], r, rfl, ⟨h.trace, h.proposals, h.due, h.delivered_le, h.log⟩⟩
  | _ => exact absurd trivial hq

end LogSim

/-- **What the services see of raft they would see of the replicated log**, if they compact nothing
and no request is overwritten before it is encoded. -/
theorem raft_refines_replicatedLog {c : Cluster n C} {as : List (Action n C)}
    (hno : Along Cluster.step Cluster.NoOverwrite Cluster.init as)
    (hsnap : ∀ a ∈ as, ∀ s index data, a ≠ .snapshot s index data)
    (h : run Cluster.step Cluster.init as = some c) :
    ∃ bs r, run ReplicatedLog.step .init bs = some r ∧
      r.trace = c.trace.filterMap Event.visible := by
  obtain ⟨-, bs, r, hr, hsim⟩ := run_induction
    (P := fun c => c.Orderly ∧ ∃ bs r, run ReplicatedLog.step .init bs = some r ∧ LogSim c r)
    (fun c a c' hP hC hstep => by
      obtain ⟨ho, bs, r, hr, hsim⟩ := hP
      obtain ⟨hact, ho'⟩ := ho.step hC.1 hC.2 hstep
      obtain ⟨bs', r', hr', hsim'⟩ := hsim.act ho hC.1 hC.2 (Cluster.act_cases hact)
      exact ⟨ho', bs ++ bs', r', run_append_of hr hr', hsim'⟩)
    (hno.and (along_of_forall hsnap)) h ⟨.init, [], .init, rfl, .init⟩
  exact ⟨bs, r, hr, hsim.trace⟩

theorem raft_refines_replicatedLog_deliveredRun :
    ∃ c : Cluster 3 ℕ, run Cluster.step Cluster.init deliveredRun = some c ∧
      ∃ bs, ∃ r : ReplicatedLog (Fin 3) ℕ, run ReplicatedLog.step .init bs = some r ∧ r.trace =
        [.proposed 0 1 2 7, .delivered 0 1 2 7, .delivered 1 1 2 7] := by
  obtain ⟨c, hc, htrace⟩ : ∃ c : Cluster 3 ℕ,
      run Cluster.step Cluster.init deliveredRun = some c ∧
        c.trace.filterMap Event.visible =
          [.proposed 0 1 2 7, .delivered 0 1 2 7, .delivered 1 1 2 7] := by
    decide +kernel
  obtain ⟨bs, r, hr, heq⟩ := raft_refines_replicatedLog (by decide +kernel)
    (by simp [deliveredRun, firstElection]) hc
  exact ⟨c, hc, bs, r, hr, heq.trans htrace⟩

end DistSys
