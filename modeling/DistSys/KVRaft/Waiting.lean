import DistSys.KVRaft.Linearizable
import DistSys.Raft.Delivery

/-!
# A request that waits for its entry

`HandleOp` compares the term of the message on its channel with the term that `Start` returned.
`ApplyHandler` copies that term from `SnapshotTerm`, but `CommitChecker` writes the term of an entry
to `CommandTerm` and leaves `SnapshotTerm` at `0` (`Cluster.snapshotTerm_of_command`). No entry has
the term `0`, so a handler that gets the message for its own entry takes the leader for outdated,
whatever happens between the delivery and the meeting on the channel. Clerks do not notice: the
retry finds the result in the history.

* `Moves` — what a step of the system can do to one handler.
* `Served` — the invariant; channels are closed by handlers that have ended.
* `Unserved` — a handler that has waited and does not return a result.

Main result: `waiting_never_gets_result`.
-/

namespace DistSys.KVRaft

open KVServer

/-! ## Handlers and appliers -/

/-- The handler does not wait any more. -/
def Phase.Over : Phase → Prop
  | .leaving _ _ | .replied _ | .dead => True
  | .called | .starting | .started _ _ | .waiting _ _ => False

/-- The deferred function has run. -/
def Phase.Ended : Phase → Prop
  | .replied _ | .dead => True
  | .called | .starting | .started _ _ | .waiting _ _ | .leaving _ _ => False

/-- What `HandleOp` returns, or is about to. -/
def Phase.outcome : Phase → Option Result
  | .leaving _ res | .replied res => some res
  | .called | .starting | .started _ _ | .waiting _ _ | .dead => none

theorem Server.take_applier {sv : Server} {e : Entry} {ch i : ℕ} {res : Result} :
    (sv.take e).applier = .sending ch i res ↔ i = sv.delivered + 1 ∧ sv.waiCh i = some ch ∧
      (sv.kv.applyHandler (.command e.op i e.commandTerm e.snapshotTerm)).2 = some res := by
  simp only [Server.take]
  constructor
  · intro h
    split at h
    · rename_i res' ch' hres hch
      cases h
      exact ⟨rfl, hch, hres⟩
    · cases h
  · rintro ⟨rfl, hch, hres⟩
    rw [hch, hres]

namespace System

variable {s s' : System} {a : Action} {h : ℕ} {hd : Handler}

/-- The phases that a step can bring the handler `h` to. -/
inductive Moves (s : System) (h : ℕ) (hd : Handler) : Phase → Prop
  | stay : Moves s h hd hd.phase
  | found (hisMap : Result) (hphase : hd.phase = .called)
      (hhis : (s.servers hd.server).kv.historyMap hd.opArgs.identifier = some hisMap)
      (hseq : hisMap.lastSeq = hd.opArgs.seq) : Moves s h hd (.replied hisMap)
  | unknown (hphase : hd.phase = .called) : Moves s h hd .starting
  | refused (hphase : hd.phase = .starting) : Moves s h hd (.replied { err := .errNotLeader })
  | started (index : ℕ) (term : ℤ) (hphase : hd.phase = .starting) (hterm : 0 < term) :
    Moves s h hd (.started index term)
  | register (index : ℕ) (term : ℤ) (hphase : hd.phase = .started index term) :
    Moves s h hd (.waiting index term)
  | timeout (index : ℕ) (term : ℤ) (hphase : hd.phase = .waiting index term) :
    Moves s h hd (.leaving index { err := .errHandleOpTimeOut })
  | receive (server i : ℕ) (res : Result) (index : ℕ) (term : ℤ)
      (hsend : (s.servers server).applier = .sending h i res)
      (hphase : hd.phase = .waiting index term) :
    Moves s h hd (.leaving index (received term (some res)))
  | receiveClosed (index : ℕ) (term : ℤ) (hphase : hd.phase = .waiting index term)
      (hclosed : s.closed h = true) : Moves s h hd (.leaving index (received term none))
  | leave (index : ℕ) (res : Result) (hphase : hd.phase = .leaving index res) :
    Moves s h hd (.replied res)
  | crash (hphase : ∀ res, hd.phase ≠ .replied res) : Moves s h hd .dead

/-- The handlers after one of them has moved. -/
theorem moves_setPhase (hh : s.handlers h = some hd) {h' : ℕ} {hd' : Handler} {phase : Phase}
    (hh' : s.handlers h' = some hd') (hmove : Moves s h' hd' phase) :
    ∃ phase', (s.setPhase h' hd' phase).handlers h = some { hd with phase := phase' } ∧
      Moves s h hd phase' := by
  rw [setPhase, handlers_setHandler]
  by_cases heq : h = h'
  · subst heq
    rw [hh, Option.some.injEq] at hh'
    subst hh'
    exact ⟨phase, Function.update_self _ _ _, hmove⟩
  · exact ⟨hd.phase, by rw [Function.update_of_ne heq, hh], .stay⟩

/-- **What a step can do to a handler.** -/
theorem Step.handler (hstep : Step s a s') (hh : s.handlers h = some hd) :
    ∃ phase, s'.handlers h = some { hd with phase := phase } ∧ Moves s h hd phase := by
  have hstay : ∃ phase, s.handlers h = some { hd with phase := phase } ∧ Moves s h hd phase :=
    ⟨hd.phase, hh, .stay⟩
  cases hstep with
  | invoke c k op hidle hop => exact hstay
  | call op server h' hop hnew =>
    refine ⟨hd.phase, ?_, .stay⟩
    have hne : h ≠ h' := by
      rintro rfl
      rw [hnew] at hh
      cases hh
    rw [handlers_setHandler, Function.update_of_ne hne, hh]
  | found h' hd' hisMap hh' hphase hhis hseq =>
    exact moves_setPhase hh hh' (.found _ hphase hhis hseq)
  | unknown h' hd' hh' hphase => exact moves_setPhase hh hh' (.unknown hphase)
  | refused h' hd' hh' hphase => exact moves_setPhase hh hh' (.refused hphase)
  | started h' hd' index term hh' hphase hterm hfree =>
    exact moves_setPhase hh hh' (.started index term hphase hterm)
  | register h' hd' index term hh' hphase =>
    exact moves_setPhase hh hh' (.register index term hphase)
  | timeout h' hd' index term hh' hphase => exact moves_setPhase hh hh' (.timeout index term hphase)
  | receive server ch i res hd' index term hsend hh' hphase =>
    exact moves_setPhase hh hh' (.receive server i res index term hsend hphase)
  | receiveClosed h' hd' index term hh' hphase hclosed =>
    exact moves_setPhase hh hh' (.receiveClosed index term hphase hclosed)
  | sendClosed server ch i res hsend hclosed => exact hstay
  | leave h' hd' index res hh' hphase => exact moves_setPhase hh hh' (.leave index res hphase)
  | commit term op hprop => exact hstay
  | deliver server e hidle he => exact hstay
  | restart server =>
    have hmap : (s.handlers h).map (Handler.crash server) = some (Handler.crash server hd) := by
      rw [hh, Option.map_some]
    unfold Handler.crash at hmap
    split at hmap
    · exact ⟨hd.phase, hmap, .stay⟩
    · rename_i hphase
      split at hmap
      · exact ⟨.dead, hmap, .crash hphase⟩
      · exact ⟨hd.phase, hmap, .stay⟩
  | ret h' hd' res hh' hphase hpending hfinal => exact hstay

/-- A handler was there before the step, or is new. -/
theorem Step.handler_cases (hstep : Step s a s') {hd' : Handler}
    (hh' : s'.handlers h = some hd') :
    hd'.phase = .called ∨ ∃ hd, s.handlers h = some hd ∧ hd' = { hd with phase := hd'.phase } ∧
      Moves s h hd hd'.phase := by
  cases hh : s.handlers h with
  | some hd =>
    obtain ⟨phase, heq, hmove⟩ := hstep.handler hh
    rw [heq, Option.some.injEq] at hh'
    subst hh'
    exact .inr ⟨hd, rfl, rfl, hmove⟩
  | none =>
    have hset : ∀ {h₀ : ℕ} {hd₀ : Handler} {phase : Phase}, s.handlers h₀ = some hd₀ →
        (s.setPhase h₀ hd₀ phase).handlers h = none := by
      intro h₀ hd₀ phase hh₀
      have hne : h ≠ h₀ := by
        rintro rfl
        rw [hh] at hh₀
        cases hh₀
      rw [setPhase, handlers_setHandler, Function.update_of_ne hne, hh]
    have hnone : s'.handlers h = none ∨
        ∃ server op, s'.handlers h = some ⟨server, op, .called⟩ := by
      cases hstep with
      | call op server h₀ hop hnew =>
        rw [handlers_setHandler]
        by_cases heq : h = h₀
        · subst heq
          exact .inr ⟨server, op, Function.update_self _ _ _⟩
        · exact .inl (by rw [Function.update_of_ne heq, hh])
      | found h₀ hd₀ hisMap hh₀ hphase hhis hseq | unknown h₀ hd₀ hh₀ hphase
      | refused h₀ hd₀ hh₀ hphase | started h₀ hd₀ index term hh₀ hphase hterm hfree
      | register h₀ hd₀ index term hh₀ hphase | timeout h₀ hd₀ index term hh₀ hphase
      | receive server ch i res hd₀ index term hsend hh₀ hphase
      | receiveClosed h₀ hd₀ index term hh₀ hphase hclosed
      | leave h₀ hd₀ index res hh₀ hphase => exact .inl (hset hh₀)
      | restart server => exact .inl (by simp only [setServer, hh, Option.map_none])
      | _ => exact .inl hh
    rcases hnone with hnone | ⟨server, op, hnew⟩
    · rw [hnone] at hh'
      cases hh'
    · rw [hnew, Option.some.injEq] at hh'
      subst hh'
      exact .inl rfl

/-- A channel is closed by the deferred function of its handler. -/
theorem Step.closed (hstep : Step s a s') (hclosed : s'.closed h = true) :
    s.closed h = true ∨ ∃ hd index res, s.handlers h = some hd ∧ hd.phase = .leaving index res ∧
      s'.handlers h = some { hd with phase := .replied res } := by
  cases hstep with
  | leave h₀ hd index res hh hphase =>
    by_cases heq : h = h₀
    · subst heq
      exact .inr ⟨hd, index, res, hh, hphase, Function.update_self _ _ _⟩
    · simp only [Function.update_of_ne heq] at hclosed
      exact .inl hclosed
  | _ => exact .inl hclosed

/-- What a step can do to an applier. -/
theorem Step.applier (hstep : Step s a s') (server : ℕ) :
    (s'.servers server).applier = (s.servers server).applier ∨
    (∃ e, s.log[(s.servers server).delivered]? = some e ∧ (s.servers server).applier = .idle ∧
      s'.servers server = (s.servers server).take e ∧ a = .deliver server) ∨
    ((s'.servers server).applier = .idle ∧
      (a = .receive server ∨ a = .sendClosed server ∨ a = .restart server)) := by
  have hset : ∀ {s₀ : System} {server₀ : ℕ} {sv : Server}, s₀.servers = s.servers →
      sv.applier = (s.servers server₀).applier →
      ((s₀.setServer server₀ sv).servers server).applier = (s.servers server).applier := by
    intro s₀ server₀ sv hsame happ
    rw [servers_setServer]
    by_cases heq : server = server₀
    · subst heq
      rw [Function.update_self, happ]
    · rw [Function.update_of_ne heq, hsame]
  have hother : ∀ {s₀ : System} {server₀ : ℕ} {sv : Server}, s₀.servers = s.servers →
      server ≠ server₀ → (s₀.setServer server₀ sv).servers server = s.servers server := by
    intro s₀ server₀ sv hsame hne
    rw [servers_setServer, Function.update_of_ne hne, hsame]
  cases hstep with
  | register h₀ hd index term hh hphase => exact .inl (hset rfl rfl)
  | receive server₀ ch i res hd index term hsend hh hphase =>
    by_cases heq : server = server₀
    · subst heq
      exact .inr (.inr ⟨by rw [servers_setServer, Function.update_self], .inl rfl⟩)
    · exact .inl (congrArg Server.applier (hother rfl heq))
  | sendClosed server₀ ch i res hsend hclosed =>
    by_cases heq : server = server₀
    · subst heq
      exact .inr (.inr ⟨by rw [servers_setServer, Function.update_self], .inr (.inl rfl)⟩)
    · exact .inl (congrArg Server.applier (hother rfl heq))
  | leave h₀ hd index res hh hphase => exact .inl (hset rfl rfl)
  | deliver server₀ e hidle he =>
    by_cases heq : server = server₀
    · subst heq
      exact .inr (.inl ⟨e, he, hidle, Function.update_self _ _ _, rfl⟩)
    · exact .inl (congrArg Server.applier (hother rfl heq))
  | restart server₀ =>
    by_cases heq : server = server₀
    · subst heq
      refine .inr (.inr ⟨?_, .inr (.inr rfl)⟩)
      rw [servers_setServer, Function.update_self]
      rfl
    · exact .inl (congrArg Server.applier (hother rfl heq))
  | _ => exact .inl rfl

end System

/-! ## The invariant -/

theorem err_dbExecute (db : DB) (op : Op) : ¬ (dbExecute db op).2.err.Retried := by
  unfold dbExecute
  cases op.opType with
  | get => cases db op.key <;> exact not_false
  | put => exact not_false
  | append => cases db op.key <;> exact not_false

namespace System

variable {s s' : System} {a : Action} {h : ℕ} {hd : Handler}

structure Served (s : System) : Prop where
  inv : s.Inv
  /-- A closed channel is that of a handler that has ended. -/
  closed : ∀ h, s.closed h = true → ∃ hd, s.handlers h = some hd ∧ hd.phase.Ended
  sending : ∀ server ch i res, (s.servers server).applier = .sending ch i res → ¬ res.err.Retried

theorem served_init : init.Served where
  inv := inv_init
  closed h hclosed := by cases hclosed
  sending server ch i res hsend := by cases hsend

theorem Moves.over {phase : Phase} (hmove : Moves s h hd phase) (hover : hd.phase.Over) :
    phase.Over := by
  cases hmove with
  | stay => exact hover
  | unknown hphase | started index term hphase | register index term hphase =>
    rw [hphase] at hover
    exact hover
  | _ => trivial

theorem Moves.ended {phase : Phase} (hmove : Moves s h hd phase) (hended : hd.phase.Ended) :
    phase.Ended := by
  cases hmove with
  | stay => exact hended
  | unknown hphase | started index term hphase | register index term hphase
  | timeout index term hphase | receive server i res index term hsend hphase
  | receiveClosed index term hphase hclosed =>
    rw [hphase] at hended
    exact hended
  | _ => trivial

namespace Served

/-- What a server makes of the next entry: its result, or only the term for an overtaken one. -/
theorem answer (hserved : s.Served) {server : ℕ} {e : Entry}
    (he : s.log[(s.servers server).delivered]? = some e) :
    (∃ p, ExecutedAt s.log e.op p ∧
      ((s.servers server).kv.applyHandler (.command e.op ((s.servers server).delivered + 1)
        e.commandTerm e.snapshotTerm)).2 =
        some { resultAt s.log e.op p with resTerm := e.snapshotTerm }) ∨
    ((s.servers server).kv.Overtaken e.op ∧
      ((s.servers server).kv.applyHandler (.command e.op ((s.servers server).delivered + 1)
        e.commandTerm e.snapshotTerm)).2 = some { resTerm := e.snapshotTerm }) := by
  have inv := hserved.inv
  obtain ⟨hlt, hget⟩ := List.getElem?_eq_some_iff.1 he
  rw [inv.applyHandler_eq, (inv.servers server).kv_eq]
  rcases answer_applyEntry inv.distinct inv.log_mem (inv.entry_mem he) with ⟨p, hp, hres⟩ | hover
  · have hlog : s.log.take (s.servers server).delivered ++ [e] ++
        s.log.drop ((s.servers server).delivered + 1) = s.log := by
      rw [← hget, ← List.take_succ_eq_append_getElem hlt, List.take_append_drop]
    have hexec := hp.append (s.log.drop ((s.servers server).delivered + 1))
    have hresult := hp.resultAt_append (s.log.drop ((s.servers server).delivered + 1))
    rw [hlog] at hexec hresult
    exact .inl ⟨p, hexec, by rw [hres, hresult]⟩
  · exact .inr hover

theorem step (hserved : s.Served) (hs : s.step a = some s') : s'.Served where
  inv := step_inv hserved.inv hs
  closed h hclosed := by
    have hstep := step_cases hs
    rcases hstep.closed hclosed with hold | ⟨hd, index, res, -, -, hh'⟩
    · obtain ⟨hd, hh, hended⟩ := hserved.closed h hold
      obtain ⟨phase, hh', hmove⟩ := hstep.handler hh
      exact ⟨_, hh', hmove.ended hended⟩
    · exact ⟨_, hh', trivial⟩
  sending server ch i res hsend := by
    rcases (step_cases hs).applier server with hsame | ⟨e, he, -, htake, -⟩ | ⟨hidle, -⟩
    · exact hserved.sending server ch i res (hsame ▸ hsend)
    · rw [htake, Server.take_applier] at hsend
      obtain ⟨rfl, -, hres⟩ := hsend
      rcases hserved.answer he with ⟨p, -, hanswer⟩ | ⟨-, hanswer⟩
      · rw [hanswer, Option.some.injEq] at hres
        subst hres
        exact err_dbExecute _ _
      · rw [hanswer, Option.some.injEq] at hres
        subst hres
        exact not_false
    · rw [hidle] at hsend
      cases hsend

end Served

theorem served_of_run {as : List Action} (hrun : run step init as = some s) : s.Served :=
  run_invariant (fun _ _ _ hserved hs => hserved.step hs) hrun served_init

/-! ## From the delivery to the reply -/

/-- The applier of its server sends `res` to the handler, which waits. -/
structure Serves (s : System) (h : ℕ) (hd : Handler) (i : ℕ) (res : Result) : Prop where
  handler : s.handlers h = some hd
  applier : (s.servers hd.server).applier = .sending h i res

/-- The applier does not turn away from a handler that waits. -/
theorem Serves.step {i : ℕ} {res : Result} (hserves : s.Serves h hd i res) (hserved : s.Served)
    {index : ℕ} {term : ℤ} (hphase : hd.phase = .waiting index term)
    (hs : s.step a = some s') :
    s'.Serves h hd i res ∨ ∃ hd', s'.handlers h = some hd' ∧ hd'.phase.Over := by
  have hstep := step_cases hs
  obtain ⟨phase, hh', hmove⟩ := hstep.handler hserves.handler
  by_cases hover : phase.Over
  · exact .inr ⟨_, hh', hover⟩
  -- only a handler that does not move is left
  obtain rfl : phase = hd.phase := by
    cases hmove with
    | stay => rfl
    | unknown hearlier | started index term hearlier | register index term hearlier =>
      rw [hphase] at hearlier
      cases hearlier
    | _ => exact absurd trivial hover
  refine .inl ⟨hh', ?_⟩
  rcases hstep.applier hd.server with hsame | ⟨e, -, hidle, -⟩ | ⟨-, rfl | rfl | rfl⟩
  · rw [hsame, hserves.applier]
  · rw [hserves.applier] at hidle
    cases hidle
  · cases hstep with
    | receive server ch j res' hd' index' term' hsend hh hwait =>
      rw [hserves.applier] at hsend
      cases hsend
      have hleft := hh'.symm.trans (Function.update_self _ _ _)
      rw [Option.some.injEq, Handler.mk.injEq, hphase] at hleft
      cases hleft.2.2
  · cases hstep with
    | sendClosed server ch j res' hsend hclosed =>
      rw [hserves.applier] at hsend
      cases hsend
      obtain ⟨hd', hh, hended⟩ := hserved.closed h hclosed
      rw [hserves.handler, Option.some.injEq] at hh
      subst hh
      rw [hphase] at hended
      cases hended
  · cases hs
    have hmap : (s.handlers h).map (Handler.crash hd.server) = some hd := hh'
    rw [hserves.handler, Option.map_some, Option.some.injEq, Handler.crash] at hmap
    simp only [hphase, if_true] at hmap
    have hdead := congrArg Handler.phase hmap
    rw [hphase] at hdead
    cases hdead

theorem leave_of_leaving (hh : s.handlers h = some hd) {index : ℕ} {res : Result}
    (hphase : hd.phase = .leaving index res) :
    ∃ s', s.step (.leave h) = some s' ∧
      s'.handlers h = some { hd with phase := .replied res } := by
  simp only [System.step, System.leave, hh, hphase]
  exact ⟨_, rfl, Function.update_self _ _ _⟩

/-- As long as the handler waits the message is there for it, and it returns what it receives. -/
theorem Serves.returns {i : ℕ} {res : Result} (hserves : s.Serves h hd i res) {index : ℕ}
    {term : ℤ} (hphase : hd.phase = .waiting index term) :
    ∃ s₁ s₂, s.step (.receive hd.server) = some s₁ ∧ s₁.step (.leave h) = some s₂ ∧
      s₂.handlers h = some { hd with phase := .replied (received term (some res)) } := by
  have hreceive : s.step (.receive hd.server) =
      some ((s.setPhase h hd (.leaving index (received term (some res)))).setServer hd.server
        { s.servers hd.server with applier := .idle }) := by
    simp only [System.step, System.receive, hserves.applier, hserves.handler, hphase]
  obtain ⟨s₂, hleave, hh₂⟩ := leave_of_leaving
    (s := (s.setPhase h hd (.leaving index (received term (some res)))).setServer hd.server
      { s.servers hd.server with applier := .idle }) (Function.update_self _ _ _) rfl
  exact ⟨_, s₂, hreceive, hleave, hh₂⟩

theorem Serves.run {i : ℕ} {res : Result} (hserves : s.Serves h hd i res) (hserved : s.Served)
    {index : ℕ} {term : ℤ} (hphase : hd.phase = .waiting index term) {bs : List Action}
    (hrun : DistSys.run System.step s bs = some s') (hstill : s'.handlers h = some hd) :
    s'.Serves h hd i res := by
  have hrest : s'.Served ∧
      (s'.Serves h hd i res ∨ ∃ hd', s'.handlers h = some hd' ∧ hd'.phase.Over) := by
    refine run_invariant (P := fun s => s.Served ∧ (s.Serves h hd i res ∨
      ∃ hd', s.handlers h = some hd' ∧ hd'.phase.Over)) (fun s a s' hP hs => ?_) hrun
      ⟨hserved, .inl hserves⟩
    obtain ⟨hserved, hserves | ⟨hd', hh, hover⟩⟩ := hP
    · exact ⟨hserved.step hs, hserves.step hserved hphase hs⟩
    · obtain ⟨phase, hh', hmove⟩ := (step_cases hs).handler hh
      exact ⟨hserved.step hs, .inr ⟨_, hh', hmove.over hover⟩⟩
  rcases hrest.2 with hserves | ⟨hd', hh, hover⟩
  · exact hserves
  · rw [hstill, Option.some.injEq] at hh
    subst hh
    rw [hphase] at hover
    cases hover

/-! ## No result through the channel -/

/-- The message that a waiting handler gets makes it take the leader for outdated. -/
theorem Served.received_eq (hserved : s.Served) {server i : ℕ} {res : Result} {index : ℕ} {term : ℤ}
    (hsend : (s.servers server).applier = .sending h i res) (hh : s.handlers h = some hd)
    (hphase : hd.phase = .waiting index term) :
    received term (some res) = { err := .errLeaderOutDated } := by
  obtain ⟨⟨hd', hh', hpast⟩, p, e, rfl, he, hterm, -⟩ :=
    (hserved.inv.servers server).sending _ _ _ hsend
  rw [hh, Option.some.injEq] at hh'
  subst hh'
  rw [hphase] at hpast
  obtain rfl : index = p + 1 := hpast
  have hprop := (hserved.inv.handlers h hd hh).2
  rw [hphase] at hprop
  exact hserved.inv.received_eq hprop he hterm

/-- The handler waits, or has waited and gives up or takes the leader for outdated. -/
def Unserved : Phase → Prop
  | .waiting _ _ | .dead => True
  | .leaving _ res | .replied res =>
    res = { err := .errLeaderOutDated } ∨ res = { err := .errHandleOpTimeOut }
  | .called | .starting | .started _ _ => False

theorem Unserved.step (hun : Unserved hd.phase) (hserved : s.Served) (hh : s.handlers h = some hd)
    {phase : Phase} (hmove : Moves s h hd phase) : Unserved phase := by
  cases hmove with
  | stay => exact hun
  | found hisMap hphase hhis | unknown hphase | refused hphase | started index term hphase
  | register index term hphase =>
    rw [hphase] at hun
    exact hun.elim
  | timeout index term hphase => exact .inr rfl
  | receive server i res index term hsend hphase =>
    exact .inl (hserved.received_eq hsend hh hphase)
  | receiveClosed index term hphase hclosed =>
    -- its channel is closed only when it has ended
    obtain ⟨hd', hh', hended⟩ := hserved.closed h hclosed
    rw [hh, Option.some.injEq] at hh'
    subst hh'
    rw [hphase] at hended
    exact hended.elim
  | leave index res hphase =>
    rw [hphase] at hun
    exact hun
  | crash hphase => trivial

theorem Unserved.run (hun : Unserved hd.phase) (hserved : s.Served) (hh : s.handlers h = some hd)
    {bs : List Action} (hrun : DistSys.run System.step s bs = some s') :
    ∃ hd', s'.handlers h = some hd' ∧ Unserved hd'.phase := by
  have hrest : s'.Served ∧ ∃ hd', s'.handlers h = some hd' ∧ Unserved hd'.phase := by
    refine run_invariant (P := fun s => s.Served ∧ ∃ hd', s.handlers h = some hd' ∧
      Unserved hd'.phase) (fun s a s' hP hs => ?_) hrun ⟨hserved, hd, hh, hun⟩
    obtain ⟨hserved, hd, hh, hun⟩ := hP
    obtain ⟨phase, hh', hmove⟩ := (step_cases hs).handler hh
    exact ⟨hserved.step hs, _, hh', hun.step hserved hh hmove⟩
  exact hrest.2

end System

/-- **A waiting request never gets its result.** Let the entry at the index of a registered handler
be delivered while the handler waits, also with the term that its `Start` returned. For as long as
it waits it can meet the applier, and then it returns `ErrLeaderOutDated`; whatever else happens, it
returns this error or that of its timer, and no result. -/
theorem waiting_never_gets_result {as : List System.Action} {s s₁ : System}
    (hrun : run System.step .init as = some s) {h : ℕ} {hd : Handler} {index : ℕ} {term : ℤ}
    (hh : s.handlers h = some hd) (hphase : hd.phase = .waiting index term)
    (hch : (s.servers hd.server).waiCh index = some h)
    (hindex : index = (s.servers hd.server).delivered + 1)
    (hs : s.step (.deliver hd.server) = some s₁) :
    (∀ bs s₂, run System.step s₁ bs = some s₂ → s₂.handlers h = some hd →
      ∃ s₃ s₄, s₂.step (.receive hd.server) = some s₃ ∧ s₃.step (.leave h) = some s₄ ∧
        s₄.handlers h = some { hd with phase := .replied { err := .errLeaderOutDated } }) ∧
    ∀ bs s₂ hd₂ res, run System.step s₁ bs = some s₂ → s₂.handlers h = some hd₂ →
      hd₂.phase = .replied res →
        res = { err := .errLeaderOutDated } ∨ res = { err := .errHandleOpTimeOut } := by
  have hserved := System.served_of_run hrun
  have hserved₁ := hserved.step hs
  cases System.step_cases hs with
  | deliver server e hidle he =>
    refine ⟨fun bs s₂ hrun₂ hstill => ?_, fun bs s₂ hd₂ res hrun₂ hh₂ hreplied => ?_⟩
    · -- the applier sends the answer to the entry, whatever it is
      obtain ⟨res, hres⟩ : ∃ res, ((s.servers hd.server).kv.applyHandler
          (.command e.op ((s.servers hd.server).delivered + 1) e.commandTerm e.snapshotTerm)).2 =
            some res := by
        rcases hserved.answer he with ⟨p, -, hanswer⟩ | ⟨-, hanswer⟩ <;> exact ⟨_, hanswer⟩
      have hserves : System.Serves (s.setServer hd.server ((s.servers hd.server).take e)) h hd index
          res := by
        refine ⟨hh, ?_⟩
        rw [System.servers_setServer, Function.update_self, Server.take_applier]
        exact ⟨hindex, hch, hindex ▸ hres⟩
      have hserves₂ := hserves.run hserved₁ hphase hrun₂ hstill
      have hserved₂ : s₂.Served :=
        run_invariant (fun _ _ _ hserved hs => hserved.step hs) hrun₂ hserved₁
      obtain ⟨s₃, s₄, hreceive, hleave, hh₄⟩ := hserves₂.returns hphase
      refine ⟨s₃, s₄, hreceive, hleave, ?_⟩
      rwa [hserved₂.received_eq hserves₂.applier hserves₂.handler hphase] at hh₄
    · have hun : System.Unserved hd.phase := by
        rw [hphase]
        trivial
      obtain ⟨hd', hh', hun'⟩ := hun.run hserved₁ hh hrun₂
      rw [hh₂, Option.some.injEq] at hh'
      subst hh'
      rw [hreplied] at hun'
      exact hun'

/-- A `Put` whose handler waits at index 1 for term 1, up to its commit. -/
def waitingRun : List System.Action :=
  [.invoke 3 (.put [107] [97]), .call ⟨.put, [107], [97], 0, 3⟩ 0 0, .lookup 0,
    .start 0 (some (1, 1)), .register 0, .commit 1]

theorem waiting_never_gets_result_waitingRun :
    ∃ s s₁, run System.step .init waitingRun = some s ∧
      s.handlers 0 = some ⟨0, ⟨.put, [107], [97], 0, 3⟩, .waiting 1 1⟩ ∧
      s.log = [⟨⟨.put, [107], [97], 0, 3⟩, 1, 0⟩] ∧
      s.step (.deliver 0) = some s₁ ∧ ∃ s₃ s₄, s₁.step (.receive 0) = some s₃ ∧
        s₃.step (.leave 0) = some s₄ ∧ s₄.handlers 0 = some ⟨0, ⟨.put, [107], [97], 0, 3⟩,
          .replied { err := .errLeaderOutDated }⟩ := by
  have h : ∃ s, run System.step .init waitingRun = some s ∧
      s.handlers 0 = some ⟨0, ⟨.put, [107], [97], 0, 3⟩, .waiting 1 1⟩ ∧
      (s.servers 0).waiCh 1 = some 0 ∧ (s.servers 0).delivered = 0 ∧
      s.log = [⟨⟨.put, [107], [97], 0, 3⟩, 1, 0⟩] ∧ s.step (.deliver 0) ≠ none := by
    decide +kernel
  obtain ⟨s, hs, hh, hch, hdelivered, hlog, hdeliver⟩ := h
  obtain ⟨s₁, hs₁⟩ := Option.ne_none_iff_exists'.1 hdeliver
  obtain ⟨hreturns, -⟩ := waiting_never_gets_result hs hh rfl hch (by rw [hdelivered]) hs₁
  have hh₁ : s₁.handlers 0 = some ⟨0, ⟨.put, [107], [97], 0, 3⟩, .waiting 1 1⟩ := by
    cases System.step_cases hs₁ with
    | deliver server e hidle he => exact hh
  obtain ⟨s₃, s₄, hreceive, hleave, hh₄⟩ := hreturns [] s₁ rfl hh₁
  exact ⟨s, s₁, hs, hh, hlog, hs₁, s₃, s₄, hreceive, hleave, hh₄⟩

instance inhabitedOp : Inhabited Op := ⟨⟨.get, [], [], 0, 0⟩⟩

/-- A server of raft with the entry of the `Put`, of term 1, committed. -/
def committedRaft : Raft 3 Op :=
  { Raft.make 0 {} with
    log := [⟨-1, default⟩, ⟨1, ⟨.put, [107], [97], 0, 3⟩⟩]
    commitIndex := 1 }

/-- The message for the entry of a waiting handler, with its index and its term. The handler returns
`ErrLeaderOutDated`. -/
theorem waiting_gets_result_fails :
    ∃ msg, committedRaft.fillBuffer = some [msg] ∧ msg.commandIndex = 1 ∧ msg.commandTerm = 1 ∧
      msg.command = ⟨.put, [107], [97], 0, 3⟩ ∧
      (∃ s, run System.step .init waitingRun = some s ∧
        s.handlers 0 = some ⟨0, msg.command, .waiting 1 1⟩ ∧ (s.servers 0).waiCh 1 = some 0 ∧
        (s.servers 0).delivered = 0 ∧
        s.log = [⟨msg.command, msg.commandTerm, msg.snapshotTerm⟩]) ∧
      ∃ s, run System.step .init (waitingRun ++ [.deliver 0, .receive 0, .leave 0]) = some s ∧
        s.handlers 0 = some ⟨0, msg.command, .replied { err := .errLeaderOutDated }⟩ := by
  refine ⟨{
    commandValid := true
    command := ⟨.put, [107], [97], 0, 3⟩
    commandIndex := 1
    commandTerm := 1 }, ?_⟩
  decide +kernel

end DistSys.KVRaft
