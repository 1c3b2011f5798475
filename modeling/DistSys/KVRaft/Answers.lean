import DistSys.KVRaft.OverRaft

/-!
# Where answers come from

`waiting_never_gets_result` is about the service on an assumed log. On raft it holds of all handlers
and whatever raft does, also when the servers do not agree: the message of a command has no
`SnapshotTerm`, and the term that `Start` returns is positive. So a `HandleOp` that has called
`Start` has nothing to return but an error after which the clerk sends its request again, and what a
clerk accepts was in the `historyMap` of a server when a later call looked.

* `OnRaft` — what a step on raft can do to the service, whatever raft delivers.
* `Phase.Denied` — the handler has called `Start`, and its clerk is to try again.
* `Found` — the result was in a `historyMap` at some moment of the run.

Main result: `started_never_answers`.
-/

namespace DistSys.KVRaft

variable {n : ℕ} {decode : Raft.Data → SnapShot} {st st' : System} {c c' : Cluster n Op}

/-! ## Handlers and appliers on raft -/

/-- A step on raft, as far as the service goes; `c` is the cluster before it. -/
inductive OnRaft (c : Cluster n Op) (decode : Raft.Data → SnapShot) (st : System) : System → Prop
  | stay : OnRaft c decode st st
  | step (a : System.Action) (st' : System) (ha : ∀ q, a ≠ .deliver q)
      (hstep : System.Step st a st') : OnRaft c decode st st'
  | told (k : ℕ) (hd : Handler) (q : Fin n) (hh : st.handlers k = some hd)
      (hphase : hd.phase = .starting) :
      OnRaft c decode st (st.setPhase k hd (((c.servers q).start hd.opArgs).2.elim
        (.replied { err := .errNotLeader }) fun p => .started p.1 p.2))
  | take (q : Fin n) (msg : Raft.ApplyMsg Op)
      (hmsg : msg ∈ (c.servers q).checker.buffer ∨ msg ∈ (c.servers q).snapSenders)
      (hidle : (st.servers q).applier = .idle) :
      OnRaft c decode st (st.setServer q ((st.servers q).handle decode msg))

theorem onRaft_of_step {a : RaftService.Action n Op System.Action ℕ}
    (h : (service n decode).Step st c a st' c') : OnRaft c decode st st' := by
  have htaken : ∀ {q : Fin n} {msg : Raft.ApplyMsg Op},
      msg ∈ (c.servers q).checker.buffer ∨ msg ∈ (c.servers q).snapSenders →
      (service n decode).take st q msg = some st' → OnRaft c decode st st' := by
    intro q msg hmsg htake
    simp only [service, System.handle] at htake
    split at htake
    · rename_i hidle
      cases htake
      exact .take q msg hmsg hidle
    · cases htake
  cases h with
  | act a hact =>
    simp only [service] at hact
    split at hact
    · rename_i hlocal
      refine .step a st' ?_ (System.step_cases hact)
      rintro q rfl
      exact hlocal
    · cases hact
  | start hask hraft =>
    obtain ⟨hd, hh, hphase, hop⟩ := System.asks_eq_some hask
    simp only [service, System.told_eq hh, ← hop]
    exact .told _ hd _ hh hphase
  | raft | check => exact .stay
  | deliver hr htake hraft =>
    obtain ⟨buf, hbuf⟩ := Raft.commitChecker_sends hr
    refine htaken (.inl ?_) htake
    rw [hbuf]
    exact List.mem_cons_self
  | sendSnapshot q k hmsg htake hraft => exact htaken (.inr (List.mem_of_getElem? hmsg)) htake
  | @crash q c' hraft =>
    have hs : st.step (.restart q) = some (st.crash q) := rfl
    exact .step _ _ (fun _ heq => by cases heq) (System.step_cases hs)

theorem handler_change (hterm : ∀ q, 0 < (c.servers q).currentTerm) (hch : OnRaft c decode st st')
    {h : ℕ} {hd : Handler} (hh : st.handlers h = some hd) :
    ∃ phase, st'.handlers h = some { hd with phase := phase } ∧ System.Moves st h hd phase := by
  cases hch with
  | stay => exact ⟨hd.phase, hh, .stay⟩
  | step a st' ha hstep => exact hstep.handler hh
  | told k hd₀ q hh₀ hphase =>
    refine System.moves_setPhase hh hh₀ ?_
    by_cases hl : (c.servers q).state = .leader
    · rw [Raft.start_of_leader hl]
      exact .started _ _ hphase (hterm q)
    · rw [Raft.start_of_ne_leader hl]
      exact .refused hphase
  | take q msg hmsg hidle => exact ⟨hd.phase, hh, .stay⟩

/-- A handler that was not there has just been called. -/
theorem handler_new (hch : OnRaft c decode st st') {h : ℕ} {hd' : Handler}
    (hh : st.handlers h = none) (hh' : st'.handlers h = some hd') : hd'.phase = .called := by
  cases hch with
  | stay =>
    rw [hh] at hh'
    cases hh'
  | step a st' ha hstep =>
    rcases hstep.handler_cases hh' with hcalled | ⟨hd, hsome, -⟩
    · exact hcalled
    · rw [hh] at hsome
      cases hsome
  | told k hd₀ q hh₀ hphase =>
    have hne : h ≠ k := by
      rintro rfl
      rw [hh] at hh₀
      cases hh₀
    rw [System.setPhase, System.handlers_setHandler, Function.update_of_ne hne, hh] at hh'
    cases hh'
  | take q msg hmsg hidle =>
    rw [show (st.setServer q _).handlers h = none from hh] at hh'
    cases hh'

theorem KVServer.resTerm_applyCommand {kv : KVServer} {op : Op} {index : ℕ} {term : ℤ}
    {res : Result} (h : (kv.applyCommand op index term).2 = some res) : res.resTerm = term := by
  unfold applyCommand at h
  split at h <;> cases h
  rfl

/-- What a server holds for a handler has the `SnapshotTerm` of the message. -/
theorem Server.resTerm_handle {sv : Server} {msg : Raft.ApplyMsg Op} {ch i : ℕ} {res : Result}
    (hidle : sv.applier = .idle) (h : (sv.handle decode msg).applier = .sending ch i res) :
    msg.commandValid = true ∧ res.resTerm = msg.snapshotTerm := by
  unfold Server.handle at h
  split at h
  · rename_i hvalid
    simp only at h
    split at h
    · rename_i res' ch' hres hch
      cases h
      exact ⟨hvalid, KVServer.resTerm_applyCommand hres⟩
    · cases h
  · split at h
    · rw [hidle] at h
      cases h
    · rw [hidle] at h
      cases h

theorem applier_change (hunset : c.Unset) (hch : OnRaft c decode st st') {q ch i : ℕ}
    {res : Result} (hsend : (st'.servers q).applier = .sending ch i res) :
    (st.servers q).applier = .sending ch i res ∨ res.resTerm = 0 := by
  cases hch with
  | stay => exact .inl hsend
  | step a st' ha hstep =>
    rcases hstep.applier q with hsame | ⟨e, -, -, -, rfl⟩ | ⟨hidle, -⟩
    · exact .inl (hsame ▸ hsend)
    · exact absurd rfl (ha q)
    · rw [hidle] at hsend
      cases hsend
  | told k hd q' hh hphase => exact .inl hsend
  | take q' msg hmsg hidle =>
    rw [System.servers_setServer] at hsend
    by_cases hq : q = q'
    · subst hq
      rw [Function.update_self] at hsend
      obtain ⟨hvalid, hres⟩ := Server.resTerm_handle hidle hsend
      exact .inr (hres.trans (hunset.waiting hmsg hvalid))
    · rw [Function.update_of_ne hq] at hsend
      exact .inl hsend

/-! ## Handlers that have called `Start` -/

/-- The term of the entry that the handler is to wait for. -/
def Phase.awaited : Phase → Option ℤ
  | .started _ term | .waiting _ term => some term
  | .called | .starting | .leaving _ _ | .replied _ | .dead => none

/-- The handler has called `Start`, and what it returns makes the clerk send its request again. -/
def Phase.Denied : Phase → Prop
  | .started _ term | .waiting _ term => 0 < term
  | .leaving _ res | .replied res => res.err.Retried
  | .dead => True
  | .called | .starting => False

/-- Results have no term, and the entries that handlers wait for have one. -/
structure Denying (st : System) : Prop where
  appliers : ∀ q ch i res, (st.servers q).applier = .sending ch i res → res.resTerm = 0
  handlers : ∀ h hd term, st.handlers h = some hd → hd.phase.awaited = some term → 0 < term

namespace Denying

variable {h : ℕ} {hd : Handler} {phase : Phase}

theorem init : Denying .init where
  appliers q ch i res hsend := by cases hsend
  handlers h hd term hh := by cases hh

theorem received_retried (hden : Denying st) {server i : ℕ} {res : Result} {term : ℤ}
    (hsend : (st.servers server).applier = .sending h i res) (hterm : 0 < term) :
    (received term (some res)).err.Retried := by
  rw [received, if_neg]
  · trivial
  · rw [hden.appliers _ _ _ _ hsend]
    exact hterm.ne

/-- **A handler that has called `Start` stays without an answer.** -/
theorem denied (hden : Denying st) (hdenied : hd.phase.Denied)
    (hmove : System.Moves st h hd phase) : phase.Denied := by
  cases hmove with
  | stay => exact hdenied
  | found hisMap hphase | unknown hphase | refused hphase | started index term hphase =>
    rw [hphase] at hdenied
    exact hdenied.elim
  | register index term hphase | leave index res hphase =>
    rw [hphase] at hdenied
    exact hdenied
  | timeout | receiveClosed | crash => trivial
  | receive server i res index term hsend hphase =>
    rw [hphase] at hdenied
    exact hden.received_retried hsend hdenied

theorem awaited_pos (hden : Denying st) (hh : st.handlers h = some hd)
    (hmove : System.Moves st h hd phase) {term : ℤ} (hawaited : phase.awaited = some term) :
    0 < term := by
  cases hmove with
  | stay => exact hden.handlers h hd term hh hawaited
  | started index term' hphase hterm =>
    cases hawaited
    exact hterm
  | register index term' hphase =>
    cases hawaited
    exact hden.handlers h hd term hh (by rw [hphase]; rfl)
  | _ => cases hawaited

theorem step (hden : Denying st) (hunset : c.Unset) (hterm : ∀ q, 0 < (c.servers q).currentTerm)
    (hch : OnRaft c decode st st') : Denying st' where
  appliers q ch i res hsend := by
    rcases applier_change hunset hch hsend with hold | hzero
    · exact hden.appliers q ch i res hold
    · exact hzero
  handlers h hd' term hh' hawaited := by
    cases hh : st.handlers h with
    | none =>
      rw [handler_new hch hh hh'] at hawaited
      cases hawaited
    | some hd =>
      obtain ⟨phase, hphase, hmove⟩ := handler_change hterm hch hh
      rw [hphase, Option.some.injEq] at hh'
      subst hh'
      exact hden.awaited_pos hh hmove hawaited

end Denying

/-! ## Answers -/

/-- The result of the operation was in the history of a server at some moment of the run. -/
def Found (n : ℕ) (decode : Raft.Data → SnapShot)
    (as : List (RaftService.Action n Op System.Action ℕ)) (op : Op) (res : Result) : Prop :=
  ∃ bs cs w, as = bs ++ cs ∧ run (service n decode).step (.init, .init) bs = some w ∧
    ∃ q, (w.1.servers q).kv.historyMap op.identifier = some res ∧ res.lastSeq = op.seq

theorem Found.concat {as : List (RaftService.Action n Op System.Action ℕ)} {op : Op} {res : Result}
    (h : Found n decode as op res) (a : RaftService.Action n Op System.Action ℕ) :
    Found n decode (as ++ [a]) op res := by
  obtain ⟨bs, cs, w, rfl, hrest⟩ := h
  exact ⟨bs, cs ++ [a], w, List.append_assoc _ _ _, hrest⟩

/-- A clerk returns with what a handler has replied. -/
theorem System.Step.returns {s s' : System} {a : System.Action} (hstep : System.Step s a s')
    {op : Op} {value : Value} {k : ℕ} (hmem : .ret op value k ∈ s'.history) :
    .ret op value k ∈ s.history ∨ ∃ h hd res, s.handlers h = some hd ∧ hd.phase = .replied res ∧
      ¬ res.err.Retried ∧ hd.opArgs = op ∧ value = returned op res := by
  cases hstep with
  | invoke identifier c op' hidle hop =>
    refine .inl ((List.mem_append.1 hmem).resolve_right fun hnew => ?_)
    cases List.mem_singleton.1 hnew
  | ret h hd res hh hphase hpending hfinal =>
    refine (List.mem_append.1 hmem).imp_right fun hnew => ?_
    cases List.mem_singleton.1 hnew
    exact ⟨h, hd, res, hh, hphase, hfinal, rfl, rfl⟩
  | _ => exact .inl hmem

theorem returns_change (hch : OnRaft c decode st st') {op : Op} {value : Value} {k : ℕ}
    (hmem : .ret op value k ∈ st'.history) :
    .ret op value k ∈ st.history ∨ ∃ h hd res, st.handlers h = some hd ∧ hd.phase = .replied res ∧
      ¬ res.err.Retried ∧ hd.opArgs = op ∧ value = returned op res := by
  cases hch with
  | step a st' ha hstep => exact hstep.returns hmem
  | stay | told k' hd q hh hphase | take q msg hmsg hidle => exact .inl hmem

/-- What is known after the actions `as`. -/
structure Answered (decode : Raft.Data → SnapShot)
    (as : List (RaftService.Action n Op System.Action ℕ)) (w : System × Cluster n Op) : Prop where
  reached : run (service n decode).step (.init, .init) as = some w
  raft : ∃ bs, run Cluster.step .init bs = some w.2
  denying : Denying w.1
  outcomes : ∀ h hd res, w.1.handlers h = some hd → hd.phase.outcome = some res →
    ¬ res.err.Retried → Found n decode as hd.opArgs res
  returns : ∀ op value k, .ret op value k ∈ w.1.history →
    ∃ res, Found n decode as op res ∧ value = returned op res

namespace Answered

variable {as : List (RaftService.Action n Op System.Action ℕ)}
  {a : RaftService.Action n Op System.Action ℕ} {w w' : System × Cluster n Op}

theorem init : Answered (n := n) decode [] (.init, .init) where
  reached := rfl
  raft := ⟨[], rfl⟩
  denying := .init
  outcomes h hd res hh := by cases hh
  returns op value k hmem := by cases hmem

theorem term_pos (h : Answered decode as w) (q : Fin n) : 0 < (w.2.servers q).currentTerm := by
  obtain ⟨bs, hbs⟩ := h.raft
  obtain ⟨g, he⟩ := exists_elected hbs
  exact he.term_pos q

/-- A handler gets its answer from the history. -/
theorem outcome (h : Answered decode as w) {k : ℕ} {hd : Handler} {phase : Phase}
    (hh : w.1.handlers k = some hd) (hmove : System.Moves w.1 k hd phase) {res : Result}
    (hout : phase.outcome = some res) (hfinal : ¬ res.err.Retried) :
    Found n decode as hd.opArgs res := by
  cases hmove with
  | stay => exact h.outcomes k hd res hh hout hfinal
  | found hisMap hphase hhis hseq =>
    cases hout
    exact ⟨as, [], w, (List.append_nil _).symm, h.reached, hd.server, hhis, hseq⟩
  | refused hphase | timeout index term hphase | receiveClosed index term hphase hclosed =>
    cases hout
    exact absurd trivial hfinal
  | receive server i res' index term hsend hphase =>
    cases hout
    refine absurd (h.denying.received_retried hsend ?_) hfinal
    exact h.denying.handlers k hd term hh (by rw [hphase]; rfl)
  | leave index res' hphase =>
    cases hout
    exact h.outcomes k hd res hh (by rw [hphase]; rfl) hfinal
  | unknown hphase | started index term hphase hterm | register index term hphase | crash hphase =>
    cases hout

theorem step (h : Answered decode as w) (hstep : (service n decode).step w a = some w') :
    Answered decode (as ++ [a]) w' := by
  have hcases := RaftService.step_cases hstep
  have hch := onRaft_of_step hcases
  obtain ⟨bs, hbs⟩ := hcases.run_raft
  obtain ⟨cs, hcs⟩ := h.raft
  refine ⟨run_append_of h.reached (run_cons_eq_some.2 ⟨w', hstep, rfl⟩),
    ⟨cs ++ bs, run_append_of hcs hbs⟩,
    h.denying.step (Cluster.unset_of_run hcs) h.term_pos hch, fun k hd' res hh' hout hfinal => ?_,
    fun op value k hmem => ?_⟩
  · cases hh : w.1.handlers k with
    | none =>
      rw [handler_new hch hh hh'] at hout
      cases hout
    | some hd =>
      obtain ⟨phase, hphase, hmove⟩ := handler_change h.term_pos hch hh
      rw [hphase, Option.some.injEq] at hh'
      subst hh'
      exact (h.outcome hh hmove hout hfinal).concat a
  · rcases returns_change hch hmem with hold | ⟨h₀, hd, res, hh, hphase, hfinal, rfl, hvalue⟩
    · obtain ⟨res, hfound, hvalue⟩ := h.returns op value k hold
      exact ⟨res, hfound.concat a, hvalue⟩
    · exact ⟨res, (h.outcomes h₀ hd res hh (by rw [hphase]; rfl) hfinal).concat a, hvalue⟩

end Answered

/-- **No answer comes through a channel.** A `HandleOp` that has called `Start` has, at any later
moment, nothing to return but an error that makes the clerk send its request again. What a clerk
returns was the result of its request in the history of a server. -/
theorem started_never_answers {as bs : List (RaftService.Action n Op System.Action ℕ)}
    {w w' : System × Cluster n Op}
    (hrun : run (service n decode).step (.init, .init) as = some w)
    (hrun' : run (service n decode).step w bs = some w') :
    (∀ h hd index term, w.1.handlers h = some hd → hd.phase = .started index term →
      ∃ hd', w'.1.handlers h = some hd' ∧
        ∀ res, hd'.phase.outcome = some res → res.err.Retried) ∧
    ∀ op value k, .ret op value k ∈ w'.1.history →
      ∃ res, Found n decode (as ++ bs) op res ∧ value = returned op res := by
  have h₀ : Answered (n := n) decode [] (.init, .init) := .init
  have hw : Answered decode as w :=
    run_history (P := Answered decode) (fun _ _ _ _ hP hstep => hP.step hstep) hrun h₀
  refine ⟨fun h hd index term hh hphase => ?_, ?_⟩
  · have hdenied : hd.phase.Denied := by
      have hpos := hw.denying.handlers h hd term hh (by rw [hphase]; rfl)
      rwa [hphase]
    obtain ⟨-, hd', hh', hdenied'⟩ := run_history
      (P := fun as w => Answered decode as w ∧ ∃ hd', w.1.handlers h = some hd' ∧ hd'.phase.Denied)
      (fun as w a w' hP hstep => by
        obtain ⟨hw, hd, hh, hdenied⟩ := hP
        obtain ⟨phase, hh', hmove⟩ :=
          handler_change hw.term_pos (onRaft_of_step (RaftService.step_cases hstep)) hh
        exact ⟨hw.step hstep, _, hh', hw.denying.denied hdenied hmove⟩)
      hrun' ⟨hw, hd, hh, hdenied⟩
    refine ⟨hd', hh', fun res hout => ?_⟩
    generalize hd'.phase = phase at hdenied' hout
    cases phase with
    | leaving index res' | replied res' =>
      cases hout
      exact hdenied'
    | _ => cases hout
  · exact (run_history (P := Answered decode) (fun _ _ _ _ hP hstep => hP.step hstep) hrun'
      hw).returns

theorem started_never_answers_onRaftRun :
    ∃ w w', run (service 3 fun _ => .empty).step (.init, .init) (onRaftRun.take 13) = some w ∧
      run (service 3 fun _ => .empty).step w (onRaftRun.drop 13) = some w' ∧
      w.1.handlers 0 = some ⟨0, ⟨.put, [107], [97], 0, 4⟩, .started 1 2⟩ ∧
      (∃ hd', w'.1.handlers 0 = some hd' ∧
        ∀ res, hd'.phase.outcome = some res → res.err.Retried) ∧
      ∃ res, Found 3 (fun _ => .empty) (onRaftRun.take 13 ++ onRaftRun.drop 13)
        ⟨.get, [107], [], 1, 4⟩ res ∧ [97, 98] = res.value := by
  obtain ⟨w, hw, hh, w', hw', hret⟩ : ∃ w,
      run (service 3 fun _ => .empty).step (.init, .init) (onRaftRun.take 13) = some w ∧
      w.1.handlers 0 = some ⟨0, ⟨.put, [107], [97], 0, 4⟩, .started 1 2⟩ ∧
      ∃ w', run (service 3 fun _ => .empty).step w (onRaftRun.drop 13) = some w' ∧
        .ret ⟨.get, [107], [], 1, 4⟩ [97, 98] 0 ∈ w'.1.history := by
    decide +kernel
  obtain ⟨hdenied, hfound⟩ := started_never_answers hw hw'
  exact ⟨w, w', hw, hw', hh, hdenied 0 _ 1 2 hh rfl, hfound _ _ _ hret⟩

end DistSys.KVRaft
