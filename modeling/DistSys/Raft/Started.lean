import DistSys.Raft.Delivery
import DistSys.Raft.Slices

/-!
# Commands come from `Start`

A command that raft hands to a service was passed to `Start` before, by a call that returned the
index and the term of the command; and no two calls return one index with one term. This holds in
all runs, with crashes, lost messages and snapshots.

The invariant (`Started`) says it of every place where an entry can be: the logs above their
placeholders, the messages of the leaders, and the buffers of `CommitChecker`. A request that is
overwritten before it is encoded shows other entries, but a place in the array keeps its index, so
what is written there was started at that index too. That an index and a term are given out once is
Election Safety: a term has one leader, and its log does not get shorter (`Issued`).

Main result: `delivered_started`.
-/

namespace DistSys

open Raft

variable {n : ℕ} {C : Type} [Inhabited C]

/-! ## Segments -/

/-- Each entry after the first meets `P` at its index; the first one stands at index `b`. -/
def Above {E : Type*} (P : ℕ → E → Prop) (b : ℕ) (l : List E) : Prop :=
  ∀ r e, l[r + 1]? = some e → P (b + r + 1) e

namespace Above

variable {E : Type*} {P P' : ℕ → E → Prop} {b : ℕ} {l : List E}

theorem singleton (e : E) : Above P b [e] := fun r e' h => by simp at h

theorem mono (h : Above P b l) (hP : ∀ i e, P i e → P' i e) : Above P' b l :=
  fun r e he => hP _ _ (h r e he)

theorem drop (h : Above P b l) (k : ℕ) : Above P (b + k) (l.drop k) := by
  intro r e he
  rw [List.getElem?_drop] at he
  have := h (k + r) e he
  rwa [show b + (k + r) + 1 = b + k + r + 1 by omega] at this

theorem cons_congr {p p' : E} (h : Above P b (p :: l)) : Above P b (p' :: l) :=
  fun r e he => h r e he

theorem concat (h : Above P b l) {e : E} (he : P (b + l.length) e) : Above P b (l ++ [e]) := by
  intro r e' hr
  rcases getElem?_concat_cases hr with hold | ⟨hlen, rfl⟩
  · exact h r e' hold
  · rwa [Nat.add_assoc, hlen]

/-- What follows position `m` is replaced by the rest of another segment. -/
theorem splice (h : Above P b l) {b₁ : ℕ} {l₁ : List E} (h₁ : Above P b₁ l₁) {m j : ℕ}
    (hb : b + m = b₁ + j) (hm : m < l.length) :
    Above P b (l.take (m + 1) ++ l₁.drop (j + 1)) := by
  intro r e he
  have hlen : (l.take (m + 1)).length = m + 1 := by rw [List.length_take]; omega
  rcases Nat.lt_or_ge r m with hr | hr
  · rw [List.getElem?_append_left (by omega), List.getElem?_take_of_lt (by omega)] at he
    exact h r e he
  · rw [List.getElem?_append_right (by omega), hlen, List.getElem?_drop] at he
    have := h₁ (j + (r - m)) e (by rwa [show j + (r - m) + 1 = j + 1 + (r + 1 - (m + 1)) by omega])
    rwa [show b + r + 1 = b₁ + (j + (r - m)) + 1 by omega]

end Above

namespace Raft

variable {rf rf' : Raft n C} {P : ℕ → LogEntry C → Prop}

/-! ## One server -/

theorem above_logAt (h : Above P rf.lastIncludedIndex rf.log) {v : ℕ} {e : LogEntry C}
    (hv : rf.lastIncludedIndex < v) (he : rf.logAt v = some e) : P v e := by
  obtain ⟨hle, he⟩ := logAt_eq_some.1 he
  have hP := h (v - rf.lastIncludedIndex - 1) e
    (by rwa [show v - rf.lastIncludedIndex - 1 + 1 = v - rf.lastIncludedIndex by omega])
  rwa [show rf.lastIncludedIndex + (v - rf.lastIncludedIndex - 1) + 1 = v by omega] at hP

theorem Consecutive.lt_index {i : ℕ} {msgBuf : List (ApplyMsg C)} (h : Consecutive i msgBuf) :
    ∀ msg ∈ msgBuf, i < msg.commandIndex := by
  induction msgBuf generalizing i with
  | nil => exact fun _ hmsg => absurd hmsg List.not_mem_nil
  | cons first msgBuf ih =>
    intro msg hmsg
    obtain ⟨hidx, -, hrest⟩ := h
    rcases List.mem_cons.1 hmsg with rfl | hmsg
    · omega
    · have := ih hrest msg hmsg
      omega

/-- A buffer is filled from the log. -/
theorem above_fillBuffer (h : Above P rf.lastIncludedIndex rf.log)
    (hbase : rf.lastIncludedIndex ≤ rf.lastApplied) {msgBuf : List (ApplyMsg C)}
    (hbuf : rf.fillBuffer = some msgBuf) :
    ∀ msg ∈ msgBuf, P msg.commandIndex ⟨msg.commandTerm, msg.command⟩ := by
  intro msg hmsg
  rw [fillBuffer] at hbuf
  split at hbuf
  · cases hbuf
  · have hlt := (collect_consecutive hbase hbuf).lt_index msg hmsg
    obtain ⟨-, e, he, hcommand, hterm⟩ := collect_terms hbuf msg hmsg
    rw [hcommand, hterm]
    exact above_logAt h (hbase.trans_lt hlt) he

/-- A move of a server empties the buffer, takes messages from it, or fills it from the log. -/
theorem Move.buffer_cases (hm : Move rf rf') :
    (∀ msg ∈ rf'.checker.buffer, msg ∈ rf.checker.buffer) ∨
      rf.fillBuffer = some rf'.checker.buffer := by
  have hsame : SameDelivery rf rf' → ∀ msg ∈ rf'.checker.buffer, msg ∈ rf.checker.buffer := by
    intro hs msg hmsg
    rcases hs.checker with he | ⟨-, he⟩
    · exact he ▸ hmsg
    · rw [he] at hmsg
      cases hmsg
  cases hm with
  | idle => exact .inl fun _ h => h
  | start command hl => exact .inl fun _ h => h
  | preVote hl => exact .inl fun _ h => h
  | election => exact .inl fun _ h => h
  | handle rpc rpc' _ hr =>
    rcases sameDelivery_handle hr with hs | ⟨args, -, -, rfl⟩
    · exact .inl (hsame hs)
    · exact .inl fun _ h => h
  | finish rpc server _ hr => exact .inl (hsame (sameDelivery_finish hr))
  | commitChecker _ sent hr =>
    unfold Raft.commitChecker at hr
    split at hr
    · cases hr
      exact .inl fun _ h => by cases h
    · cases hr
    · obtain ⟨buf, hbuf, hr⟩ := Option.bind_eq_some_iff.1 hr
      cases hr
      exact .inr hbuf
    · cases hr
      exact .inl fun _ h => by cases h
    · rename_i first buf hch
      cases hr
      rw [hch]
      exact .inl fun _ h => List.mem_cons_of_mem first h
    · rename_i first buf hch
      rw [hch]
      simp only at hr
      split at hr <;> cases hr <;> exact .inl fun _ h => h
  | sendSnapshot k => exact .inl fun _ h => h
  | snapshot index data _ hr =>
    rcases snapshot_cases hr with rfl | ⟨-, -, e, -, rfl⟩ <;> exact .inl fun _ h => h
  | grow => exact .inl fun _ h => h
  | crash =>
    rw [make_checker]
    exact .inl fun _ h => by cases h

/-- Accepting a message. -/
theorem above_mergedLog (h : Above P rf.lastIncludedIndex rf.log) {args : AppendEntriesArgs n C}
    (hargs : Above P args.prevLogIndex args.segment) {prev : LogEntry C}
    (hprev : rf.logAt args.prevLogIndex = some prev) (hterm : prev.term = args.prevLogTerm) :
    Above P rf.lastIncludedIndex (rf.mergedLog args) := by
  rcases mergedLog_splice hprev hterm with heq | ⟨i, j, p, p', hp, -, -, hidx, heq⟩
  · rwa [heq]
  · rw [heq]
    exact h.splice hargs hidx (List.getElem?_eq_some_iff.1 hp).1

theorem above_segment (h : Above P rf.lastIncludedIndex rf.log) {i : Fin n}
    {args : AppendEntriesArgs n C} (hargs : rf.doLeaderFor i = some (i, .sendAppendEntries args)) :
    Above P args.prevLogIndex args.segment := by
  obtain ⟨-, k, prev, hk, hdrop, -⟩ := segment_of_doLeaderFor hargs
  have habove := h.drop k
  rw [hdrop, ← hk] at habove
  exact habove.cons_congr

theorem above_handle (h : Above P rf.lastIncludedIndex rf.log) {rpc rpc' : Rpc n C}
    (hr : rpc.handle rf = some (rf', rpc'))
    (hargs : ∀ args reply, rpc = .appendEntries args reply →
      Above P args.prevLogIndex args.segment) :
    Above P rf'.lastIncludedIndex rf'.log := by
  rcases Rpc.handle_cases hr with ⟨args, reply, hrpc, -, hr⟩ | ⟨args, reply, -, -, hr⟩ |
    ⟨-, -, rfl⟩ | ⟨args, reply, -, -, hr⟩
  · have hsame := sameLog_adoptTerm rf args.term
    have hadopted :
        Above P (rf.adoptTerm args.term).lastIncludedIndex (rf.adoptTerm args.term).log := by
      rwa [hsame.log, hsame.lastIncludedIndex]
    rcases appendEntries_cases hr with ⟨rfl, -⟩ | ⟨-, -, rfl⟩ | ⟨-, -, ⟨prev, hprev, hterm⟩, rfl⟩
    · exact h
    · exact hadopted
    · obtain ⟨ch, hch, -⟩ := acceptEntries_eq (rf.adoptTerm args.term) args
      have hprev' : (rf.adoptTerm args.term).logAt args.prevLogIndex = some prev := by
        rwa [logAt, realLogIdx, hsame.log, hsame.lastIncludedIndex]
      rw [hch]
      exact above_mergedLog hadopted (hargs args none hrpc) hprev' hterm
  · have hsame := sameLog_requestVote hr
    rwa [hsame.log, hsame.lastIncludedIndex]
  · exact h
  · have hcases := installSnapshot_cases rf args
    rw [hr] at hcases
    rcases hcases with rfl | ⟨-, rfl⟩
    · exact h
    · change Above P args.lastIncludedIndex (rf.installedLog args)
      rcases installedLog_cases rf args with ⟨k, e, -, -, hk, heq⟩ | ⟨-, heq⟩
      · rw [heq, ← hk]
        exact h.drop k
      · rw [heq]
        exact .singleton _

theorem above_snapshot (h : Above P rf.lastIncludedIndex rf.log) {index : ℕ} {data : Data}
    (hr : rf.snapshot index data = some rf') : Above P rf'.lastIncludedIndex rf'.log := by
  rcases snapshot_cases hr with rfl | ⟨hlt, -, e, -, rfl⟩
  · exact h
  · have := h.drop (index - rf.lastIncludedIndex)
    rwa [Nat.add_sub_cancel' hlt.le] at this

/-! ## The cluster -/

/-- `Start` has returned the index and the term of the entry. -/
def IsStarted (tr : List (Event n C)) (i : ℕ) (e : LogEntry C) : Prop :=
  ∃ s, .start s i e.term e.command ∈ tr

theorem IsStarted.mono {tr tr' : List (Event n C)} (htr : tr <+: tr') {i : ℕ} {e : LogEntry C}
    (h : IsStarted tr i e) : IsStarted tr' i e := by
  obtain ⟨s, hs⟩ := h
  exact ⟨s, htr.subset hs⟩

end Raft

structure Cluster.Started (c : Cluster n C) : Prop where
  sound : c.Sound
  dated : c.Dated
  served : ∀ s, Served (fun _ => True) (c.servers s)
  logs : ∀ s, Above (IsStarted c.trace) (c.servers s).lastIncludedIndex (c.servers s).log
  tasks : ∀ t ∈ c.tasks, ∀ args, t.task = .sendAppendEntries args →
    Above (IsStarted c.trace) args.prevLogIndex args.segment
  /-- What a slice can show: also the first entry of a log that has been cut since. -/
  shared : ∀ t ∈ c.tasks, c.Shares t → ∀ args, t.task = .sendAppendEntries args →
    ∀ v e, args.prevLogIndex < v → (c.servers t.caller).logAt v = some e → IsStarted c.trace v e
  calls : ∀ call ∈ c.calls, ∀ args reply, call.rpc = .appendEntries args reply →
    Above (IsStarted c.trace) args.prevLogIndex args.segment
  buffers : ∀ s, ∀ msg ∈ (c.servers s).checker.buffer,
    IsStarted c.trace msg.commandIndex ⟨msg.commandTerm, msg.command⟩
  /-- The call of `Start` comes before the delivery. -/
  delivered : ∀ k s epoch msg, c.trace[k]? = some (.apply s epoch msg) → msg.commandValid = true →
    IsStarted (c.trace.take k) msg.commandIndex ⟨msg.commandTerm, msg.command⟩

namespace Cluster.Started

variable {c c' : Cluster n C} {a : Action n C}

theorem init : (Cluster.init : Cluster n C).Started where
  sound := sound_init
  dated := .init
  served s := served_make s {} fun _ _ => trivial
  logs s := .singleton _
  tasks t ht := by cases ht
  shared t ht := by cases ht
  calls call hcall := by cases hcall
  buffers s msg hmsg := by cases hmsg
  delivered k s epoch msg hk := by simp [Cluster.init] at hk

theorem logs_act (h : c.Started) (hcases : Step c a c') (q : Fin n) :
    Above (IsStarted c'.trace) (c'.servers q).lastIncludedIndex (c'.servers q).log := by
  have hold : ∀ q, Above (IsStarted c'.trace) (c.servers q).lastIncludedIndex (c.servers q).log :=
    fun q => (h.logs q).mono fun _ _ hP => hP.mono hcases.trace
  have hset : ∀ {s : Fin n} {rf : Raft n C},
      Above (IsStarted c'.trace) rf.lastIncludedIndex rf.log →
      Above (IsStarted c'.trace) ((c.set s rf).servers q).lastIncludedIndex
        ((c.set s rf).servers q).log := fun hs =>
    forall_set (P := fun _ rf => Above (IsStarted c'.trace) rf.lastIncludedIndex rf.log) hold hs q
  have hsame : ∀ {s : Fin n} {rf : Raft n C}, SameLog (c.servers s) rf →
      Above (IsStarted c'.trace) rf.lastIncludedIndex rf.log := by
    intro s rf hs
    rw [hs.log, hs.lastIncludedIndex]
    exact hold s
  cases hcases with
  | idle => exact hold q
  | start s command hl =>
    refine hset (Above.concat (hold s) ⟨s, List.mem_append_right _ ?_⟩)
    rw [virtualLogIdx, Nat.add_comm]
    exact List.mem_singleton_self _
  | spawn a s gs hl hgs => exact hold q
  | preVote s hl => exact hset (hsame ⟨rfl, rfl, rfl, rfl⟩)
  | election s rf args hcand h =>
    obtain ⟨rfl, -⟩ := beginElection_eq_some h
    exact hset (hsame ⟨rfl, rfl, rfl, rfl⟩)
  | dropTask k => exact hold q
  | runTask k t rpc ht hep hl hrpc => exact hold q
  | encode k t j ht hj => exact hold q
  | deliver k call rf rpc hk hr =>
    exact hset (above_handle (hold call.server) hr (h.calls call (List.mem_of_getElem? hk)))
  | receive k call rf hk hw hep hr => exact hset (hsame (Rpc.sameLog_finish hr))
  | lose k call hk hep => exact hold q
  | commitChecker s rf msg hr => exact hset (hsame (sameLog_commitChecker hr))
  | sendSnapshot s k msg hk => exact hset (hsame ⟨rfl, rfl, rfl, rfl⟩)
  | snapshot s index data rf hr => exact hset (above_snapshot (hold s) hr)
  | grow s => exact hset (hsame ⟨rfl, rfl, rfl, rfl⟩)
  | crash s =>
    have hmake := (h.sound.durable s).sameLog_make
    rw [h.sound.me s] at hmake
    exact hset (hsame hmake)

theorem shared_act (h : c.Started) (hcases : Step c a c') : ∀ t ∈ c'.tasks, c'.Shares t →
    ∀ args, t.task = .sendAppendEntries args → ∀ v e, args.prevLogIndex < v →
      (c'.servers t.caller).logAt v = some e → IsStarted c'.trace v e := by
  intro t ht hshares args hargs v e hv he
  have hmono : ∀ i e, IsStarted c.trace i e → IsStarted c'.trace i e :=
    fun _ _ hP => hP.mono hcases.trace
  -- what is written was started just now, or was when the request that brings it was built
  have hwrites := hcases.writes (P := fun _ v e => IsStarted c'.trace v e)
    (fun s i command _ _ _ hev => ⟨s, hev⟩)
    (fun k call args _ hk hargs _ i e he => by
      have hsegment := h.calls call (List.mem_of_getElem? hk) args none hargs i e he
      rw [show args.prevLogIndex + 1 + i = args.prevLogIndex + i + 1 by omega]
      exact hmono _ _ hsegment)
  rcases hcases.mem_tasks ht with ⟨old, hold, j, rfl, -⟩ | ⟨s, i, -, hsend, heq, hservers, -⟩
  · obtain ⟨hshares, hepoch, harray⟩ := h.dated.shares hcases hold hshares
    rcases hwrites old.caller with hlt | ⟨-, hwrites⟩
    · exact absurd hepoch hlt.ne'
    · rcases hwrites.logAt harray v e he with hlog | hnew
      · exact hmono v e (h.shared old hold hshares args hargs v e hv hlog)
      · exact hnew
  · rw [hservers, heq] at he
    rw [hargs] at hsend
    obtain ⟨-, k, prev, hk, -⟩ := segment_of_doLeaderFor hsend
    exact hmono v e (above_logAt (h.logs s) (by omega) he)

/-- **Every action keeps the invariant.** -/
theorem act (h : c.Started) (hcases : Step c a c') : c'.Started := by
  have hmove := hcases.move h.sound
  have hmono : ∀ i e, IsStarted c.trace i e → IsStarted c'.trace i e :=
    fun _ _ hP => hP.mono hcases.trace
  refine ⟨h.sound.act hcases, h.dated.act hcases, fun s => (h.served s).move (hmove s),
    h.logs_act hcases, fun t ht args hargs => ?_, h.shared_act hcases,
    fun call hcall args reply hargs => ?_, fun s msg hmsg => ?_, fun k s epoch msg hk hvalid => ?_⟩
  · rcases hcases.mem_tasks ht with ⟨old, hold, j, rfl, -⟩ | ⟨s, i, -, hsend, -⟩
    · exact (h.tasks old hold args hargs).mono hmono
    · rw [hargs] at hsend
      exact (above_segment (h.logs s) hsend).mono hmono
  · rcases hcases.mem_appendEntries hcall hargs with ⟨old, hold, reply', hold'⟩ | ⟨t, ht, htask⟩
    · exact (h.calls old hold args reply' hold').mono hmono
    · exact (h.tasks t ht args htask).mono hmono
  · rcases (hmove s).buffer_cases with hbuf | hbuf
    · exact hmono _ _ (h.buffers s msg (hbuf msg hmsg))
    · exact hmono _ _ (above_fillBuffer (h.logs s) (h.served s).base_le hbuf msg hmsg)
  · have hmem := List.mem_of_getElem? hk
    obtain ⟨es, htrace⟩ := hcases.trace
    rw [← htrace] at hk ⊢
    rcases Nat.lt_or_ge k c.trace.length with hlt | hge
    · rw [List.getElem?_append_left hlt] at hk
      rw [List.take_append_of_le_length hlt.le]
      exact h.delivered k s epoch msg hk hvalid
    · have hbefore : c.trace <+: (c.trace ++ es).take k := by
        rw [List.take_append]
        exact (List.take_of_length_le hge).symm ▸ List.prefix_append _ _
      refine IsStarted.mono hbefore ?_
      rcases hcases.mem_apply hmem with hold | hbuf | hsnap
      · obtain ⟨j, hj⟩ := List.mem_iff_getElem?.1 hold
        exact (h.delivered j s epoch msg hj hvalid).mono (List.take_prefix _ _)
      · exact h.buffers s msg hbuf
      · rw [((h.served s).snapshots msg hsnap).2] at hvalid
        cases hvalid

/-- Reading the slices again shows only entries that were started. -/
theorem refresh (h : c.Started) : c.refresh.Started where
  sound := ⟨h.sound.me, h.sound.durable, h.sound.log_ne_nil⟩
  dated := h.dated.refresh
  served := h.served
  logs := h.logs
  tasks t ht args hargs := by
    obtain ⟨old, hold, rfl | ⟨hshares, rfl⟩, -⟩ := mem_refresh ht
    · exact h.tasks _ hold args hargs
    · obtain ⟨args', htask, rfl⟩ := Spawned.task_reread hargs
      intro r e he
      rcases AppendEntriesArgs.getElem?_reread he with he | he
      · exact h.tasks old hold args' htask r e he
      · have hstarted := h.shared old hold hshares args' htask _ e (by omega) he
        rwa [show args'.prevLogIndex + 1 + r = args'.prevLogIndex + r + 1 by omega] at hstarted
  shared t ht hshares args hargs := by
    obtain ⟨old, hold, rfl | ⟨hshares', rfl⟩, hcaller, -⟩ := mem_refresh ht
    · exact h.shared _ hold hshares args hargs
    · obtain ⟨args', htask, rfl⟩ := Spawned.task_reread hargs
      rw [hcaller]
      exact h.shared old hold hshares' args' htask
  calls := h.calls
  buffers := h.buffers
  delivered := h.delivered

theorem step (h : c.Started) (hstep : c.step a = some c') : c'.Started := by
  obtain ⟨c₀, hact, rfl⟩ := Cluster.step_cases hstep
  exact (h.act hact).refresh

end Cluster.Started

/-! ## Indices and terms -/

/-- The calls of `Start` that returned a term were made to its leader, which has not gone below
them. -/
def Cluster.Issued (c : Cluster n C) (g : History n) : Prop :=
  ∀ s i t command, .start s i t command ∈ c.trace → c.Within g s i t

namespace Cluster.Issued

variable {c c' : Cluster n C} {a : Action n C} {g : History n}

/-- A leader's next index has not been returned with its term. -/
theorem fresh (h : c.Issued g) (he : Elected c g) {s r : Fin n} {command : C}
    (hl : (c.servers s).state = .leader) :
    .start r ((c.servers s).virtualLogIdx (c.servers s).log.length) (c.servers s).currentTerm
      command ∉ c.trace :=
  fun hmem => Within.not_next he hl (h _ _ _ _ hmem)

theorem act (h : c.Issued g) (he : Elected c g) (hstep : Step c a c') :
    c'.Issued (g.observe c') := by
  intro s i t command hmem
  rcases hstep.mem_start hmem with hold | ⟨-, hl, rfl, rfl, hservers⟩
  · exact (h s i t command hold).act he hstep
  · exact .appendCommand he hl hservers

end Cluster.Issued

/-- `Start` returns an index with a term once. -/
def Raft.StartedOnce (tr : List (Event n C)) : Prop :=
  ∀ (j j' : ℕ) s s' i t command command', tr[j]? = some (Event.start s i t command) →
    tr[j']? = some (Event.start s' i t command') → j = j'

namespace Raft.StartedOnce

variable {tr : List (Event n C)}

theorem concat (h : StartedOnce tr) {ev : Event n C}
    (hev : ∀ s s' i t command command', ev = .start s i t command →
      Event.start s' i t command' ∉ tr) : StartedOnce (tr ++ [ev]) := by
  intro j j' s s' i t command command' hj hj'
  rcases getElem?_concat_cases hj with hold | ⟨hlen, hnew⟩ <;>
    rcases getElem?_concat_cases hj' with hold' | ⟨hlen', hnew'⟩
  · exact h j j' s s' i t command command' hold hold'
  · exact absurd (List.mem_of_getElem? hold) (hev s' s i t command' command hnew'.symm)
  · exact absurd (List.mem_of_getElem? hold') (hev s s' i t command command' hnew.symm)
  · rw [hlen, hlen']

theorem concat_other (h : StartedOnce tr) {ev : Event n C}
    (hev : ∀ s i t command, ev ≠ .start s i t command) : StartedOnce (tr ++ [ev]) :=
  h.concat fun s _ i t command _ heq => absurd heq (hev s i t command)

theorem act {c c' : Cluster n C} {a : Action n C} {g : History n} (h : StartedOnce c.trace)
    (he : Elected c g) (hi : c.Issued g) (hstep : Cluster.Step c a c') : StartedOnce c'.trace := by
  cases hstep with
  | start s command hl =>
    refine h.concat fun r r' i t cmd cmd' heq hmem => ?_
    cases heq
    exact hi.fresh he hl hmem
  | receive k call rf hk hw hep hr =>
    simp only [Cluster.finishCall, Cluster.commitEvents]
    split
    · exact h.concat_other fun _ _ _ _ heq => by cases heq
    · rw [List.append_nil]
      exact h
  | commitChecker s rf msg hr =>
    cases msg with
    | none =>
      simp only [Cluster.emit, Cluster.set, Option.toList_none, List.map_nil, List.append_nil]
      exact h
    | some msg => exact h.concat_other fun _ _ _ _ heq => by cases heq
  | sendSnapshot s k msg hk => exact h.concat_other fun _ _ _ _ heq => by cases heq
  | crash s => exact h.concat_other fun _ _ _ _ heq => by cases heq
  | _ => exact h

end Raft.StartedOnce

/-- **Commands come from `Start`.** In every run, a command that is handed to a service was passed
to `Start` before, which returned its index and term; and `Start` returns an index with a term
once. -/
theorem delivered_started {c : Cluster n C} {as : List (Action n C)}
    (h : run Cluster.step Cluster.init as = some c) :
    (∀ (k : ℕ) s epoch msg, c.trace[k]? = some (Event.apply s epoch msg) → msg.commandValid = true →
      ∃ j s', j < k ∧
        c.trace[j]? = some (Event.start s' msg.commandIndex msg.commandTerm msg.command)) ∧
    StartedOnce c.trace := by
  obtain ⟨hstarted, honce, -⟩ := run_invariant
    (P := fun c => c.Started ∧ StartedOnce c.trace ∧ ∃ g, Elected c g ∧ c.Issued g)
    (fun c a c' hP hstep => by
      obtain ⟨hs, honce, g, he, hi⟩ := hP
      obtain ⟨c₀, hact, rfl⟩ := Cluster.step_cases hstep
      have honce₀ := honce.act he hi hact
      have hi₀ := hi.act he hact
      exact ⟨hs.step hstep, honce₀, _, he.step hstep, hi₀⟩) h
    ⟨.init, fun j j' s s' i t command command' hj => by simp [Cluster.init] at hj,
      _, Elected.init, fun s i t command hmem => by cases hmem⟩
  refine ⟨fun k s epoch msg hk hvalid => ?_, honce⟩
  obtain ⟨s', hs'⟩ := hstarted.delivered k s epoch msg hk hvalid
  obtain ⟨j, hj, heq⟩ := List.mem_take_iff_getElem.1 hs'
  exact ⟨j, s', by omega, by rw [List.getElem?_eq_getElem (by omega), heq]⟩

theorem delivered_started_orderlyRun :
    ∃ c : Cluster 3 ℕ, run Cluster.step Cluster.init orderlyRun = some c ∧
      (∃ (k : ℕ) (epoch : ℕ) (msg : ApplyMsg ℕ),
        c.trace[k]? = some (.apply 2 epoch msg) ∧ msg.commandValid = true ∧
        ∃ j s', j < k ∧
          c.trace[j]? = some (Event.start s' msg.commandIndex msg.commandTerm msg.command)) ∧
      StartedOnce c.trace := by
  obtain ⟨c, hc, k, -, hk⟩ : ∃ c : Cluster 3 ℕ, run Cluster.step Cluster.init orderlyRun = some c ∧
      ∃ k < 7, c.trace[k]? = some (.apply 2 0
        { commandValid := true, command := 8, commandIndex := 2, commandTerm := 2 }) := by
    decide +kernel
  have h := delivered_started hc
  exact ⟨c, hc, ⟨k, 0, _, hk, rfl, h.1 k 2 0 _ hk rfl⟩, h.2⟩

end DistSys
