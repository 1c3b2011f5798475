import DistSys.KVSrv.Replies
import DistSys.Lib.CallHistory
import DistSys.Porcupine.OpLog

/-!
# The check of the single key/value server

The tests of `kvsrv` log the calls of the clerks, with the values that `Get` and `Append` returned,
and check that they are linearizable. For a run in which every call has returned, the check does not
fail (`kvsrv_check_passes`).

The log that orders the operations is the list of executed requests. A `Put` or `Append` has its
place in it. A `Get` may be answered several times, with different values; the clerk takes one of
the answers, and the operation stands after the requests that were executed when this answer was
given.
-/

namespace DistSys.KVSrv

open Porcupine (KvInput KvOutput Operation contents contents_update keyOf fillDefault kvModel kvStep
  LinearizableMap Timed Logged Parallel)

/-! ## The calls of a run -/

/-- What the tests log of the request. -/
def Request.kvInput : Request → KvInput
  | .get key _ => ⟨0, key, []⟩
  | .putAppend .put args => ⟨1, args.key, args.value⟩
  | .putAppend .append args => ⟨3, args.key, args.value⟩

/-- What the tests log of the result. `Put` has none. -/
def Request.kvOutput (value : Value) : Request → KvOutput
  | .get _ _ | .putAppend .append _ => ⟨value⟩
  | .putAppend .put _ => ⟨[]⟩

/-- The system and the calls and returns so far. A call is named by the number of the request and
the request. -/
structure Traced where
  st : System
  history : List (CallEv (ℕ × Request) Value)

namespace Traced

def init : Traced := ⟨.init, []⟩

/-- The calls and returns of an action. -/
def observed (st : System) : System.Action → List (CallEv (ℕ × Request) Value)
  | .get clerkId key => [.call (st.requests.length, .get key clerkId) st.applied.length]
  | .putAppend clerkId op key value =>
    [.call (st.requests.length, .putAppend op ⟨key, value, clerkId, st.count clerkId⟩)
      st.applied.length]
  | .deliver _ => []
  | .receive j =>
    (st.replies[j]?.bind fun (i, value) => st.requests[i]?.map fun request =>
      CallEv.ret (i, request) value st.applied.length).toList

def step (t : Traced) (a : System.Action) : Option Traced :=
  (t.st.step a).map fun st => ⟨st, t.history ++ observed t.st a⟩

/-- The call that returned; its times are places in the history. -/
def operation (t : Traced) (r : Return (ℕ × Request) Value) : Operation KvInput KvOutput where
  clientId := r.id.2.clerkId
  input := r.id.2.kvInput
  call := callIndex t.history r.id
  output := r.id.2.kvOutput r.value
  ret := r.index

/-- The calls that have returned. -/
def calls (t : Traced) : List (Operation KvInput KvOutput) := (returns t.history).map t.operation

/-! ## What one step can do -/

variable {t t' : Traced}

/-- The cases of a step. -/
theorem step_cases {a : System.Action} (h : t.step a = some t') :
    (∃ r, (∀ op args, r = .putAppend op args → args.count = t.st.count args.clerkId) ∧
      t.st.pending r.clerkId = none ∧ t' = ⟨{ t.st with
        requests := t.st.requests ++ [r]
        pending := Function.update t.st.pending r.clerkId (some t.st.requests.length) },
        t.history ++ [.call (t.st.requests.length, r) t.st.applied.length]⟩) ∨
    (∃ i r, t.st.requests[i]? = some r ∧ t' = ⟨t.st.handle i r, t.history⟩) ∨
    ∃ i value r, (i, value) ∈ t.st.replies ∧ t.st.requests[i]? = some r ∧
      t.st.pending r.clerkId = some i ∧ t' = ⟨{ t.st with
        pending := Function.update t.st.pending r.clerkId none
        count := r.nextCount t.st.count
        returned := t.st.returned ++ [(i, value)] },
        t.history ++ [.ret (i, r) value t.st.applied.length]⟩ := by
  obtain ⟨st', hstep, rfl⟩ := Option.map_eq_some_iff.1 h
  cases a with
  | get clerkId key =>
    obtain ⟨hidle, rfl⟩ := System.send_eq_some hstep
    exact .inl ⟨.get key clerkId, nofun, hidle, rfl⟩
  | putAppend clerkId op key value =>
    obtain ⟨hidle, rfl⟩ := System.send_eq_some hstep
    refine .inl ⟨_, ?_, hidle, rfl⟩
    rintro op' args' ⟨⟩
    rfl
  | deliver i =>
    obtain ⟨r, hr, rfl⟩ := Option.map_eq_some_iff.1 hstep
    exact .inr (.inl ⟨i, r, hr, by rw [observed, List.append_nil]⟩)
  | receive j =>
    simp only [System.step, Option.bind_eq_bind, Option.bind_eq_some_iff, Prod.exists] at hstep
    obtain ⟨i, value, hj, r, hr, hfinish⟩ := hstep
    obtain ⟨hp, rfl⟩ := System.finish_eq_some hfinish
    refine .inr (.inr ⟨i, value, r, List.mem_of_getElem? hj, hr, hp, ?_⟩)
    simp [observed, hj, hr]

/-- A reply that was there, or that of the request. -/
theorem mem_replies_handle {st : System} {i j : ℕ} {r : Request} {value : Value}
    (hmem : (j, value) ∈ (st.handle i r).replies) :
    (j, value) ∈ st.replies ∨ j = i ∧ ∀ key c, r = .get key c → value = st.server.get key := by
  cases r with
  | get key c =>
    rcases List.mem_append.1 hmem with hmem | hmem
    · exact .inl hmem
    · rw [List.mem_singleton, Prod.mk.injEq] at hmem
      refine .inr ⟨hmem.1, ?_⟩
      rintro key' c' ⟨⟩
      exact hmem.2
  | putAppend op args =>
    rcases List.mem_append.1 hmem with hmem | hmem
    · exact .inl hmem
    · rw [List.mem_singleton, Prod.mk.injEq] at hmem
      exact .inr ⟨hmem.1, nofun⟩

/-! ## The invariant -/

/-- The map after the first `p` executed requests. -/
def contentsAt (applied : List Applied) (p : ℕ) : Key → Value := contents (effects (applied.take p))

theorem contentsAt_append {applied : List Applied} {p : ℕ} (hp : p ≤ applied.length)
    (new : List Applied) : contentsAt (applied ++ new) p = contentsAt applied p := by
  rw [contentsAt, List.take_append_of_le_length hp, contentsAt]

/-- The value is what the key read at a time after the call of request `i`. -/
def ReadAfter (t : Traced) (i : ℕ) (key : Key) (c : ℤ) (value : Value) (n : ℕ) : Prop :=
  ∃ p ≤ n, value = contentsAt t.st.applied p key ∧ ∀ m, .call (i, .get key c) m ∈ t.history → m ≤ p

/-- A call of another request changes nothing. -/
theorem ReadAfter.concat_call {i : ℕ} {key : Key} {c : ℤ} {value : Value} {n : ℕ}
    (h : t.ReadAfter i key c value n) (hi : i < t.st.requests.length) {r : Request} {k : ℕ}
    {st : System} (hst : st.applied = t.st.applied) :
    (⟨st, t.history ++ [.call (t.st.requests.length, r) k]⟩ : Traced).ReadAfter i key c value n := by
  obtain ⟨p, hp, hvalue, hcall⟩ := h
  refine ⟨p, hp, by rw [hvalue, hst], fun m hm => hcall m ?_⟩
  rcases List.mem_append.1 hm with hm | hm
  · exact hm
  · rw [List.mem_singleton] at hm
    cases hm
    exact absurd hi (lt_irrefl _)

theorem ReadAfter.concat_ret {i : ℕ} {key : Key} {c : ℤ} {value : Value} {n : ℕ}
    (h : t.ReadAfter i key c value n) {id : ℕ × Request} {v : Value} {k : ℕ} {st : System}
    (hst : st.applied = t.st.applied) :
    (⟨st, t.history ++ [.ret id v k]⟩ : Traced).ReadAfter i key c value n := by
  obtain ⟨p, hp, hvalue, hcall⟩ := h
  exact ⟨p, hp, by rw [hvalue, hst], fun m hm => hcall m (by simpa using hm)⟩

/-- Requests that are executed later change nothing. -/
theorem ReadAfter.append {i : ℕ} {key : Key} {c : ℤ} {value : Value} {n n' : ℕ}
    (h : t.ReadAfter i key c value n) (hn : n ≤ t.st.applied.length) {st : System}
    {new : List Applied} (hst : st.applied = t.st.applied ++ new) (hn' : n ≤ n') :
    (⟨st, t.history⟩ : Traced).ReadAfter i key c value n' := by
  obtain ⟨p, hp, hvalue, hcall⟩ := h
  exact ⟨p, hp.trans hn', by rw [hvalue, hst, contentsAt_append (hp.trans hn)], hcall⟩

structure Ok (t : Traced) : Prop where
  inv : t.st.Inv
  history : CallHistory t.history
  stamp_le : ∀ ev ∈ t.history, ev.stamp ≤ t.st.applied.length
  called : ∀ i r, t.st.requests[i]? = some r → ∃ m, .call (i, r) m ∈ t.history
  /-- No request is executed before the call. -/
  after : ∀ i r m, .call (i, r) m ∈ t.history → t.st.requests[i]? = some r ∧
    ∀ p e, t.st.applied[p]? = some e → e.index = i → m ≤ p
  reads : ∀ i value key c, (i, value) ∈ t.st.replies → t.st.requests[i]? = some (.get key c) →
    t.ReadAfter i key c value t.st.applied.length
  gets : ∀ i key c value n, .ret (i, .get key c) value n ∈ t.history → t.ReadAfter i key c value n
  puts : ∀ i op args value n, .ret (i, .putAppend op args) value n ∈ t.history →
    (i, value) ∈ t.st.returned ∧ ∃ p < n, t.st.applied[p]? = some ⟨i, op, args⟩
  pending : ∀ c i r, t.st.pending c = some i → (i, r) ∉ returnedIds t.history
  settled : ∀ i r, t.st.requests[i]? = some r →
    (i, r) ∈ returnedIds t.history ∨ t.st.pending r.clerkId = some i

theorem ok_init : init.Ok where
  inv := System.inv_init
  history := .nil
  stamp_le := by simp [init]
  called := by simp [init, System.init]
  after := by simp [init]
  reads := by simp [init, System.init]
  gets := by simp [init]
  puts := by simp [init]
  pending := nofun
  settled := by simp [init, System.init]

namespace Ok

theorem requested (h : t.Ok) {i : ℕ} {r : Request} (hret : (i, r) ∈ returnedIds t.history) :
    t.st.requests[i]? = some r := by
  obtain ⟨value, n, hmem⟩ := mem_returnedIds.1 hret
  obtain ⟨m, hm⟩ := h.history.call_of_ret hmem
  exact (h.after i r m hm).1

/-- A clerk sends a request. -/
theorem send (h : t.Ok) {r : Request}
    (hcount : ∀ op args, r = .putAppend op args → args.count = t.st.count args.clerkId)
    (hidle : t.st.pending r.clerkId = none) :
    (⟨{ t.st with
        requests := t.st.requests ++ [r]
        pending := Function.update t.st.pending r.clerkId (some t.st.requests.length) },
      t.history ++ [.call (t.st.requests.length, r) t.st.applied.length]⟩ : Traced).Ok where
  inv := h.inv.send hcount (by rw [System.send, if_pos hidle])
  history := h.history.concat_call _ h.stamp_le
  stamp_le := by
    intro ev hev
    rcases List.mem_append.1 hev with hev | hev
    · exact h.stamp_le ev hev
    · rw [List.mem_singleton.1 hev]
      exact le_rfl
  called i r' hr' := by
    rcases getElem?_concat_cases hr' with hold | ⟨rfl, rfl⟩
    · obtain ⟨m, hm⟩ := h.called i r' hold
      exact ⟨m, List.mem_append_left _ hm⟩
    · exact ⟨t.st.applied.length, by simp⟩
  after i r' m hm := by
    rcases List.mem_append.1 hm with hm | hm
    · obtain ⟨hreq, hafter⟩ := h.after i r' m hm
      exact ⟨by rw [List.getElem?_append_left (List.getElem?_eq_some_iff.1 hreq).1, hreq], hafter⟩
    · rw [List.mem_singleton] at hm
      cases hm
      refine ⟨List.getElem?_concat_length, fun p e he hindex => ?_⟩
      exact absurd hindex (h.inv.asked e (List.mem_of_getElem? he)).lt.ne
  reads i value key c hmem hreq := by
    have hlt := (h.inv.replies i value hmem).1
    rw [List.getElem?_append_left hlt] at hreq
    exact (h.reads i value key c hmem hreq).concat_call hlt rfl
  gets i key c value n hmem := by
    have hmem : .ret (i, .get key c) value n ∈ t.history := by simpa using hmem
    have hreq := h.requested (mem_returnedIds.2 ⟨value, n, hmem⟩)
    exact (h.gets i key c value n hmem).concat_call
      (List.getElem?_eq_some_iff.1 hreq).1 rfl
  puts i op args value n hmem := h.puts i op args value n (by simpa using hmem)
  pending c i r' hp := by
    change Function.update t.st.pending r.clerkId (some t.st.requests.length) c = some i at hp
    rw [returnedIds_concat_call]
    by_cases hc : c = r.clerkId
    · subst hc
      rw [Function.update_self, Option.some.injEq] at hp
      intro hret
      have hlt := (List.getElem?_eq_some_iff.1 (h.requested hret)).1
      exact absurd hp.symm hlt.ne
    · rw [Function.update_of_ne hc] at hp
      exact h.pending c i r' hp
  settled i r' hr' := by
    rw [returnedIds_concat_call]
    rcases getElem?_concat_cases hr' with hold | ⟨rfl, rfl⟩
    · refine (h.settled i r' hold).imp_right fun hp => ?_
      simp only
      rwa [Function.update_of_ne]
      intro hc
      rw [hc, hidle] at hp
      cases hp
    · exact .inr (by simp only [Function.update_self])

/-- The server handles a request. -/
theorem deliver (h : t.Ok) {i : ℕ} {r : Request} (hr : t.st.requests[i]? = some r) :
    (⟨t.st.handle i r, t.history⟩ : Traced).Ok := by
  obtain ⟨new, happ⟩ : ∃ new, (t.st.handle i r).applied = t.st.applied ++ new := by
    rcases h.inv.handle_cases hr with ⟨-, happ⟩ | ⟨op, args, -, -, -, happ⟩
    · exact ⟨[], by rw [happ, List.append_nil]⟩
    · exact ⟨_, happ⟩
  have hsame : (t.st.handle i r).requests = t.st.requests ∧
      (t.st.handle i r).pending = t.st.pending ∧ (t.st.handle i r).returned = t.st.returned := by
    cases r <;> exact ⟨rfl, rfl, rfl⟩
  obtain ⟨hreqs, hpend, hret⟩ := hsame
  have hle : t.st.applied.length ≤ (t.st.handle i r).applied.length := by
    rw [happ, List.length_append]
    omega
  refine ⟨h.inv.deliver hr, h.history, ?_, ?_, ?_, ?_, ?_, ?_, ?_, ?_⟩
  · exact fun ev hev => (h.stamp_le ev hev).trans hle
  · rw [hreqs]
    exact h.called
  · intro j r' m hm
    obtain ⟨hreq, hafter⟩ := h.after j r' m hm
    refine ⟨by rw [hreqs, hreq], fun p e he hindex => ?_⟩
    rw [happ, List.getElem?_append] at he
    split at he
    · exact hafter p e he hindex
    · have := h.stamp_le _ hm
      exact this.trans (by omega)
  · intro j value key c hmem hreq
    rw [hreqs] at hreq
    rcases mem_replies_handle hmem with hmem | ⟨rfl, hvalue⟩
    · exact (h.reads j value key c hmem hreq).append le_rfl happ hle
    · -- the answer is what the key reads now
      rw [hr, Option.some.injEq] at hreq
      refine ⟨_, hle, ?_, fun m hm => h.stamp_le _ hm⟩
      rw [happ, contentsAt_append le_rfl, contentsAt, List.take_length, ← h.inv.map,
        hvalue key c hreq]
      rfl
  · intro j key c value n hmem
    exact (h.gets j key c value n hmem).append (h.stamp_le _ hmem) happ le_rfl
  · intro j op args value n hmem
    obtain ⟨hmem', p, hp, he⟩ := h.puts j op args value n hmem
    refine ⟨by rwa [hret], p, hp, ?_⟩
    rw [happ, List.getElem?_append_left (List.getElem?_eq_some_iff.1 he).1, he]
  · rw [hpend]
    exact h.pending
  · rw [hpend, hreqs]
    exact h.settled

/-- The clerk gets a reply. -/
theorem receive (h : t.Ok) {i : ℕ} {value : Value} {r : Request} (hmem : (i, value) ∈ t.st.replies)
    (hr : t.st.requests[i]? = some r) (hp : t.st.pending r.clerkId = some i) :
    (⟨{ t.st with
        pending := Function.update t.st.pending r.clerkId none
        count := r.nextCount t.st.count
        returned := t.st.returned ++ [(i, value)] },
      t.history ++ [.ret (i, r) value t.st.applied.length]⟩ : Traced).Ok where
  inv := h.inv.finish hmem hr (by rw [System.finish, if_pos hp])
  history := h.history.concat_ret value h.stamp_le (h.called i r hr) (h.pending _ i r hp)
  stamp_le := by
    intro ev hev
    rcases List.mem_append.1 hev with hev | hev
    · exact h.stamp_le ev hev
    · rw [List.mem_singleton.1 hev]
      exact le_rfl
  called j r' hr' := by
    obtain ⟨m, hm⟩ := h.called j r' hr'
    exact ⟨m, List.mem_append_left _ hm⟩
  after j r' m hm := h.after j r' m (by simpa using hm)
  reads j value' key c hmem' hreq := by
    exact (h.reads j value' key c hmem' hreq).concat_ret rfl
  gets j key c value' n hmem' := by
    rcases List.mem_append.1 hmem' with hmem' | hmem'
    · exact (h.gets j key c value' n hmem').concat_ret rfl
    · rw [List.mem_singleton] at hmem'
      cases hmem'
      exact (h.reads i value key c hmem hr).concat_ret rfl
  puts j op args value' n hmem' := by
    rcases List.mem_append.1 hmem' with hmem' | hmem'
    · obtain ⟨hret, hexec⟩ := h.puts j op args value' n hmem'
      exact ⟨List.mem_append_left _ hret, hexec⟩
    · rw [List.mem_singleton] at hmem'
      cases hmem'
      refine ⟨by simp, ?_⟩
      obtain ⟨hin, -⟩ := (h.inv.replies i value hmem).2 ⟨i, op, args⟩ hr rfl hp
      obtain ⟨p, hp, he⟩ := List.mem_iff_getElem.1 hin
      exact ⟨p, hp, by rw [List.getElem?_eq_getElem hp, he]⟩
  pending c j r' hp' := by
    change Function.update t.st.pending r.clerkId none c = some j at hp'
    by_cases hc : c = r.clerkId
    · subst hc
      rw [Function.update_self] at hp'
      cases hp'
    · rw [Function.update_of_ne hc] at hp'
      rw [returnedIds_concat_ret, List.mem_append, List.mem_singleton, not_or]
      refine ⟨h.pending c j r' hp', ?_⟩
      rintro ⟨⟩
      obtain ⟨r', hr', hc'⟩ := h.inv.pending c i hp'
      rw [hr, Option.some.injEq] at hr'
      exact hc (by rw [← hc', hr'])
  settled j r' hr' := by
    rw [returnedIds_concat_ret, List.mem_append, List.mem_singleton]
    by_cases hj : j = i
    · subst hj
      rw [hr, Option.some.injEq] at hr'
      exact .inl (.inr (by rw [hr']))
    · refine (h.settled j r' hr').imp .inl fun hp' => ?_
      change Function.update t.st.pending r.clerkId none r'.clerkId = some j
      rwa [Function.update_of_ne]
      intro hc
      rw [hc, hp, Option.some.injEq] at hp'
      exact hj hp'.symm

theorem step {a : System.Action} (h : t.Ok) (hstep : t.step a = some t') : t'.Ok := by
  rcases step_cases hstep with ⟨r, hcount, hidle, rfl⟩ | ⟨i, r, hr, rfl⟩ |
    ⟨i, value, r, hmem, hr, hp, rfl⟩
  · exact h.send hcount hidle
  · exact h.deliver hr
  · exact h.receive hmem hr hp

end Ok

/-! ## Positions -/

/-- An executed request is a step of the model. -/
theorem stepAt_effect (e : Applied) (map : Key → Option Value) {value : Value}
    (hvalue : e.op = .append → value = contents map e.args.key) (client call ret : ℤ) :
    stepAt keyOf (fillDefault kvModel).stepOf (contents map)
      ⟨client, (Request.putAppend e.op e.args).kvInput, call,
        (Request.putAppend e.op e.args).kvOutput value, ret⟩ = some (contents (e.effect map)) := by
  rcases e with ⟨i, op, args⟩
  rw [Porcupine.stepAt_kvModel]
  cases op with
  | put => simp [Request.kvInput, kvStep, Applied.effect, contents_update]
  | append =>
    have hvalue := hvalue rfl
    simp [Request.kvInput, Request.kvOutput, kvStep, Applied.effect, contents_update, hvalue,
      contents]

theorem stepAt_get (map : Key → Option Value) (key : Key) (c client call ret : ℤ) :
    stepAt keyOf (fillDefault kvModel).stepOf (contents map)
      ⟨client, (Request.get key c).kvInput, call,
        (Request.get key c).kvOutput (contents map key), ret⟩ = some (contents map) := by
  rw [Porcupine.stepAt_kvModel]
  simp [Request.kvInput, Request.kvOutput, kvStep]

theorem contentsAt_succ {applied : List Applied} {p : ℕ} {e : Applied} (he : applied[p]? = some e) :
    contentsAt applied (p + 1) = contents (e.effect (effects (applied.take p))) := by
  obtain ⟨hlt, rfl⟩ := List.getElem?_eq_some_iff.1 he
  rw [contentsAt, List.take_succ_eq_append_getElem hlt, effects_concat]

def isWrite (r : Return (ℕ × Request) Value) : Bool :=
  match r.id.2 with
  | .get _ _ => false
  | .putAppend _ _ => true

namespace Ok

/-- A request is executed once. -/
theorem position_unique (h : t.Ok) {p q : ℕ} {e e' : Applied} (hp : t.st.applied[p]? = some e)
    (hq : t.st.applied[q]? = some e') (hindex : e.index = e'.index) : p = q := by
  have hlt : p < (t.st.applied.map Applied.index).length := by
    rw [List.length_map]
    exact (List.getElem?_eq_some_iff.1 hp).1
  refine (List.getElem?_inj hlt h.inv.nodup).1 ?_
  rw [List.getElem?_map, List.getElem?_map, hp, hq, Option.map_some, Option.map_some, hindex]

/-- What an `Append` returned. -/
theorem returned_read (h : t.Ok) {p i : ℕ} {op : Op} {args : PutAppendArgs} {value : Value}
    (hret : (i, value) ∈ t.st.returned) (hp : t.st.applied[p]? = some ⟨i, op, args⟩)
    (hop : op = .append) : value = contentsAt t.st.applied p args.key := by
  have hasked := h.inv.asked _ (List.mem_of_getElem? hp)
  obtain ⟨pre, ⟨post, hpost⟩, hvalue⟩ := ((h.inv.returned i value hret).2 _ hasked rfl).2 hop
  have hlen : pre.length = p :=
    h.position_unique (by rw [hpost, List.getElem?_append_right le_rfl, Nat.sub_self]; rfl) hp rfl
  rw [hvalue, contentsAt, hpost, ← hlen, List.take_left]
  rfl

/-- The position of a call that has returned. -/
theorem exists_position (h : t.Ok) {r : Return (ℕ × Request) Value} (hr : r ∈ returns t.history) :
    ∃ p, (∀ m, .call r.id m ∈ t.history → m ≤ p) ∧
      (∀ n, t.history[r.index]? = some (.ret r.id r.value n) →
        p ≤ n ∧ (isWrite r = true → p < n)) ∧
      (isWrite r = false → p ≤ t.st.applied.length ∧
        stepAt keyOf (fillDefault kvModel).stepOf (contentsAt t.st.applied p) (t.operation r) =
          some (contentsAt t.st.applied p)) ∧
      (isWrite r = true → (∃ e, t.st.applied[p]? = some e ∧ e.index = r.id.1) ∧
        stepAt keyOf (fillDefault kvModel).stepOf (contentsAt t.st.applied p) (t.operation r) =
          some (contentsAt t.st.applied (p + 1))) := by
  obtain ⟨n, hn⟩ := mem_returns.1 hr
  have hmem := List.mem_of_getElem? hn
  rcases r with ⟨⟨i, request⟩, value, index⟩
  have hsame : ∀ n', t.history[index]? = some (.ret (i, request) value n') → n' = n := by
    intro n' hn'
    rw [hn] at hn'
    cases hn'
    rfl
  cases request with
  | get key c =>
    obtain ⟨p, hp, hvalue, hcall⟩ := h.gets i key c value n hmem
    refine ⟨p, hcall, fun n' hn' => ⟨hsame n' hn' ▸ hp, nofun⟩, fun _ => ⟨?_, ?_⟩, nofun⟩
    · exact hp.trans (h.stamp_le _ hmem)
    · subst hvalue
      exact stepAt_get _ _ _ _ _ _
  | putAppend op args =>
    obtain ⟨hret, p, hp, he⟩ := h.puts i op args value n hmem
    refine ⟨p, fun m hm => (h.after i _ m hm).2 p _ he rfl, fun n' hn' => ?_, nofun,
      fun _ => ⟨⟨_, he, rfl⟩, ?_⟩⟩
    · rw [hsame n' hn']
      exact ⟨hp.le, fun _ => hp⟩
    · rw [contentsAt_succ he]
      exact stepAt_effect ⟨i, op, args⟩ _ (h.returned_read hret he) _ _ _

/-- The calls of a run without pending calls are linearizable. -/
theorem linearizableMap (h : t.Ok) (hidle : ∀ r ∈ t.st.requests, t.st.pending r.clerkId = none) :
    LinearizableMap t.calls := by
  choose! pos hcall hret hget hput using fun r hr => h.exists_position (r := r) hr
  refine (linearizable_map (f := t.operation) (fun _ _ _ => rfl) fun _ _ _ _ => Iff.rfl).1
    (h.history.linearizable_returns (contentsAt t.st.applied) t.st.applied.length pos isWrite
      ?_ hget ?_ ?_ hcall hret)
  · intro r hr hw
    obtain ⟨⟨e, he, -⟩, hstep⟩ := hput r hr hw
    exact ⟨(List.getElem?_eq_some_iff.1 he).1, hstep⟩
  · intro r hr r' hr' hw hw' heq
    obtain ⟨⟨e, he, hi⟩, -⟩ := hput r hr hw
    obtain ⟨⟨e', he', hi'⟩, -⟩ := hput r' hr' hw'
    rw [heq, he', Option.some.injEq] at he
    have hreq := h.requested (List.mem_map_of_mem hr)
    have hreq' := h.requested (List.mem_map_of_mem hr')
    have hindex : r.id.1 = r'.id.1 := by rw [← hi, ← hi', he]
    rw [hindex, hreq', Option.some.injEq] at hreq
    exact Prod.ext hindex hreq.symm
  · -- every executed request belongs to a call that has returned
    intro p hp hno
    have he := List.getElem?_eq_getElem hp
    have hasked := h.inv.asked _ (List.getElem_mem hp)
    have hidle := hidle _ (List.mem_of_getElem? hasked)
    have hret := (h.settled _ _ hasked).resolve_right (by rw [hidle]; nofun)
    obtain ⟨r, hr, hid⟩ := List.mem_map.1 hret
    have hw : isWrite r = true := by rw [isWrite, hid]
    obtain ⟨⟨e, he', hi⟩, -⟩ := hput r hr hw
    exact absurd (h.position_unique he' he (by rw [hi, hid])) (hno r hr hw)

theorem calls_timed (h : t.Ok) : Timed t.calls := by
  intro op hop
  obtain ⟨r, hr, rfl⟩ := List.mem_map.1 hop
  obtain ⟨m, -, hlt⟩ := h.history.callIndex_lt hr
  exact Int.ofNat_le.2 hlt.le

end Ok

end Traced

/-- **The check of the server passes.** What the tests log of a run without pending calls is
linearizable, with the values that `Get` and `Append` returned, and the check of it does not return
`Illegal`, in any order in which it runs. -/
theorem kvsrv_check_passes {as : List System.Action} {t : Traced}
    (hrun : run Traced.step .init as = some t)
    (hidle : ∀ r ∈ t.st.requests, t.st.pending r.clerkId = none)
    {clock : ℤ → ℤ} (hclock : Monotone clock) {operations : List (Operation KvInput KvOutput)}
    (hlog : Logged clock operations t.calls) :
    LinearizableMap operations ∧
    ∀ byTime computeInfo timeout acts (p : Parallel KvInput KvOutput Value) result info,
      run (Parallel.step (fillDefault kvModel) computeInfo timeout)
        (Porcupine.checkOperations byTime kvModel operations) acts = some p →
      p.main = .done result info → result ≠ .illegal := by
  have h : t.Ok := run_invariant (fun _ _ _ h hs => h.step hs) hrun Traced.ok_init
  have hlin := h.linearizableMap hidle
  exact ⟨hlog.linearizableMap hclock hlin, fun _ _ _ _ _ _ _ hcheck hmain =>
    hlog.not_illegal hclock h.calls_timed hlin hcheck hmain⟩

/-- Two copies of a `Get` are answered before and after an `Append`; the clerk takes the first
answer. -/
def lateGetRun : List System.Action :=
  [.get 2 [0], .putAppend 1 .append [0] [5], .deliver 0, .deliver 1, .deliver 0, .receive 1,
    .receive 0]

theorem kvsrv_check_passes_lateGetRun :
    ∃ t, run Traced.step .init lateGetRun = some t ∧
      t.calls = [⟨1, ⟨3, [0], [5]⟩, 1, ⟨[]⟩, 2⟩, ⟨2, ⟨0, [0], []⟩, 0, ⟨[]⟩, 3⟩] ∧
      LinearizableMap t.calls := by
  obtain ⟨t, ht, hidle, hcalls⟩ : ∃ t, run Traced.step .init lateGetRun = some t ∧
      (∀ r ∈ t.st.requests, t.st.pending r.clerkId = none) ∧
      t.calls = [⟨1, ⟨3, [0], [5]⟩, 1, ⟨[]⟩, 2⟩, ⟨2, ⟨0, [0], []⟩, 0, ⟨[]⟩, 3⟩] := by
    decide +kernel
  refine ⟨t, ht, hcalls, (kvsrv_check_passes ht hidle monotone_id ⟨t.calls, ?_, .refl _⟩).1⟩
  exact List.forall₂_same.2 fun _ _ => ⟨rfl, rfl, le_rfl, le_rfl⟩

end DistSys.KVSrv
