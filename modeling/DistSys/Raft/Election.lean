import DistSys.Lib.Majority
import DistSys.Raft.Steps

/-!
# Election Safety

At most one server is ever leader of a term. The votes that count are those in `votedFor`, which is
saved and forgotten when the term changes; `History` remembers them for all terms, together with
the leaders seen so far.

The counter `voteCount` says nothing by itself: it survives changes of term and role. What it
means is tied to the calls that a candidate still waits for (`Elected.tally`): as long as a vote
request of the current term is unanswered, `voteCount` is at most the number of servers that have
voted for the candidate and whose request is no longer open. A late vote can therefore only be
counted for the server that sent it, and a leader's term has a majority of votes
(`Elected.won`).

Main result: `leader_unique`.
-/

namespace DistSys

open Raft

variable {n : ℕ} {C : Type} [Inhabited C]

/-- The votes cast and the leaders seen, for every term. -/
structure History (n : ℕ) where
  vote : Fin n → ℤ → Option (Fin n)
  leader : ℤ → Option (Fin n)

namespace History

def init : History n where
  vote _ _ := none
  leader _ := none

/-- The history after the cluster has reached `c`. -/
def observe (g : History n) (c : Cluster n C) : History n where
  vote s T := if T = (c.servers s).currentTerm then (c.servers s).votedFor else g.vote s T
  leader T := (g.leader T).or
    ((List.finRange n).find? fun s =>
      (c.servers s).state = .leader ∧ (c.servers s).currentTerm = T)

/-- Nothing is forgotten. -/
structure Le (g g' : History n) : Prop where
  vote : ∀ {s T q}, g.vote s T = some q → g'.vote s T = some q
  leader : ∀ {T s}, g.leader T = some s → g'.leader T = some s

theorem observe_leader_of_some {g : History n} {T : ℤ} {s : Fin n} (h : g.leader T = some s)
    (c : Cluster n C) : (g.observe c).leader T = some s := by
  simp only [observe, h, Option.some_or]

theorem observe_vote_self (g : History n) (c : Cluster n C) (s : Fin n) :
    (g.observe c).vote s (c.servers s).currentTerm = (c.servers s).votedFor := if_pos rfl

theorem observe_vote_of_ne (g : History n) {c : Cluster n C} {s : Fin n} {T : ℤ}
    (h : T ≠ (c.servers s).currentTerm) : (g.observe c).vote s T = g.vote s T := if_neg h

/-- Nothing changes when every leader is known. -/
theorem observe_leader_eq (g : History n) {c : Cluster n C}
    (h : ∀ s, (c.servers s).state = .leader → g.leader (c.servers s).currentTerm = some s) :
    (g.observe c).leader = g.leader := by
  funext T
  cases hT : g.leader T with
  | some s => exact observe_leader_of_some hT c
  | none =>
    simp only [observe, hT, Option.none_or, List.find?_eq_none, List.mem_finRange,
      forall_const, decide_eq_true_eq, not_and]
    intro s hs hterm
    have hled := h s hs
    rw [hterm, hT] at hled
    cases hled

theorem observe_leader_cases {g : History n} {c : Cluster n C} {T : ℤ} {s : Fin n}
    (h : (g.observe c).leader T = some s) :
    g.leader T = some s ∨
      (g.leader T = none ∧ (c.servers s).state = .leader ∧ (c.servers s).currentTerm = T) := by
  cases hT : g.leader T with
  | some r =>
    rw [observe_leader_of_some hT c] at h
    exact Or.inl h
  | none =>
    simp only [observe, hT, Option.none_or] at h
    exact Or.inr ⟨rfl, by simpa using List.find?_some h⟩

theorem exists_observe_leader (g : History n) {c : Cluster n C} {s : Fin n}
    (h : (c.servers s).state = .leader) :
    ∃ r, (g.observe c).leader (c.servers s).currentTerm = some r := by
  cases hT : g.leader (c.servers s).currentTerm with
  | some r => exact ⟨r, observe_leader_of_some hT c⟩
  | none =>
    simp only [observe, hT, Option.none_or]
    exact Option.isSome_iff_exists.1 (List.find?_isSome.2 ⟨s, List.mem_finRange s, by simp [h]⟩)

end History

namespace Raft

/-- The term of a vote request. -/
def Rpc.ask : Rpc n C → Option ℤ
  | .requestVote args _ => some args.term
  | _ => none

end Raft

namespace Cluster

/-- Call `k` is a vote request of term `T` to `q` that `s` still waits for. -/
def Asking (c : Cluster n C) (s : Fin n) (T : ℤ) (k : ℕ) (q : Fin n) : Prop :=
  ∃ call, c.calls[k]? = some call ∧ call.waiting = true ∧ call.caller = s ∧
    call.epoch = c.epoch s ∧ call.rpc.ask = some T ∧ call.server = q

variable {c c' : Cluster n C}

theorem Asking.of_append {new : List (Call n C)} (hcalls : c'.calls = c.calls ++ new)
    (he : c'.epoch = c.epoch) (hnew : ∀ call ∈ new, call.rpc.ask = none) {s : Fin n} {T : ℤ}
    {k : ℕ} {q : Fin n} (h : c'.Asking s T k q) : c.Asking s T k q := by
  obtain ⟨call, hk, hw, hs, hep, hask, hq⟩ := h
  rw [hcalls, List.getElem?_append] at hk
  split at hk
  · exact ⟨call, hk, hw, hs, by rw [hep, he], hask, hq⟩
  · rw [hnew call (List.mem_of_getElem? hk)] at hask
    cases hask

theorem Asking.of_set {k₀ : ℕ} {call₀ call₁ : Call n C} (hk₀ : c.calls[k₀]? = some call₀)
    (hcalls : c'.calls = c.calls.set k₀ call₁) (he : c'.epoch = c.epoch)
    (hcaller : call₁.caller = call₀.caller) (hepoch : call₁.epoch = call₀.epoch)
    (hserver : call₁.server = call₀.server) (hask₁ : call₁.rpc.ask = call₀.rpc.ask)
    (hw₁ : call₁.waiting = true → call₀.waiting = true) {s : Fin n} {T : ℤ} {k : ℕ} {q : Fin n}
    (h : c'.Asking s T k q) : c.Asking s T k q := by
  obtain ⟨call, hk, hw, hs, hep, hask, hq⟩ := h
  rw [hcalls, List.getElem?_set] at hk
  split at hk
  · rename_i hkk
    split at hk
    · cases hk
      exact ⟨call₀, hkk ▸ hk₀, hw₁ hw, by rw [← hcaller, hs], by rw [← hepoch, hep, he],
        by rw [← hask₁, hask], by rw [← hserver, hq]⟩
    · cases hk
  · exact ⟨call, hk, hw, hs, by rw [hep, he], hask, hq⟩

end Cluster

/-! ## The invariant -/

namespace History

/-- A goroutine that will send entries of term `T` belongs to the leader of `T`. -/
def TaskOk (g : History n) (t : Spawned n C) : Prop :=
  t.server ≠ t.caller ∧ ∀ args, t.task = .sendAppendEntries args → g.leader args.term = some t.caller

/-- What a call says about leaders and votes. -/
def RpcOk (g : History n) (caller server : Fin n) : Rpc n C → Prop
  | .appendEntries args _ => g.leader args.term = some caller
  | .requestVote args reply => args.candidateId = caller ∧
      ∀ r, reply = some r → r.voteGranted = true → g.vote server args.term = some caller
  | .preVote _ => True
  | .installSnapshot args _ => g.leader args.term = some caller

/-- No server calls itself, and no call is ahead of its caller. -/
structure CallOk (g : History n) (c : Cluster n C) (call : Call n C) : Prop where
  ne : call.server ≠ call.caller
  epoch_le : call.epoch ≤ c.epoch call.caller
  ask_le : ∀ T, call.rpc.ask = some T → T ≤ (c.servers call.caller).currentTerm
  rpc : g.RpcOk call.caller call.server call.rpc

variable {g g' : History n}

omit [Inhabited C] in
theorem TaskOk.mono (hle : Le g g') {t : Spawned n C} (h : g.TaskOk t) : g'.TaskOk t :=
  ⟨h.1, fun args ha => hle.leader (h.2 args ha)⟩

omit [Inhabited C] in
theorem RpcOk.mono (hle : Le g g') {caller server : Fin n} {rpc : Rpc n C}
    (h : g.RpcOk caller server rpc) : g'.RpcOk caller server rpc := by
  cases rpc with
  | appendEntries args reply => exact hle.leader h
  | requestVote args reply => exact ⟨h.1, fun r hr hg => hle.vote (h.2 r hr hg)⟩
  | preVote reply => trivial
  | installSnapshot args reply => exact hle.leader h

theorem CallOk.mono {c c' : Cluster n C} (hle : Le g g')
    (hterm : ∀ s, (c.servers s).currentTerm ≤ (c'.servers s).currentTerm)
    (hepoch : ∀ s, c.epoch s ≤ c'.epoch s) {call : Call n C} (h : g.CallOk c call) :
    g'.CallOk c' call :=
  ⟨h.ne, h.epoch_le.trans (hepoch _), fun T hT => (h.ask_le T hT).trans (hterm _), h.rpc.mono hle⟩

end History

/-- The invariant of elections. -/
structure Elected (c : Cluster n C) (g : History n) : Prop where
  sound : c.Sound
  term_pos : ∀ s, 0 < (c.servers s).currentTerm
  voted : ∀ s, g.vote s (c.servers s).currentTerm = (c.servers s).votedFor
  future : ∀ s T, (c.servers s).currentTerm < T → g.vote s T = none
  led : ∀ s, (c.servers s).state = .leader → g.leader (c.servers s).currentTerm = some s
  won : ∀ T s, g.leader T = some s → T ≤ (c.servers s).currentTerm ∧
    ∃ X : Finset (Fin n), Majority X ∧ ∀ q ∈ X, g.vote q T = some s
  tasks : ∀ t ∈ c.tasks, g.TaskOk t
  calls : ∀ call ∈ c.calls, g.CallOk c call
  /-- The votes counted so far and those still open belong to different servers. -/
  tally : ∀ s k₀ q₀, c.Asking s (c.servers s).currentTerm k₀ q₀ →
    ∃ X : Finset (Fin n), (c.servers s).voteCount ≤ X.card ∧
      (∀ q ∈ X, g.vote q (c.servers s).currentTerm = some s) ∧
      ∀ k q, c.Asking s (c.servers s).currentTerm k q → q ∉ X
  distinct : ∀ s T k k' q, c.Asking s T k q → c.Asking s T k' q → k = k'
  /-- A server that has led its term cannot win it once more. -/
  spent : ∀ s k q, c.Asking s (c.servers s).currentTerm k q →
    g.leader (c.servers s).currentTerm = some s → n / 2 < (c.servers s).voteCount

namespace Elected

variable {c c' : Cluster n C} {g : History n} {a : Action n C}

theorem vote_observe (hi : Elected c g) (hst : ∀ s, Steady (c.servers s) (c'.servers s))
    {s q : Fin n} {T : ℤ} (h : g.vote s T = some q) : (g.observe c').vote s T = some q := by
  by_cases hT : T = (c'.servers s).currentTerm
  · have hle := (hst s).term_le
    have hge : ¬ (c.servers s).currentTerm < T := fun hlt => by
      rw [hi.future s T hlt] at h
      cases h
    have hsame : (c'.servers s).currentTerm = (c.servers s).currentTerm := by omega
    rw [hT, hsame, hi.voted s] at h
    rw [hT, History.observe_vote_self]
    rcases (hst s).vote hsame with hv | hv
    · rw [hv] at h
      cases h
    · rw [hv, h]
  · rw [History.observe_vote_of_ne g hT, h]

/-- A steady step shows no new leader. -/
theorem leader_observe (hi : Elected c g) (hst : ∀ s, Steady (c.servers s) (c'.servers s)) :
    (g.observe c').leader = g.leader :=
  g.observe_leader_eq fun s hl => by
    obtain ⟨hl', hterm⟩ := (hst s).leader hl
    rw [hterm]
    exact hi.led s hl'

theorem le_observe (hi : Elected c g) (hst : ∀ s, Steady (c.servers s) (c'.servers s)) :
    History.Le g (g.observe c') :=
  ⟨fun h => hi.vote_observe hst h, fun h => History.observe_leader_of_some h c'⟩

/-- Steps that neither start an election nor count a vote that matters. -/
theorem steady (hi : Elected c g) (hs : c'.Sound)
    (hst : ∀ s, Steady (c.servers s) (c'.servers s))
    (hask : ∀ s T k q, c'.Asking s T k q → c.Asking s T k q)
    (hcount : ∀ s T k q, c'.Asking s T k q →
      (c'.servers s).currentTerm = (c.servers s).currentTerm →
      (c'.servers s).voteCount = (c.servers s).voteCount)
    (htasks : ∀ t ∈ c'.tasks, (g.observe c').TaskOk t)
    (hcalls : ∀ call ∈ c'.calls, (g.observe c').CallOk c' call) : Elected c' (g.observe c') := by
  have hle := hi.le_observe hst
  -- an open request of the current term was already open, so the term has not changed
  have hsame : ∀ s k q, c'.Asking s (c'.servers s).currentTerm k q →
      (c'.servers s).currentTerm = (c.servers s).currentTerm := fun s k q h => by
    obtain ⟨call, hk, -, hcaller, -, hterm, -⟩ := hask _ _ _ _ h
    have hle' := (hi.calls call (List.mem_of_getElem? hk)).ask_le _ hterm
    have := (hst s).term_le
    rw [hcaller] at hle'
    omega
  refine ⟨hs, fun s => (hi.term_pos s).trans_le (hst s).term_le,
    fun s => g.observe_vote_self c' s, fun s T hT => ?_, fun s hl => ?_, fun T s hT => ?_,
    htasks, hcalls, fun s k₀ q₀ h₀ => ?_, fun s T k k' q h h' => hi.distinct s T k k' q
      (hask _ _ _ _ h) (hask _ _ _ _ h'), fun s k q h hl => ?_⟩
  · rw [History.observe_vote_of_ne g hT.ne']
    exact hi.future s T ((hst s).term_le.trans_lt hT)
  · obtain ⟨hl', hterm⟩ := (hst s).leader hl
    rw [hterm]
    exact hle.leader (hi.led s hl')
  · rw [hi.leader_observe hst] at hT
    obtain ⟨hTs, X, hX, hvotes⟩ := hi.won T s hT
    exact ⟨hTs.trans (hst s).term_le, X, hX, fun q hq => hle.vote (hvotes q hq)⟩
  · have hterm := hsame s k₀ q₀ h₀
    have hc := hcount s _ k₀ q₀ h₀ hterm
    rw [hterm] at h₀ ⊢
    obtain ⟨X, hcard, hvotes, hopen⟩ := hi.tally s k₀ q₀ (hask _ _ _ _ h₀)
    exact ⟨X, hc.le.trans hcard, fun q hq => hle.vote (hvotes q hq),
      fun k q h => hopen k q (hask _ _ _ _ h)⟩
  · have hterm := hsame s k q h
    have hc := hcount s _ k q h hterm
    rw [hterm] at h hl
    rw [hi.leader_observe hst] at hl
    rw [hc]
    exact hi.spent s k q (hask _ _ _ _ h) hl

/-- Old calls stay as they are. -/
theorem calls_observe (hi : Elected c g) (hst : ∀ s, Steady (c.servers s) (c'.servers s))
    (hepoch : ∀ s, c.epoch s ≤ c'.epoch s) {call : Call n C} (h : call ∈ c.calls) :
    (g.observe c').CallOk c' call :=
  (hi.calls call h).mono (hi.le_observe hst) (fun s => (hst s).term_le) hepoch

theorem tasks_observe (hi : Elected c g) (hst : ∀ s, Steady (c.servers s) (c'.servers s))
    {t : Spawned n C} (h : t ∈ c.tasks) : (g.observe c').TaskOk t :=
  (hi.tasks t h).mono (hi.le_observe hst)

theorem steady_set {s : Fin n} {rf : Raft n C} (h : Steady (c.servers s) rf) (q : Fin n) :
    Steady (c.servers q) ((c.set s rf).servers q) :=
  Cluster.forall_set (P := fun q rf => Steady (c.servers q) rf) (fun _ => (Calm.refl _).toSteady) h q

theorem calm_set {s : Fin n} {rf : Raft n C} (h : Calm (c.servers s) rf) (q : Fin n) :
    Calm (c.servers q) ((c.set s rf).servers q) :=
  Cluster.forall_set (P := fun q rf => Calm (c.servers q) rf) (fun _ => Calm.refl _) h q

/-- Steps of a server on its own. -/
theorem calm (hi : Elected c g) (hs : c'.Sound) (hcalm : ∀ s, Calm (c.servers s) (c'.servers s))
    (hcalls : c'.calls = c.calls) (hepoch : c'.epoch = c.epoch)
    (htasks : ∀ t ∈ c'.tasks, (g.observe c').TaskOk t) : Elected c' (g.observe c') := by
  have hst := fun s => (hcalm s).toSteady
  refine hi.steady hs hst (fun s T k q h => ?_) (fun s T k q _ hterm => (hcalm s).voteCount hterm)
    htasks fun call h => hi.calls_observe hst (fun s => by rw [hepoch]) (hcalls ▸ h)
  rwa [Cluster.Asking, hcalls, hepoch] at h

/-- Steps that make calls other than vote requests. -/
theorem calm_append (hi : Elected c g) (hs : c'.Sound)
    (hcalm : ∀ s, Calm (c.servers s) (c'.servers s)) {new : List (Call n C)}
    (hcalls : c'.calls = c.calls ++ new) (hepoch : c'.epoch = c.epoch)
    (htasks : ∀ t ∈ c'.tasks, t ∈ c.tasks)
    (hnew : ∀ call ∈ new, call.rpc.ask = none ∧ (g.observe c').CallOk c' call) :
    Elected c' (g.observe c') := by
  have hst := fun s => (hcalm s).toSteady
  refine hi.steady hs hst (fun s T k q h => h.of_append hcalls hepoch fun call h => (hnew call h).1)
    (fun s T k q _ hterm => (hcalm s).voteCount hterm)
    (fun t ht => hi.tasks_observe hst (htasks t ht)) fun call h => ?_
  rw [hcalls, List.mem_append] at h
  rcases h with h | h
  · exact hi.calls_observe hst (fun s => by rw [hepoch]) h
  · exact (hnew call h).2

/-- Steps that replace call `k` by `call₁`, which asks the same and may say more. -/
theorem steady_replace (hi : Elected c g) (hs : c'.Sound)
    (hst : ∀ s, Steady (c.servers s) (c'.servers s)) {k : ℕ} {call₀ call₁ : Call n C}
    (hk : c.calls[k]? = some call₀) (hcalls : c'.calls = c.calls.set k call₁)
    (hepoch : c'.epoch = c.epoch) (htasks : c'.tasks = c.tasks)
    (hcaller : call₁.caller = call₀.caller) (hep : call₁.epoch = call₀.epoch)
    (hserver : call₁.server = call₀.server) (hask₁ : call₁.rpc.ask = call₀.rpc.ask)
    (hw₁ : call₁.waiting = true → call₀.waiting = true)
    (hrpc : (g.observe c').RpcOk call₁.caller call₁.server call₁.rpc)
    (hcount : ∀ s T k q, c'.Asking s T k q →
      (c'.servers s).currentTerm = (c.servers s).currentTerm →
      (c'.servers s).voteCount = (c.servers s).voteCount) : Elected c' (g.observe c') := by
  refine hi.steady hs hst
    (fun s T k' q h => h.of_set hk hcalls hepoch hcaller hep hserver hask₁ hw₁) hcount
    (fun t ht => hi.tasks_observe hst (htasks ▸ ht)) fun call h => ?_
  have hold := hi.calls_observe hst (fun s => by rw [hepoch]) (List.mem_of_getElem? hk)
  rw [hcalls] at h
  rcases List.mem_or_eq_of_mem_set h with h | rfl
  · exact hi.calls_observe hst (fun s => by rw [hepoch]) h
  · refine ⟨by rw [hcaller, hserver]; exact hold.ne, by rw [hcaller, hep]; exact hold.epoch_le,
      fun T hT => ?_, hrpc⟩
    rw [hcaller]
    exact hold.ask_le T (hask₁ ▸ hT)

/-- A handler answers. A vote that it grants is on record from then on. -/
theorem deliver (hi : Elected c g) {k : ℕ} {call : Call n C} {rf : Raft n C} {rpc : Rpc n C}
    (hk : c.calls[k]? = some call)
    (h : call.rpc.handle (c.servers call.server) = some (rf, rpc))
    (hs : (c.answerCall k call rf rpc).Sound) :
    Elected (c.answerCall k call rf rpc) (g.observe (c.answerCall k call rf rpc)) := by
  have hcalm : ∀ s, Calm (c.servers s) ((c.answerCall k call rf rpc).servers s) :=
    calm_set (Rpc.calm_handle h)
  have hst := fun s => (hcalm s).toSteady
  have hold := (hi.calls_observe hst (fun s => le_rfl) (List.mem_of_getElem? hk)).rpc
  refine hi.steady_replace hs hst hk rfl rfl rfl rfl rfl rfl ?_ id ?_
    fun s T k q _ hterm => (hcalm s).voteCount hterm
  · rcases Rpc.handle_cases h with ⟨args, reply, h₀, h₁, -⟩ | ⟨args, reply, h₀, h₁, -⟩ |
      ⟨h₀, h₁, -⟩ | ⟨args, reply, h₀, h₁, -⟩ <;> simp only [h₀, h₁, Rpc.ask]
  · rcases Rpc.handle_cases h with ⟨args, reply, h₀, rfl, -⟩ | ⟨args, reply, h₀, rfl, hvote⟩ |
      ⟨h₀, rfl, -⟩ | ⟨args, reply, h₀, rfl, -⟩
    · rw [h₀] at hold
      exact hold
    · rw [h₀] at hold
      refine ⟨hold.1, fun r hr hg => ?_⟩
      cases hr
      rcases requestVote_cases hvote with ⟨-, hno⟩ | ⟨-, -, hno⟩ | ⟨-, -, -, hrf, -⟩
      · rw [hno] at hg
        cases hg
      · rw [hno] at hg
        cases hg
      · have hserver : (c.answerCall k call rf (.requestVote args (some reply))).servers
            call.server = rf := by
          simp only [Cluster.answerCall, Cluster.set, Function.update_self]
        have hself := g.observe_vote_self
          (c.answerCall k call rf (.requestVote args (some reply))) call.server
        rw [hserver, hrf] at hself
        rw [hrf, ← hold.1]
        exact hself
    · trivial
    · rw [h₀] at hold
      exact hold

@[simp] theorem finishCall_self (k : ℕ) (call : Call n C) (rf : Raft n C) :
    (c.finishCall k call rf).servers call.caller = rf := by
  simp only [Cluster.finishCall, Cluster.set, Function.update_self]

theorem finishCall_of_ne {k : ℕ} {call : Call n C} {rf : Raft n C} {s : Fin n}
    (h : s ≠ call.caller) : (c.finishCall k call rf).servers s = c.servers s := by
  simp only [Cluster.finishCall, Cluster.set, Function.update_of_ne h]

theorem Asking.of_finishCall {k : ℕ} {call : Call n C} (hk : c.calls[k]? = some call)
    {rf : Raft n C} {s q : Fin n} {T : ℤ} {k' : ℕ}
    (h : (c.finishCall k call rf).Asking s T k' q) : c.Asking s T k' q ∧ k' ≠ k := by
  have hcalls : (c.finishCall k call rf).calls = c.calls.set k { call with waiting := false } := rfl
  refine ⟨h.of_set hk hcalls rfl rfl rfl rfl rfl (fun hw => by cases hw), fun he => ?_⟩
  subst he
  obtain ⟨call', hk', hw, -⟩ := h
  rw [Cluster.finishCall, List.getElem?_set_self (List.getElem?_eq_some_iff.1 hk).1] at hk'
  cases hk'
  cases hw

/-- A calm reply. -/
theorem receive_calm (hi : Elected c g) {k : ℕ} {call : Call n C} {rf : Raft n C}
    (hk : c.calls[k]? = some call) (hcalm : Calm (c.servers call.caller) rf)
    (hs : (c.finishCall k call rf).Sound) :
    Elected (c.finishCall k call rf) (g.observe (c.finishCall k call rf)) := by
  have hcalm' : ∀ s, Calm (c.servers s) ((c.finishCall k call rf).servers s) := calm_set hcalm
  have hst := fun s => (hcalm' s).toSteady
  exact hi.steady_replace hs hst hk rfl rfl rfl rfl rfl rfl rfl (fun hw => by cases hw)
    (hi.calls_observe hst (fun s => le_rfl) (List.mem_of_getElem? hk)).rpc
    fun s T k q _ hterm => (hcalm' s).voteCount hterm

/-- The voters counted for `s`, together with the one whose vote is being counted. -/
theorem exists_voters (hi : Elected c g) {s q₀ : Fin n} {k₀ : ℕ}
    (hask : c.Asking s (c.servers s).currentTerm k₀ q₀)
    (hvote : g.vote q₀ (c.servers s).currentTerm = some s) :
    ∃ X : Finset (Fin n), (c.servers s).voteCount + 1 ≤ X.card ∧
      (∀ q ∈ X, g.vote q (c.servers s).currentTerm = some s) ∧
      ∀ k q, k ≠ k₀ → c.Asking s (c.servers s).currentTerm k q → q ∉ X := by
  obtain ⟨X, hcard, hvotes, hopen⟩ := hi.tally s k₀ q₀ hask
  have hq₀ : q₀ ∉ X := hopen k₀ q₀ hask
  refine ⟨insert q₀ X, ?_, fun q hq => ?_, fun k q hk h hq => ?_⟩
  · rw [Finset.card_insert_of_notMem hq₀]
    omega
  · rcases Finset.mem_insert.1 hq with rfl | hq
    · exact hvote
    · exact hvotes q hq
  · rcases Finset.mem_insert.1 hq with rfl | hq
    · exact hk (hi.distinct s _ k k₀ q h hask)
    · exact hopen k q h hq

/-- A server that wins its term is its first leader. -/
theorem leader_eq_none (hi : Elected c g) {s q₀ : Fin n} {k₀ : ℕ}
    (hask : c.Asking s (c.servers s).currentTerm k₀ q₀)
    (hcount : (c.servers s).voteCount ≤ n / 2) {X : Finset (Fin n)} (hX : Majority X)
    (hvotes : ∀ q ∈ X, g.vote q (c.servers s).currentTerm = some s) :
    g.leader (c.servers s).currentTerm = none := by
  cases hl : g.leader (c.servers s).currentTerm with
  | none => rfl
  | some r =>
    by_cases hr : r = s
    · have := hi.spent s k₀ q₀ hask (hr ▸ hl)
      omega
    · obtain ⟨-, Y, hY, hvotes'⟩ := hi.won _ r hl
      obtain ⟨q, hqX, hqY⟩ := hX.exists_common hY
      have hq := hvotes q hqX
      rw [hvotes' q hqY, Option.some.injEq] at hq
      exact absurd hq hr

/-- A vote that is about to be counted: its request is open, and it is on record. -/
theorem open_vote (hi : Elected c g) {k : ℕ} {call : Call n C} (hk : c.calls[k]? = some call)
    (hw : call.waiting = true) (he : call.epoch = c.epoch call.caller)
    {args : RequestVoteArgs n} {reply : RequestVoteReply}
    (hrpc : call.rpc = .requestVote args (some reply))
    (hterm : (c.servers call.caller).currentTerm = args.term)
    (hgranted : reply.voteGranted = true) :
    c.Asking call.caller (c.servers call.caller).currentTerm k call.server ∧
      g.vote call.server (c.servers call.caller).currentTerm = some call.caller := by
  have hok := (hi.calls call (List.mem_of_getElem? hk)).rpc
  rw [hrpc] at hok
  rw [hterm]
  exact ⟨⟨call, hk, hw, rfl, he, by rw [hrpc]; rfl, rfl⟩, hok.2 reply rfl hgranted⟩

/-- The last vote needed makes the first leader of the term, with a majority. -/
theorem win (hi : Elected c g) {s q₀ : Fin n} {k₀ : ℕ}
    (hopen : c.Asking s (c.servers s).currentTerm k₀ q₀ ∧
      g.vote q₀ (c.servers s).currentTerm = some s)
    (hcount : (c.servers s).voteCount ≤ n / 2) (hmaj : n / 2 < (c.servers s).voteCount + 1) :
    g.leader (c.servers s).currentTerm = none ∧
      ∃ X : Finset (Fin n), Majority X ∧ ∀ q ∈ X, g.vote q (c.servers s).currentTerm = some s := by
  obtain ⟨X, hcard, hvotes, -⟩ := hi.exists_voters hopen.1 hopen.2
  have hX : Majority X := majority_of_half_lt (by rw [Fintype.card_fin]; exact hmaj) hcard
  exact ⟨hi.leader_eq_none hopen.1 hcount hX hvotes, X, hX, hvotes⟩

theorem countVote_votedFor (rf : Raft n C) : rf.countVote.votedFor = rf.votedFor := by
  rw [countVote]
  split <;> rfl

theorem countVote_voteCount (rf : Raft n C) : rf.countVote.voteCount = rf.voteCount + 1 := by
  rw [countVote]
  split <;> rfl

theorem countVote_leader {rf : Raft n C} (h : rf.countVote.state = .leader) :
    rf.state = .leader ∨ n / 2 < rf.voteCount + 1 := by
  rw [countVote] at h
  split at h
  · rename_i hmaj
    exact Or.inr hmaj
  · exact Or.inl h

/-- The cluster after the caller has counted the vote that call `k` brought. -/
def counted (c : Cluster n C) (k : ℕ) (call : Call n C) : Cluster n C :=
  c.finishCall k call (c.servers call.caller).countVote

section counted

variable {k : ℕ} {call : Call n C}

theorem counted_self :
    (counted c k call).servers call.caller = (c.servers call.caller).countVote := finishCall_self ..

theorem counted_of_ne {s : Fin n} (hs : s ≠ call.caller) :
    (counted c k call).servers s = c.servers s := finishCall_of_ne hs

theorem counted_term (s : Fin n) :
    ((counted c k call).servers s).currentTerm = (c.servers s).currentTerm := by
  by_cases hs : s = call.caller
  · rw [hs, counted_self, countVote_term]
  · rw [counted_of_ne hs]

/-- The history after a vote has been counted: at most the winner is new. -/
theorem observe_countVote (hi : Elected c g) :
    (g.observe (counted c k call)).vote = g.vote := by
  funext s T
  by_cases hT : T = ((counted c k call).servers s).currentTerm
  · rw [hT, History.observe_vote_self]
    by_cases hs : s = call.caller
    · subst hs
      rw [counted_self, countVote_term, countVote_votedFor, hi.voted]
    · rw [counted_of_ne hs, hi.voted]
  · rw [History.observe_vote_of_ne g hT]

theorem le_observe_counted (hi : Elected c g) : History.Le g (g.observe (counted c k call)) :=
  ⟨fun h => by rw [hi.observe_countVote]; exact h, fun h => History.observe_leader_of_some h _⟩

/-- A leader that the history does not know yet is the caller, with a majority. -/
theorem led_counted (hi : Elected c g) {s : Fin n}
    (hl : ((counted c k call).servers s).state = .leader) :
    g.leader (c.servers s).currentTerm = some s ∨
      (s = call.caller ∧ n / 2 < (c.servers s).voteCount + 1) := by
  by_cases hs : s = call.caller
  · subst hs
    rw [counted_self] at hl
    rcases countVote_leader hl with hl | hmaj
    · exact .inl (hi.led _ hl)
    · exact .inr ⟨rfl, hmaj⟩
  · rw [counted_of_ne hs] at hl
    exact .inl (hi.led s hl)

theorem leader_of_counted (hi : Elected c g) {s : Fin n} {T : ℤ}
    (h : (g.observe (counted c k call)).leader T = some s) :
    g.leader T = some s ∨
      (s = call.caller ∧ T = (c.servers s).currentTerm ∧ n / 2 < (c.servers s).voteCount + 1) := by
  rcases History.observe_leader_cases h with h | ⟨hnone, hl, hT⟩
  · exact .inl h
  · rw [counted_term] at hT
    rcases hi.led_counted hl with hg | ⟨rfl, hmaj⟩
    · rw [hT, hnone] at hg
      cases hg
    · exact .inr ⟨rfl, hT.symm, hmaj⟩

theorem leader_counted_of_ne (hi : Elected c g) {T : ℤ}
    (hT : T ≠ (c.servers call.caller).currentTerm) :
    (g.observe (counted c k call)).leader T = g.leader T := by
  cases hg : g.leader T with
  | some r => exact hi.le_observe_counted.leader hg
  | none =>
    cases hg' : (g.observe (counted c k call)).leader T with
    | none => rfl
    | some r =>
      rcases hi.leader_of_counted hg' with h | ⟨rfl, h, -⟩
      · rw [hg] at h
        cases h
      · exact absurd h hT

theorem calls_counted (hi : Elected c g) (hk : c.calls[k]? = some call) {call' : Call n C}
    (h : call' ∈ (counted c k call).calls) :
    (g.observe (counted c k call)).CallOk (counted c k call) call' := by
  have hold : ∀ call₀ ∈ c.calls,
      (g.observe (counted c k call)).CallOk (counted c k call) call₀ := fun call₀ h₀ =>
    (hi.calls call₀ h₀).mono hi.le_observe_counted (fun s => (counted_term s).ge) (fun s => le_rfl)
  rcases List.mem_or_eq_of_mem_set h with h | rfl
  · exact hold call' h
  · have h₀ := hold call (List.mem_of_getElem? hk)
    exact ⟨h₀.ne, h₀.epoch_le, h₀.ask_le, h₀.rpc⟩

/-- **A vote is counted**, and the last one needed makes a leader. -/
theorem receive_vote (hi : Elected c g) (hk : c.calls[k]? = some call)
    (hw : call.waiting = true) (he : call.epoch = c.epoch call.caller)
    {args : RequestVoteArgs n} {reply : RequestVoteReply}
    (hrpc : call.rpc = .requestVote args (some reply))
    (hterm : (c.servers call.caller).currentTerm = args.term) (hgranted : reply.voteGranted = true)
    (hcount : (c.servers call.caller).voteCount ≤ n / 2) (hs : (counted c k call).Sound) :
    Elected (counted c k call) (g.observe (counted c k call)) := by
  have hvote := hi.open_vote hk hw he hrpc hterm hgranted
  have hle : History.Le g (g.observe (counted c k call)) := hi.le_observe_counted
  have hvote' : (g.observe (counted c k call)).vote = g.vote := hi.observe_countVote
  have hasks : ∀ {s T k' q}, (counted c k call).Asking s T k' q → c.Asking s T k' q ∧ k' ≠ k :=
    fun h => Asking.of_finishCall hk h
  exact {
    sound := hs
    term_pos := fun s => by
      rw [counted_term]
      exact hi.term_pos s
    voted := fun s => g.observe_vote_self _ s
    future := fun s T hT => by
      rw [counted_term] at hT
      rw [hvote']
      exact hi.future s T hT
    led := fun s hl => by
      rcases hi.led_counted hl with hg | ⟨rfl, hmaj⟩
      · rw [counted_term]
        exact hle.leader hg
      · -- the caller is the first leader of its term
        have hnone := (hi.win hvote hcount hmaj).1
        obtain ⟨r, hr⟩ := g.exists_observe_leader hl
        rcases hi.leader_of_counted hr with hg | ⟨rfl, -, -⟩
        · rw [counted_term, hnone] at hg
          cases hg
        · exact hr
    won := fun T s h => by
      rw [counted_term, hvote']
      rcases hi.leader_of_counted h with hg | ⟨rfl, rfl, hmaj⟩
      · exact hi.won T s hg
      · exact ⟨le_rfl, (hi.win hvote hcount hmaj).2⟩
    tasks := fun t ht => (hi.tasks t ht).mono hle
    calls := fun call' h => hi.calls_counted hk h
    tally := fun s k₀ q₀ h₀ => by
      rw [counted_term] at h₀ ⊢
      rw [hvote']
      by_cases hs : s = call.caller
      · subst hs
        obtain ⟨X, hcard, hvotes, hopen⟩ := hi.exists_voters hvote.1 hvote.2
        rw [counted_self, countVote_voteCount]
        exact ⟨X, hcard, hvotes, fun k₁ q h₁ => hopen k₁ q (hasks h₁).2 (hasks h₁).1⟩
      · obtain ⟨Y, hY, hvotesY, hopenY⟩ := hi.tally s k₀ q₀ (hasks h₀).1
        rw [counted_of_ne hs]
        exact ⟨Y, hY, hvotesY, fun k₁ q h₁ => hopenY k₁ q (hasks h₁).1⟩
    distinct := fun s T k₁ k₂ q h₁ h₂ => hi.distinct s T k₁ k₂ q (hasks h₁).1 (hasks h₂).1
    spent := fun s k₁ q h₁ hl => by
      rw [counted_term] at h₁ hl
      rcases hi.leader_of_counted hl with hg | ⟨rfl, -, hmaj⟩
      · have hspent := hi.spent s k₁ q (hasks h₁).1 hg
        by_cases hs : s = call.caller
        · subst hs
          omega
        · rwa [counted_of_ne hs]
      · rwa [counted_self, countVote_voteCount] }

end counted

/-- A call that fails is given up, or made again. -/
theorem lose (hi : Elected c g) {k : ℕ} {call : Call n C} (hk : c.calls[k]? = some call)
    (hs : (c.loseCall k call).Sound) :
    Elected (c.loseCall k call) (g.observe (c.loseCall k call)) := by
  have hst : ∀ s, Steady (c.servers s) ((c.loseCall k call).servers s) :=
    fun s => (Calm.refl _).toSteady
  have hold := hi.calls call (List.mem_of_getElem? hk)
  refine hi.steady hs hst (fun s T k' q h => ?_) (fun s T k q _ _ => rfl)
    (fun t ht => hi.tasks_observe hst ht) fun call' h => ?_
  · let c₁ : Cluster n C := { c with calls := c.calls.set k { call with waiting := false } }
    have hcalls : (c.loseCall k call).calls = c₁.calls ++ call.again := rfl
    have hset : c₁.Asking s T k' q := h.of_append hcalls rfl fun call' h' => by
      obtain ⟨args, reply, -, rfl⟩ := Call.again_mem h'
      rfl
    have hcalls₁ : c₁.calls = c.calls.set k { call with waiting := false } := rfl
    exact hset.of_set hk hcalls₁ rfl rfl rfl rfl rfl fun hw => by cases hw
  · suffices hok : g.CallOk c call' from
      hok.mono (hi.le_observe hst) (fun s => (hst s).term_le) (fun s => le_rfl)
    rcases List.mem_append.1 h with h | h
    · rcases List.mem_or_eq_of_mem_set h with h | rfl
      · exact hi.calls call' h
      · exact ⟨hold.ne, hold.epoch_le, hold.ask_le, hold.rpc⟩
    · obtain ⟨args, reply, hrpc, rfl⟩ := Call.again_mem h
      refine ⟨hold.ne, hold.epoch_le, fun T hT => ?_, ?_⟩
      · cases hT
      · have := hold.rpc
        rw [hrpc] at this
        exact this

/-- The cluster after `s` has started an election. -/
def campaigning (c : Cluster n C) (s : Fin n) (args : RequestVoteArgs n) : Cluster n C :=
  (c.set s (c.servers s).campaign).call s (c.servers s).otherPeers (.requestVote args none)

/-- An open request is an old one, or one of the new ones. -/
theorem Asking.of_campaigning {s r q : Fin n} {T : ℤ} {k : ℕ} {args : RequestVoteArgs n}
    (h : (campaigning c s args).Asking r T k q) :
    c.Asking r T k q ∨ (c.calls.length ≤ k ∧ r = s ∧ T = args.term ∧
      (c.servers s).otherPeers[k - c.calls.length]? = some q) := by
  obtain ⟨call, hk, hw, hr, hep, hask, hq⟩ := h
  simp only [campaigning, Cluster.call, List.getElem?_append, List.getElem?_map] at hk
  split at hk
  · exact Or.inl ⟨call, hk, hw, hr, hep, hask, hq⟩
  · rename_i hlen
    obtain ⟨p, hp, rfl⟩ := Option.map_eq_some_iff.1 hk
    refine Or.inr ⟨Nat.not_lt.1 hlen, hr.symm, ?_, ?_⟩
    · exact (Option.some.inj hask).symm
    · rw [← hq]
      exact hp

section campaigning

variable {s : Fin n} {args : RequestVoteArgs n}

theorem campaigning_self : (campaigning c s args).servers s = (c.servers s).campaign := by
  simp only [campaigning, Cluster.call, Cluster.set, Function.update_self]

theorem campaigning_of_ne {r : Fin n} (hr : r ≠ s) :
    (campaigning c s args).servers r = c.servers r := by
  simp only [campaigning, Cluster.call, Cluster.set, Function.update_of_ne hr]

theorem campaigning_term (hterm : args.term = (c.servers s).currentTerm + 1) :
    ((campaigning c s args).servers s).currentTerm = args.term := by
  rw [campaigning_self, hterm]
  rfl

theorem le_campaigning_term (hterm : args.term = (c.servers s).currentTerm + 1) (r : Fin n) :
    (c.servers r).currentTerm ≤ ((campaigning c s args).servers r).currentTerm := by
  by_cases hr : r = s
  · rw [hr, campaigning_term hterm, hterm]
    omega
  · rw [campaigning_of_ne hr]

/-- A candidate is no leader, so nobody leads who did not lead before. -/
theorem led_campaigning (hi : Elected c g) (hcand : (c.servers s).state = .candidate) {r : Fin n}
    (hl : ((campaigning c s args).servers r).state = .leader) :
    g.leader ((campaigning c s args).servers r).currentTerm = some r := by
  by_cases hr : r = s
  · rw [hr, campaigning_self] at hl
    have hl : (c.servers s).state = .leader := hl
    rw [hcand] at hl
    cases hl
  · rw [campaigning_of_ne hr] at hl ⊢
    exact hi.led r hl

/-- The candidate has voted for itself in the new term. -/
theorem vote_campaigning (hi : Elected c g) (hterm : args.term = (c.servers s).currentTerm + 1) :
    (g.observe (campaigning c s args)).vote s args.term = some s := by
  rw [← campaigning_term hterm, History.observe_vote_self, campaigning_self]
  exact congrArg some (hi.sound.me s)

theorem le_observe_campaigning (hi : Elected c g)
    (hterm : args.term = (c.servers s).currentTerm + 1) :
    History.Le g (g.observe (campaigning c s args)) := by
  refine ⟨fun {r T q} h => ?_, fun h => History.observe_leader_of_some h _⟩
  by_cases hT : T = ((campaigning c s args).servers r).currentTerm
  · by_cases hr : r = s
    · have hfut := hi.future s T (by rw [hT, hr, campaigning_term hterm, hterm]; omega)
      rw [hr, hfut] at h
      cases h
    · have hsame : (campaigning c s args).servers r = c.servers r := campaigning_of_ne hr
      rw [hT, History.observe_vote_self, hsame, ← hi.voted, ← hsame, ← hT, h]
  · rw [History.observe_vote_of_ne g hT, h]

/-- No request of the new term was open before. -/
theorem ne_of_asking (hi : Elected c g) (hterm : args.term = (c.servers s).currentTerm + 1)
    {r q : Fin n} {k : ℕ} (h : c.Asking r ((campaigning c s args).servers r).currentTerm k q) :
    r ≠ s := by
  rintro rfl
  obtain ⟨call, hk, -, hcaller, -, hask, -⟩ := h
  have hle := (hi.calls call (List.mem_of_getElem? hk)).ask_le _ hask
  rw [hcaller, campaigning_term hterm, hterm] at hle
  omega

/-- The candidate counts its own vote, and has asked all others. -/
theorem tally_campaigning (hi : Elected c g) (hterm : args.term = (c.servers s).currentTerm + 1)
    {r q₀ : Fin n} {k₀ : ℕ}
    (h₀ : (campaigning c s args).Asking r ((campaigning c s args).servers r).currentTerm k₀ q₀) :
    ∃ X : Finset (Fin n), ((campaigning c s args).servers r).voteCount ≤ X.card ∧
      (∀ q ∈ X, (g.observe (campaigning c s args)).vote q
        ((campaigning c s args).servers r).currentTerm = some r) ∧
      ∀ k q, (campaigning c s args).Asking r ((campaigning c s args).servers r).currentTerm k q →
        q ∉ X := by
  rcases Asking.of_campaigning h₀ with h₀ | ⟨-, rfl, -, -⟩
  · have hr := hi.ne_of_asking hterm h₀
    rw [campaigning_of_ne hr] at h₀ ⊢
    obtain ⟨X, hX, hvotes, hopen⟩ := hi.tally r k₀ q₀ h₀
    refine ⟨X, hX, fun q hq => (hi.le_observe_campaigning hterm).vote (hvotes q hq), fun k q h => ?_⟩
    rcases Asking.of_campaigning h with h | ⟨-, hrs, -, -⟩
    · exact hopen k q h
    · exact absurd hrs hr
  · refine ⟨{r}, ?_, fun q hq => ?_, fun k q h hq => ?_⟩
    · rw [campaigning_self]
      exact le_rfl
    · rw [Finset.mem_singleton.1 hq, campaigning_term hterm]
      exact hi.vote_campaigning hterm
    · rcases Asking.of_campaigning h with h | ⟨-, -, -, hpeer⟩
      · exact hi.ne_of_asking hterm h rfl
      · have hq' := mem_otherPeers.1 (List.mem_of_getElem? hpeer)
        rw [hi.sound.me r] at hq'
        exact hq' (Finset.mem_singleton.1 hq)

theorem distinct_campaigning (hi : Elected c g) (hterm : args.term = (c.servers s).currentTerm + 1)
    {r q : Fin n} {T : ℤ} {k₁ k₂ : ℕ} (h₁ : (campaigning c s args).Asking r T k₁ q)
    (h₂ : (campaigning c s args).Asking r T k₂ q) : k₁ = k₂ := by
  rcases Asking.of_campaigning h₁ with hold₁ | ⟨hk₁, rfl, rfl, hp₁⟩ <;>
    rcases Asking.of_campaigning h₂ with hold₂ | ⟨hk₂, hr₂, hT₂, hp₂⟩
  · exact hi.distinct r T k₁ k₂ q hold₁ hold₂
  · subst hr₂ hT₂
    rw [← campaigning_term hterm] at hold₁
    exact absurd rfl (hi.ne_of_asking hterm hold₁)
  · rw [← campaigning_term hterm] at hold₂
    exact absurd rfl (hi.ne_of_asking hterm hold₂)
  · have hj := (List.getElem?_eq_some_iff.1 hp₁).1
    have := (List.getElem?_inj hj (nodup_otherPeers (c.servers r))).1 (hp₁.trans hp₂.symm)
    omega

theorem calls_campaigning (hi : Elected c g)
    (hargs : args.term = (c.servers s).currentTerm + 1 ∧ args.candidateId = s) {call : Call n C}
    (h : call ∈ (campaigning c s args).calls) :
    (g.observe (campaigning c s args)).CallOk (campaigning c s args) call := by
  rcases List.mem_append.1 h with h | h
  · exact (hi.calls call h).mono (hi.le_observe_campaigning hargs.1) (le_campaigning_term hargs.1)
      fun r => le_rfl
  · obtain ⟨q, hq, rfl⟩ := List.mem_map.1 h
    refine ⟨?_, le_rfl, fun T hT => ?_, hargs.2, fun r hr => by cases hr⟩
    · rw [mem_otherPeers, hi.sound.me s] at hq
      exact hq
    · rw [campaigning_term hargs.1]
      exact (Option.some.inj hT).ge

/-- A candidate starts with its own vote. -/
theorem election (hi : Elected c g) (hcand : (c.servers s).state = .candidate)
    (hargs : args.term = (c.servers s).currentTerm + 1 ∧ args.candidateId = s)
    (hs : (campaigning c s args).Sound) :
    Elected (campaigning c s args) (g.observe (campaigning c s args)) := by
  have hterms := le_campaigning_term hargs.1
  have hle := hi.le_observe_campaigning hargs.1
  have hleader : (g.observe (campaigning c s args)).leader = g.leader :=
    g.observe_leader_eq fun r hl => hi.led_campaigning hcand hl
  exact {
    sound := hs
    term_pos := fun r => (hi.term_pos r).trans_le (hterms r)
    voted := fun r => g.observe_vote_self _ r
    future := fun r T hT => by
      rw [History.observe_vote_of_ne g hT.ne']
      exact hi.future r T ((hterms r).trans_lt hT)
    led := fun r hl => by
      rw [hleader]
      exact hi.led_campaigning hcand hl
    won := fun T r hT => by
      rw [hleader] at hT
      obtain ⟨hTr, X, hX, hvotes⟩ := hi.won T r hT
      exact ⟨hTr.trans (hterms r), X, hX, fun q hq => hle.vote (hvotes q hq)⟩
    tasks := fun t ht => (hi.tasks t ht).mono hle
    calls := fun call h => hi.calls_campaigning hargs h
    tally := fun r k₀ q₀ h₀ => hi.tally_campaigning hargs.1 h₀
    distinct := fun r T k₁ k₂ q h₁ h₂ => hi.distinct_campaigning hargs.1 h₁ h₂
    spent := fun r k q h hl => by
      rw [hleader] at hl
      rcases Asking.of_campaigning h with h | ⟨-, rfl, -, -⟩
      · have hr := hi.ne_of_asking hargs.1 h
        rw [campaigning_of_ne hr] at h hl ⊢
        exact hi.spent r k q h hl
      · -- nobody has led the new term
        have hwon := (hi.won _ _ hl).1
        rw [campaigning_term hargs.1, hargs.1] at hwon
        omega }

end campaigning

/-- A restarted server waits for no reply. -/
theorem crash (hi : Elected c g) (s : Fin n) (hs : (c.restart s).Sound) :
    Elected (c.restart s) (g.observe (c.restart s)) := by
  have hst : ∀ r, Steady (c.servers r) ((c.restart s).servers r) := by
    refine steady_set ?_
    have := (hi.sound.durable s).steady_make
    rwa [hi.sound.me s] at this
  have hepoch : ∀ r, c.epoch r ≤ (c.restart s).epoch r := fun r => by
    by_cases hr : r = s
    · subst hr
      simp [Cluster.restart, Cluster.emit]
    · simp [Cluster.restart, Cluster.emit, Function.update_of_ne hr]
  have hask : ∀ {r T k q}, (c.restart s).Asking r T k q → c.Asking r T k q ∧ r ≠ s := by
    rintro r T k q ⟨call, hk, hw, rfl, hep, hask, hq⟩
    have hk : c.calls[k]? = some call := hk
    have hle := (hi.calls call (List.mem_of_getElem? hk)).epoch_le
    by_cases hr : call.caller = s
    · rw [hr] at hep hle
      simp only [Cluster.restart, Cluster.emit, Function.update_self] at hep
      omega
    · refine ⟨⟨call, hk, hw, rfl, ?_, hask, hq⟩, hr⟩
      simpa only [Cluster.restart, Cluster.emit, Function.update_of_ne hr] using hep
  refine hi.steady hs hst (fun r T k q h => (hask h).1) (fun r T k q h _ => ?_)
    (fun t ht => hi.tasks_observe hst ht) fun call h => hi.calls_observe hst hepoch h
  simp only [Cluster.restart, Cluster.emit, Cluster.set, Function.update_of_ne (hask h).2]

theorem act (hi : Elected c g) (hstep : Cluster.Step c a c') : Elected c' (g.observe c') := by
  have hs : c'.Sound := hi.sound.act hstep
  have hquiet : ∀ {s : Fin n} {rf : Raft n C} {es : List (Event n C)}, Calm (c.servers s) rf →
      ((c.set s rf).emit es).Sound →
      Elected ((c.set s rf).emit es) (g.observe ((c.set s rf).emit es)) :=
    fun hcalm hs => hi.calm hs (calm_set hcalm) rfl rfl fun t ht =>
      hi.tasks_observe (fun r => (calm_set hcalm r).toSteady) ht
  have hrefl : ∀ s, Steady (c.servers s) (c.servers s) := fun s => (Calm.refl _).toSteady
  cases hstep with
  | idle =>
    exact hi.calm hs (fun s => Calm.refl _) rfl rfl fun t ht => hi.tasks_observe hrefl ht
  | start s command hl =>
    exact hquiet (calm_appendCommand _ command) hs
  | spawn a s gs hl hgs =>
    refine hi.calm hs (fun s => Calm.refl _) rfl rfl fun t ht => ?_
    rcases List.mem_append.1 ht with ht | ht
    · exact hi.tasks_observe hrefl ht
    · obtain ⟨⟨i, task⟩, hg, rfl⟩ := List.mem_map.1 ht
      obtain ⟨hne, hfor⟩ := doLeader_mem hgs hg
      refine ⟨hi.sound.me s ▸ hne, fun args hargs => History.observe_leader_of_some ?_ _⟩
      rcases (doLeaderFor_eq_some hfor).2 with rfl | ⟨prev, -, rfl⟩
      · cases hargs
      · cases hargs
        exact hi.led s hl
  | preVote s hl =>
    refine hi.calm_append hs (calm_set (calm_beginPreVote _)) rfl rfl
      (fun t ht => ht) fun call hcall => ?_
    obtain ⟨q, hq, rfl⟩ := List.mem_map.1 hcall
    refine ⟨rfl, ?_, le_rfl, (fun T hT => by cases hT), trivial⟩
    rw [mem_otherPeers, hi.sound.me s] at hq
    exact hq
  | election s rf args hcand h =>
    obtain ⟨rfl, last, -, rfl⟩ := beginElection_eq_some h
    exact hi.election hcand ⟨rfl, hi.sound.me s⟩ hs
  | dropTask k =>
    exact hi.calm hs (fun s => Calm.refl _) rfl rfl fun t ht =>
      hi.tasks_observe hrefl (List.mem_of_mem_eraseIdx ht)
  | runTask k t rpc ht hep hl hrpc =>
    refine hi.calm_append hs (fun s => Calm.refl _) rfl rfl
      (fun t ht => List.mem_of_mem_eraseIdx ht) fun call hcall => ?_
    obtain ⟨q, hq, rfl⟩ := List.mem_map.1 hcall
    have hq := List.mem_singleton.1 hq
    have htask := hi.tasks t ht
    cases htk : t.task with
    | sendAppendEntries args =>
      rw [htk, Task.rpc, Option.some.injEq] at hrpc
      subst hrpc
      exact ⟨rfl, hq ▸ htask.1, le_rfl, (fun T hT => by cases hT),
        History.observe_leader_of_some (htask.2 args htk) _⟩
    | handleInstallSnapshot =>
      rw [htk, Task.rpc] at hrpc
      obtain ⟨args, hargs, rfl⟩ := Option.map_eq_some_iff.1 hrpc
      refine ⟨rfl, hq ▸ htask.1, le_rfl, (fun T hT => by cases hT),
        History.observe_leader_of_some ?_ _⟩
      rw [(installSnapshotArgs_eq_some hargs).1]
      exact hi.led t.caller (hl htk)
  | encode k t j ht hj =>
    refine hi.calm hs (fun s => Calm.refl _) rfl rfl fun t' ht' => ?_
    rcases List.mem_or_eq_of_mem_set ht' with hold | rfl
    · exact hi.tasks_observe hrefl hold
    · exact (hi.tasks t (List.mem_of_getElem? ht)).mono (hi.le_observe hrefl)
  | deliver k call rf rpc hk h => exact hi.deliver hk h hs
  | receive k call rf hk hw he h =>
    rcases Rpc.finish_calm h with hcalm | ⟨args, reply, hrpc, hterm, hg, hcount, rfl⟩
    · exact hi.receive_calm hk hcalm hs
    · exact hi.receive_vote hk hw he hrpc hterm hg hcount hs
  | lose k call hk he => exact hi.lose hk hs
  | commitChecker s rf msg h => exact hquiet (calm_commitChecker h) hs
  | sendSnapshot s k msg h => exact hquiet (Calm.of_same rfl rfl rfl rfl id) hs
  | snapshot s index data rf h =>
    exact hi.calm hs (calm_set (calm_snapshot h)) rfl rfl fun t ht =>
      hi.tasks_observe (fun r => (calm_set (calm_snapshot h) r).toSteady) ht
  | grow s =>
    have hcalm : Calm (c.servers s) { c.servers s with array := (c.servers s).array + 1 } :=
      Calm.of_same rfl rfl rfl rfl id
    exact hi.calm hs (calm_set hcalm) rfl rfl fun t ht =>
      hi.tasks_observe (fun r => (calm_set hcalm r).toSteady) ht
  | crash s => exact hi.crash s hs

/-- A request keeps its term whatever its slice shows. -/
theorem refresh (hi : Elected c g) : Elected c.refresh g where
  sound := ⟨hi.sound.me, hi.sound.durable, hi.sound.log_ne_nil⟩
  term_pos := hi.term_pos
  voted := hi.voted
  future := hi.future
  led := hi.led
  won := hi.won
  tasks t ht := by
    obtain ⟨old, hold, rfl⟩ := List.mem_map.1 ht
    have hok := hi.tasks old hold
    split
    · refine ⟨?_, fun args hargs => ?_⟩
      · rw [Spawned.server_reread, Spawned.caller_reread]
        exact hok.1
      · obtain ⟨args', htask, rfl⟩ := Spawned.task_reread hargs
        rw [Spawned.caller_reread]
        exact hok.2 args' htask
    · exact hok
  calls call h := ⟨(hi.calls call h).ne, (hi.calls call h).epoch_le, (hi.calls call h).ask_le,
    (hi.calls call h).rpc⟩
  tally := hi.tally
  distinct := hi.distinct
  spent := hi.spent

/-- **The invariant is kept by every step.** -/
theorem step (hi : Elected c g) (hstep : c.step a = some c') : Elected c' (g.observe c') := by
  obtain ⟨c₀, hs, rfl⟩ := Cluster.step_cases hstep
  exact (hi.act hs).refresh

/-- A leader gets no requests of its own term. -/
theorem term_ne_of_leader (hi : Elected c g) {s r : Fin n} {T : ℤ} (h : g.leader T = some r)
    (hne : s ≠ r) (hl : (c.servers s).state = .leader) : (c.servers s).currentTerm ≠ T := by
  rintro rfl
  rw [hi.led s hl] at h
  exact hne (Option.some.inj h)

/-- A leader after a step led before, or counts the last vote that it needs. -/
theorem leader_cases (hi : Elected c g) (hstep : Cluster.Step c a c') {s : Fin n}
    (hl : (c'.servers s).state = .leader) :
    ((c.servers s).state = .leader ∧ (c'.servers s).currentTerm = (c.servers s).currentTerm) ∨
      ∃ k call args reply, a = .receive k ∧ c.calls[k]? = some call ∧ call.caller = s ∧
        call.waiting = true ∧ call.epoch = c.epoch call.caller ∧
        call.rpc = .requestVote args (some reply) ∧ (c.servers s).currentTerm = args.term ∧
        reply.voteGranted = true ∧ (c.servers s).voteCount ≤ n / 2 ∧
        n / 2 < (c.servers s).voteCount + 1 ∧
        (c'.servers s).currentTerm = (c.servers s).currentTerm := by
  have hset : ∀ {r : Fin n} {rf : Raft n C}, Steady (c.servers r) rf →
      ((c.set r rf).servers s).state = .leader → (c.servers s).state = .leader ∧
        ((c.set r rf).servers s).currentTerm = (c.servers s).currentTerm :=
    fun hst hl => (steady_set hst s).leader hl
  cases hstep with
  | idle => exact Or.inl ⟨hl, rfl⟩
  | start r command hr =>
    exact Or.inl (hset (calm_appendCommand _ command).toSteady hl)
  | spawn a r gs hr hgs => exact Or.inl ⟨hl, rfl⟩
  | preVote r hr => exact Or.inl (hset (calm_beginPreVote _).toSteady hl)
  | election r rf args hcand h =>
    obtain ⟨rfl, -⟩ := beginElection_eq_some h
    by_cases hr : s = r
    · subst hr
      simp only [Cluster.call, Cluster.set, Function.update_self] at hl
      have hl : (c.servers s).state = .leader := hl
      rw [hcand] at hl
      cases hl
    · simp only [Cluster.call, Cluster.set, Function.update_of_ne hr] at hl ⊢
      exact Or.inl ⟨hl, trivial⟩
  | dropTask k => exact Or.inl ⟨hl, rfl⟩
  | runTask k t rpc ht hep hr hrpc => exact Or.inl ⟨hl, rfl⟩
  | encode k t j ht hj => exact Or.inl ⟨hl, rfl⟩
  | deliver k call rf rpc hk h => exact Or.inl (hset (Rpc.calm_handle h).toSteady hl)
  | receive k call rf hk hw he h =>
    rcases Rpc.finish_calm h with hcalm | ⟨args, reply, hrpc, hterm, hg, hcount, rfl⟩
    · exact Or.inl (hset hcalm.toSteady hl)
    · by_cases hs : s = call.caller
      · subst hs
        rw [finishCall_self] at hl ⊢
        rw [countVote_term]
        rcases countVote_leader hl with hl | hmaj
        · exact Or.inl ⟨hl, rfl⟩
        · exact Or.inr
            ⟨k, call, args, reply, rfl, hk, rfl, hw, he, hrpc, hterm, hg, hcount, hmaj, rfl⟩
      · rw [finishCall_of_ne hs] at hl ⊢
        exact Or.inl ⟨hl, rfl⟩
  | lose k call hk he => exact Or.inl ⟨hl, rfl⟩
  | commitChecker r rf msg h => exact Or.inl (hset (calm_commitChecker h).toSteady hl)
  | sendSnapshot r k msg h =>
    exact Or.inl (hset (Calm.toSteady (Calm.of_same rfl rfl rfl rfl id)) hl)
  | snapshot r index data rf h => exact Or.inl (hset (calm_snapshot h).toSteady hl)
  | grow r => exact Or.inl (hset (Calm.toSteady (Calm.of_same rfl rfl rfl rfl id)) hl)
  | crash r =>
    have hst := (hi.sound.durable r).steady_make
    rw [hi.sound.me r] at hst
    exact Or.inl (hset hst hl)

/-- A leader after a step led before, or is the first leader of its term. -/
theorem leader_step (hi : Elected c g) (hstep : Cluster.Step c a c') {s : Fin n}
    (hl : (c'.servers s).state = .leader) :
    ((c.servers s).state = .leader ∧ (c'.servers s).currentTerm = (c.servers s).currentTerm) ∨
      g.leader (c'.servers s).currentTerm = none := by
  rcases hi.leader_cases hstep hl with h |
    ⟨k, call, args, reply, -, hk, rfl, hw, he, hrpc, hterm, hg, hcount, hmaj, hsame⟩
  · exact Or.inl h
  · rw [hsame]
    exact Or.inr (hi.win (hi.open_vote hk hw he hrpc hterm hg) hcount hmaj).1

theorem init : Elected (Cluster.init : Cluster n C) History.init where
  sound := Cluster.sound_init
  term_pos _ := Int.one_pos
  voted _ := rfl
  future _ _ _ := rfl
  led s hl := by
    have : ((Cluster.init : Cluster n C).servers s).state = .follower := make_state s {}
    rw [this] at hl
    cases hl
  won T s h := by cases h
  tasks t ht := by cases ht
  calls call h := by cases h
  tally s k₀ q₀ h := by
    obtain ⟨call, hk, -⟩ := h
    cases hk
  distinct s T k k' q h := by
    obtain ⟨call, hk, -⟩ := h
    cases hk
  spent s k q h := by
    obtain ⟨call, hk, -⟩ := h
    cases hk

end Elected

/-- Every reachable state has a history. -/
theorem exists_elected {c : Cluster n C} {as : List (Action n C)}
    (h : run Cluster.step Cluster.init as = some c) : ∃ g, Elected c g :=
  run_invariant (P := fun c => ∃ g, Elected c g)
    (fun _ _ c' ⟨g, hg⟩ hstep => ⟨g.observe c', hg.step hstep⟩) h ⟨_, Elected.init⟩

/-- **Election Safety.** Two servers that are leaders of the same term, at any two moments of a
run, are the same server. -/
theorem leader_unique {c₁ c₂ : Cluster n C} {as bs : List (Action n C)}
    (h₁ : run Cluster.step Cluster.init as = some c₁) (h₂ : run Cluster.step c₁ bs = some c₂)
    {s₁ s₂ : Fin n} (hl₁ : (c₁.servers s₁).state = .leader) (hl₂ : (c₂.servers s₂).state = .leader)
    (hT : (c₁.servers s₁).currentTerm = (c₂.servers s₂).currentTerm) : s₁ = s₂ := by
  obtain ⟨g₁, hg₁⟩ := exists_elected h₁
  -- the first leader stays on record
  have hrec : ∃ g, Elected c₂ g ∧ g.leader (c₁.servers s₁).currentTerm = some s₁ := by
    refine run_invariant
      (P := fun c => ∃ g, Elected c g ∧ g.leader (c₁.servers s₁).currentTerm = some s₁)
      (fun _ _ c' hP hstep => ?_) h₂ ⟨g₁, hg₁, hg₁.led s₁ hl₁⟩
    obtain ⟨g, hg, hl⟩ := hP
    exact ⟨g.observe c', hg.step hstep, History.observe_leader_of_some hl c'⟩
  obtain ⟨g₂, hg₂, hl⟩ := hrec
  have hled := hg₂.led s₂ hl₂
  rw [← hT, hl] at hled
  exact Option.some.inj hled

/-- Server 0 of three becomes the leader of term 2. -/
def firstElection : List (Action 3 C) :=
  [.timeout 0, .deliver 0, .receive 0, .timeout 0, .deliver 2, .receive 2]

theorem leader_unique_firstElection :
    ∃ c₁ c₂ : Cluster 3 ℕ, run Cluster.step Cluster.init firstElection = some c₁ ∧
      run Cluster.step c₁ [.msgComing 0] = some c₂ ∧ (c₂.servers 0).state = .leader ∧
      ∀ s, (c₂.servers s).state = .leader → (c₂.servers s).currentTerm = 2 → 0 = s := by
  have h : ∃ c₁ : Cluster 3 ℕ, run Cluster.step Cluster.init firstElection = some c₁ ∧
      (c₁.servers 0).state = .leader ∧ (c₁.servers 0).currentTerm = 2 ∧
      ∃ c₂, run Cluster.step c₁ [.msgComing 0] = some c₂ ∧ (c₂.servers 0).state = .leader := by
    decide +kernel
  obtain ⟨c₁, h₁, hl, hT, c₂, h₂, hl₂⟩ := h
  exact ⟨c₁, c₂, h₁, h₂, hl₂, fun s hs hT' => leader_unique h₁ h₂ hl hs (hT.trans hT'.symm)⟩

end DistSys
