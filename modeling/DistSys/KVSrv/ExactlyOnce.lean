import DistSys.KVSrv.Server
import DistSys.Lib.Runs
import Mathlib.Data.List.Nodup

/-!
# Every `Put` and `Append` takes effect exactly once

The map of the server is what the executed requests make of the empty map, in order (`effects`).
The invariant `Inv` compares the number that the server expects next from a clerk with the number of
the clerk's next `Put` or `Append`: the two are equal, or the server is one ahead because it has
executed the request that the clerk waits for. So a request has been executed if and only if its
number is below the expected one, and no copy of an older request is executed again.

Main result: `applied_once`.
-/

namespace DistSys.KVSrv

/-- What an executed request does to a map. -/
def Applied.effect (e : Applied) (map : Key → Option Value) : Key → Option Value :=
  match e.op with
  | .put => Function.update map e.args.key (some e.args.value)
  | .append => Function.update map e.args.key (some ((map e.args.key).getD [] ++ e.args.value))

/-- The map that the executed requests lead to. -/
def effects (applied : List Applied) : Key → Option Value :=
  applied.foldl (fun map e => e.effect map) fun _ => none

@[simp] theorem effects_concat (applied : List Applied) (e : Applied) :
    effects (applied ++ [e]) = e.effect (effects applied) := by
  simp [effects]

/-! ## The handlers -/

namespace KVServer

/-- The number that the server expects next from a clerk. -/
def expected (kv : KVServer) (clerkId : ℤ) : ℤ := ((kv.clerkIdCount clerkId).map (· + 1)).getD 0

variable {kv : KVServer} {args : PutAppendArgs}

theorem expect_eq (kv : KVServer) (clerkId : ℤ) :
    (kv.expect clerkId).2 = kv.expected clerkId ∧ (kv.expect clerkId).1.map = kv.map ∧
      (kv.expect clerkId).1.opReply = kv.opReply ∧
      (∀ c, c ≠ clerkId → (kv.expect clerkId).1.expected c = kv.expected c) ∧
      (kv.clerkIdCount clerkId ≠ none → (kv.expect clerkId).1 = kv) := by
  unfold expect expected
  cases h : kv.clerkIdCount clerkId with
  | none => exact ⟨rfl, rfl, rfl, fun c hc => by simp [hc], fun hne => absurd rfl hne⟩
  | some now => exact ⟨rfl, rfl, rfl, fun _ _ => rfl, fun _ => rfl⟩

/-- A request with the expected number is executed. -/
theorem putAppend_of_eq (op : Op) (h : args.count = kv.expected args.clerkId) (i : ℕ) :
    (kv.putAppend op args).2.vaildOp = true ∧
      (kv.putAppend op args).1.map = (⟨i, op, args⟩ : Applied).effect kv.map ∧
      (kv.putAppend op args).1.expected args.clerkId = args.count + 1 ∧
      (∀ c, c ≠ args.clerkId → (kv.putAppend op args).1.expected c = kv.expected c) ∧
      (∀ c k, (c ≠ args.clerkId ∨ k ≠ args.count - 1 ∧ k ≠ args.count) →
        (kv.putAppend op args).1.opReply (c, k) = kv.opReply (c, k)) ∧
      (op = .append → (kv.putAppend op args).2.value = kv.read args.key ∧
        (kv.putAppend op args).1.opReply (args.clerkId, args.count) = some (kv.read args.key)) := by
  obtain ⟨hcount, hmap, hreply, hother, -⟩ := kv.expect_eq args.clerkId
  have hread : (kv.expect args.clerkId).1.read args.key = kv.read args.key := by
    rw [read, hmap, read]
  have hexec : ¬ args.count ≠ (kv.expect args.clerkId).2 := by
    rw [hcount, h]
    exact not_not_intro rfl
  have hnext : ∀ kv' : KVServer, kv'.clerkIdCount = Function.update
      (kv.expect args.clerkId).1.clerkIdCount args.clerkId (some (kv.expect args.clerkId).2) →
      kv'.expected args.clerkId = args.count + 1 ∧
        ∀ c, c ≠ args.clerkId → kv'.expected c = kv.expected c := by
    intro kv' hkv'
    refine ⟨by simp [expected, hkv', hcount, h], fun c hc => ?_⟩
    rw [← hother c hc, expected, hkv', Function.update_of_ne hc, expected]
  cases op with
  | put =>
    simp only [putAppend, put, if_neg hexec]
    refine ⟨trivial, by rw [hmap]; rfl, (hnext _ rfl).1, (hnext _ rfl).2, ?_, nofun⟩
    intro c k _
    rw [hreply]
  | append =>
    simp only [putAppend, append, if_neg hexec, hread]
    refine ⟨trivial, by rw [hmap]; rfl, (hnext _ rfl).1, (hnext _ rfl).2, ?_,
      fun _ => ⟨trivial, ?_⟩⟩
    · intro c k hck
      rw [hreply, Function.update_of_ne, Function.update_of_ne]
      · rintro ⟨⟩
        rcases hck with hc | ⟨-, hk⟩
        · exact hc rfl
        · exact hk rfl
      · rintro ⟨⟩
        rcases hck with hc | ⟨hk, -⟩
        · exact hc rfl
        · exact hk rfl
    · rw [Function.update_of_ne, Function.update_self]
      intro he
      have hk := congrArg Prod.snd he
      simp only at hk
      omega

/-- A request of a known clerk with another number is answered without an effect. -/
theorem putAppend_of_ne (op : Op) (h : args.count ≠ kv.expected args.clerkId)
    (hknown : kv.clerkIdCount args.clerkId ≠ none) :
    (kv.putAppend op args).1 = kv ∧ (kv.putAppend op args).2.vaildOp = false ∧
      (op = .append → (kv.putAppend op args).2.value =
        (kv.opReply (args.clerkId, args.count)).getD []) := by
  obtain ⟨hcount, -, -, -, hkeep⟩ := kv.expect_eq args.clerkId
  have hkeep := hkeep hknown
  rw [← hcount] at h
  cases op with
  | put =>
    simp only [putAppend, put, if_pos h]
    exact ⟨hkeep, trivial, nofun⟩
  | append =>
    simp only [putAppend, append, if_pos h]
    exact ⟨hkeep, trivial, fun _ => by rw [hkeep]⟩

end KVServer

/-! ## The invariant -/

/-- The request was executed after those in `pre`. -/
def ExecutedAfter (applied : List Applied) (e : Applied) (pre : List Applied) : Prop :=
  ∃ post, applied = pre ++ e :: post

theorem ExecutedAfter.append {applied pre : List Applied} {e : Applied}
    (h : ExecutedAfter applied e pre) (new : List Applied) :
    ExecutedAfter (applied ++ new) e pre := by
  obtain ⟨post, rfl⟩ := h
  exact ⟨post ++ new, by simp⟩

/-- `value` is what the key of the request read just before it was executed. -/
def ReadBefore (applied : List Applied) (e : Applied) (value : Value) : Prop :=
  ∃ pre, ExecutedAfter applied e pre ∧ value = (effects pre e.args.key).getD []

theorem ReadBefore.append {applied : List Applied} {e : Applied} {value : Value}
    (h : ReadBefore applied e value) (new : List Applied) :
    ReadBefore (applied ++ new) e value := by
  obtain ⟨pre, hpre, hvalue⟩ := h
  exact ⟨pre, hpre.append new, hvalue⟩

/-- The request has been executed, and an `Append` is answered with what the key read before. -/
def Answered (applied : List Applied) (e : Applied) (value : Value) : Prop :=
  e ∈ applied ∧ (e.op = .append → ReadBefore applied e value)

theorem Answered.append {applied : List Applied} {e : Applied} {value : Value}
    (h : Answered applied e value) (new : List Applied) : Answered (applied ++ new) e value :=
  ⟨List.mem_append_left _ h.1, fun hop => (h.2 hop).append new⟩

namespace System

/-- Request `i` is this `Put` or `Append`. -/
def Asked (st : System) (e : Applied) : Prop :=
  st.requests[e.index]? = some (.putAppend e.op e.args)

structure Inv (st : System) : Prop where
  pending : ∀ c i, st.pending c = some i → ∃ r, st.requests[i]? = some r ∧ r.clerkId = c
  /-- The number of a request is that of a call that has returned, or the clerk waits for it. -/
  count : ∀ e, st.Asked e → 0 ≤ e.args.count ∧ (e.args.count < st.count e.args.clerkId ∨
    e.args.count = st.count e.args.clerkId ∧ st.pending e.args.clerkId = some e.index)
  waiting : ∀ e, st.Asked e → st.pending e.args.clerkId = some e.index →
    e.args.count = st.count e.args.clerkId
  count_nonneg : ∀ c, 0 ≤ st.count c
  expected : ∀ c, st.server.expected c = st.count c ∨
    st.server.expected c = st.count c + 1 ∧ ∃ e, st.Asked e ∧ e.args.clerkId = c ∧
      st.pending c = some e.index
  /-- A request has been executed if and only if its number is below the expected one. -/
  executed : ∀ e, st.Asked e → (e ∈ st.applied ↔ e.args.count < st.server.expected e.args.clerkId)
  asked : ∀ e ∈ st.applied, st.Asked e
  nodup : (st.applied.map Applied.index).Nodup
  map : st.server.map = effects st.applied
  /-- The reply of the executed `Append` that the clerk waits for is kept. -/
  kept : ∀ e ∈ st.applied, e.op = .append → st.pending e.args.clerkId = some e.index →
    ∃ value, st.server.opReply (e.args.clerkId, e.args.count) = some value ∧
      ReadBefore st.applied e value
  replies : ∀ i value, (i, value) ∈ st.replies → i < st.requests.length ∧
    ∀ e, st.Asked e → e.index = i → st.pending e.args.clerkId = some i →
      e ∈ st.applied ∧ (e.op = .append → ReadBefore st.applied e value)
  returned : ∀ i value, (i, value) ∈ st.returned → i < st.requests.length ∧
    ∀ e, st.Asked e → e.index = i →
      e ∈ st.applied ∧ (e.op = .append → ReadBefore st.applied e value)

variable {st st' : System}

theorem inv_init : init.Inv where
  pending := nofun
  count e h := by simp [Asked, init] at h
  waiting e h := by simp [Asked, init] at h
  count_nonneg _ := le_rfl
  expected _ := .inl rfl
  executed e h := by simp [Asked, init] at h
  asked := by simp [init]
  nodup := by simp [init]
  map := rfl
  kept := by simp [init]
  replies := by simp [init]
  returned := by simp [init]

/-! ## Requests -/

theorem send_eq_some {r : Request} (h : st.send r = some st') :
    st.pending r.clerkId = none ∧
      st' = { st with
        requests := st.requests ++ [r]
        pending := Function.update st.pending r.clerkId (some st.requests.length) } := by
  rw [System.send] at h
  split at h
  · next hidle =>
    cases h
    exact ⟨hidle, rfl⟩
  · cases h

theorem Asked.of_append {e : Applied} {r : Request}
    (h : ({ st with requests := st.requests ++ [r] } : System).Asked e) :
    st.Asked e ∨ e.index = st.requests.length ∧ r = .putAppend e.op e.args := by
  rw [Asked] at h
  simp only at h
  rcases Nat.lt_trichotomy e.index st.requests.length with hlt | heq | hgt
  · rw [List.getElem?_append_left hlt] at h
    exact .inl h
  · rw [heq, List.getElem?_concat_length, Option.some.injEq] at h
    exact .inr ⟨heq, h⟩
  · rw [List.getElem?_eq_none (by rw [List.length_append]; exact hgt)] at h
    cases h

theorem Asked.lt {e : Applied} (h : st.Asked e) : e.index < st.requests.length :=
  (List.getElem?_eq_some_iff.1 h).1

theorem Asked.append {e : Applied} (h : st.Asked e) (r : Request) :
    ({ st with requests := st.requests ++ [r] } : System).Asked e := by
  rw [Asked]
  simp only
  rw [List.getElem?_append_left h.lt, h]

/-- Of a clerk that waits for nothing, the server expects the next number. -/
theorem Inv.expected_of_idle (h : st.Inv) {c : ℤ} (hidle : st.pending c = none) :
    st.server.expected c = st.count c := by
  rcases h.expected c with he | ⟨-, e, -, -, hp⟩
  · exact he
  · rw [hidle] at hp
    cases hp

/-- A clerk sends a request that has its current number. -/
theorem Inv.send (h : st.Inv) {r : Request}
    (hr : ∀ op args, r = .putAppend op args → args.count = st.count args.clerkId)
    (hsend : st.send r = some st') : st'.Inv := by
  obtain ⟨hidle, rfl⟩ := send_eq_some hsend
  -- nobody who was waiting before is the sender
  have hwait : ∀ {c i}, st.pending c = some i →
      Function.update st.pending r.clerkId (some st.requests.length) c = some i := by
    intro c i hc
    rw [Function.update_of_ne, hc]
    rintro rfl
    rw [hidle] at hc
    cases hc
  have hold : ∀ {c i}, Function.update st.pending r.clerkId (some st.requests.length) c = some i →
      i < st.requests.length → st.pending c = some i := by
    intro c i hc hi
    by_cases hcr : c = r.clerkId
    · subst hcr
      rw [Function.update_self, Option.some.injEq] at hc
      omega
    · rwa [Function.update_of_ne hcr] at hc
  have happlied : ∀ e ∈ st.applied, e.index < st.requests.length := fun e he => (h.asked e he).lt
  exact {
    pending := fun c i hc => by
      by_cases hcr : c = r.clerkId
      · subst hcr
        simp only [Function.update_self, Option.some.injEq] at hc
        subst hc
        exact ⟨r, List.getElem?_concat_length, rfl⟩
      · simp only [Function.update_of_ne hcr] at hc
        obtain ⟨r', hr', hclerk⟩ := h.pending c i hc
        refine ⟨r', ?_, hclerk⟩
        rw [List.getElem?_append_left (List.getElem?_eq_some_iff.1 hr').1, hr']
    count := fun e he => by
      rcases Asked.of_append he with he | ⟨hi, hre⟩
      · obtain ⟨hpos, hlt | ⟨heq, hp⟩⟩ := h.count e he
        · exact ⟨hpos, .inl hlt⟩
        · exact ⟨hpos, .inr ⟨heq, hwait hp⟩⟩
      · have hcount := hr _ _ hre
        refine ⟨hcount ▸ h.count_nonneg _, .inr ⟨hcount, ?_⟩⟩
        simp [hre, Request.clerkId, hi]
    waiting := fun e he hp => by
      rcases Asked.of_append he with he | ⟨-, hre⟩
      · exact h.waiting e he (hold hp he.lt)
      · exact hr _ _ hre
    count_nonneg := h.count_nonneg
    expected := fun c => by
      rcases h.expected c with he | ⟨he, e, hask, hclerk, hp⟩
      · exact .inl he
      · exact .inr ⟨he, e, hask.append r, hclerk, hwait hp⟩
    executed := fun e he => by
      rcases Asked.of_append he with he | ⟨hi, hre⟩
      · exact h.executed e he
      · -- the new request has the expected number, and no list entry has its index
        have hexpected : st.server.expected e.args.clerkId = e.args.count := by
          rw [hre] at hidle
          exact (h.expected_of_idle hidle).trans (hr _ _ hre).symm
        have hnew : e ∉ st.applied := fun hmem => Nat.ne_of_lt (happlied e hmem) hi
        refine ⟨fun hmem => absurd hmem hnew, fun hlt => ?_⟩
        exact absurd hlt (Int.not_lt.2 (Int.le_of_eq hexpected))
    asked := fun e he => (h.asked e he).append r
    nodup := h.nodup
    map := h.map
    kept := fun e he hop hp => h.kept e he hop (hold hp (happlied e he))
    replies := fun i value hi => by
      obtain ⟨hlt, hval⟩ := h.replies i value hi
      refine ⟨by simpa using Nat.lt_succ_of_lt hlt, fun e he hei hp => ?_⟩
      rcases Asked.of_append he with he | ⟨hnew, -⟩
      · exact hval e he hei (hold hp hlt)
      · omega
    returned := fun i value hi => by
      obtain ⟨hlt, hval⟩ := h.returned i value hi
      refine ⟨by simpa using Nat.lt_succ_of_lt hlt, fun e he hei => ?_⟩
      rcases Asked.of_append he with he | ⟨hnew, -⟩
      · exact hval e he hei
      · omega }

/-! ## Deliveries -/

theorem Asked.unique {e e' : Applied} (h : st.Asked e) (h' : st.Asked e')
    (hi : e.index = e'.index) : e = e' := by
  rw [Asked, hi, h'] at h
  cases e
  cases e'
  cases h
  cases hi
  rfl

/-- The request that the server expects is the one that its clerk waits for, and it has not been
executed. -/
theorem Inv.current (h : st.Inv) {e₀ : Applied} (h₀ : st.Asked e₀)
    (hcount : e₀.args.count = st.server.expected e₀.args.clerkId) :
    e₀.args.count = st.count e₀.args.clerkId ∧ st.pending e₀.args.clerkId = some e₀.index ∧
      e₀ ∉ st.applied := by
  have hnew : e₀ ∉ st.applied := fun hmem => by
    have := (h.executed e₀ h₀).1 hmem
    omega
  rcases (h.count e₀ h₀).2 with hlt | ⟨heq, hp⟩
  · rcases h.expected e₀.args.clerkId with he | ⟨he, -⟩ <;> omega
  · exact ⟨heq, hp, hnew⟩

/-- A clerk waits for one request. -/
theorem Asked.eq_of_pending {e₀ e : Applied} (h₀ : st.Asked e₀)
    (hp₀ : st.pending e₀.args.clerkId = some e₀.index) (he : st.Asked e)
    (hclerk : e.args.clerkId = e₀.args.clerkId) (hp : st.pending e.args.clerkId = some e.index) :
    e = e₀ := by
  rw [hclerk, hp₀, Option.some.injEq] at hp
  exact he.unique h₀ hp.symm

/-- With the expected request, exactly what is below the next number has been executed. -/
theorem Inv.executed_concat (h : st.Inv) {e₀ : Applied} (h₀ : st.Asked e₀)
    (hcount : e₀.args.count = st.server.expected e₀.args.clerkId) {kv : KVServer}
    (hnext : kv.expected e₀.args.clerkId = e₀.args.count + 1)
    (hother : ∀ c, c ≠ e₀.args.clerkId → kv.expected c = st.server.expected c) {e : Applied}
    (he : st.Asked e) :
    e ∈ st.applied ++ [e₀] ↔ e.args.count < kv.expected e.args.clerkId := by
  obtain ⟨-, hp₀, -⟩ := h.current h₀ hcount
  rw [List.mem_append, List.mem_singleton, h.executed e he]
  by_cases hclerk : e.args.clerkId = e₀.args.clerkId
  · rw [hclerk, hnext, ← hcount]
    constructor
    · rintro (hlt | rfl) <;> omega
    · intro hlt
      rcases (h.count e he).2 with hold | ⟨-, hp⟩
      · have hcur := (h.current h₀ hcount).1
        rw [hclerk] at hold
        exact .inl (by omega)
      · exact .inr (h₀.eq_of_pending hp₀ he hclerk hp)
  · rw [hother _ hclerk]
    exact or_iff_left fun heq => hclerk (heq ▸ rfl)

/-- The server handles a request that it expects. -/
theorem Inv.execute (h : st.Inv) {e₀ : Applied} (h₀ : st.Asked e₀)
    (hcount : e₀.args.count = st.server.expected e₀.args.clerkId) :
    (st.handle e₀.index (.putAppend e₀.op e₀.args)).Inv := by
  obtain ⟨hvalid, hmap, hnext, hother, hreply, hvalue⟩ :=
    KVServer.putAppend_of_eq e₀.op hcount e₀.index
  have hstep : st.handle e₀.index (.putAppend e₀.op e₀.args) =
      { st with
        server := (st.server.putAppend e₀.op e₀.args).1
        replies := st.replies ++ [(e₀.index, (st.server.putAppend e₀.op e₀.args).2.value)]
        applied := st.applied ++ [e₀] } := by
    simp only [handle, hvalid, if_true]
  rw [hstep]
  generalize st.server.putAppend e₀.op e₀.args = r at hvalid hmap hnext hother hreply hvalue
  obtain ⟨hcur, hp₀, hnew⟩ := h.current h₀ hcount
  have hread : ReadBefore (st.applied ++ [e₀]) e₀ (st.server.read e₀.args.key) :=
    ⟨st.applied, ⟨[], rfl⟩, by rw [KVServer.read, h.map]⟩
  exact {
    pending := h.pending
    count := h.count
    waiting := h.waiting
    count_nonneg := h.count_nonneg
    expected := fun c => by
      by_cases hc : c = e₀.args.clerkId
      · subst hc
        exact .inr ⟨by rw [hnext, hcur], e₀, h₀, rfl, hp₀⟩
      · rw [hother c hc]
        exact h.expected c
    executed := fun e he => h.executed_concat h₀ hcount hnext hother he
    asked := fun e he => by
      rcases List.mem_append.1 he with he | he
      · exact h.asked e he
      · rw [List.mem_singleton.1 he]
        exact h₀
    nodup := by
      rw [List.map_append, List.map_singleton, ← List.concat_eq_append]
      refine List.Nodup.concat (fun hmem => ?_) h.nodup
      obtain ⟨e, he, hi⟩ := List.mem_map.1 hmem
      exact hnew ((h.asked e he).unique h₀ hi ▸ he)
    map := by
      rw [effects_concat, ← h.map]
      exact hmap
    kept := fun e he hop hp => by
      rcases List.mem_append.1 he with he | he
      · have hclerk : e.args.clerkId ≠ e₀.args.clerkId := fun hclerk =>
          hnew (h₀.eq_of_pending hp₀ (h.asked e he) hclerk hp ▸ he)
        obtain ⟨value, hval, hrb⟩ := h.kept e he hop hp
        exact ⟨value, (hreply _ _ (.inl hclerk)).trans hval, hrb.append _⟩
      · rw [List.mem_singleton.1 he] at hop ⊢
        exact ⟨_, (hvalue hop).2, hread⟩
    replies := fun i value hi => by
      rcases List.mem_append.1 hi with hi | hi
      · obtain ⟨hlt, hval⟩ := h.replies i value hi
        exact ⟨hlt, fun e he hei hp => Answered.append (hval e he hei hp) _⟩
      · obtain ⟨rfl, rfl⟩ := Prod.mk.inj (List.mem_singleton.1 hi)
        refine ⟨h₀.lt, fun e he hei _ => ?_⟩
        rw [Asked.unique he h₀ hei]
        refine ⟨List.mem_append_right _ (List.mem_singleton_self _), fun hop => ?_⟩
        rw [(hvalue hop).1]
        exact hread
    returned := fun i value hi => by
      obtain ⟨hlt, hval⟩ := h.returned i value hi
      exact ⟨hlt, fun e he hei => Answered.append (hval e he hei) _⟩ }

/-- A reply is added that fits the request, if its clerk still waits. -/
theorem Inv.reply (h : st.Inv) {i : ℕ} (hi : i < st.requests.length) {value : Value}
    (hval : ∀ e, st.Asked e → e.index = i → st.pending e.args.clerkId = some i →
      e ∈ st.applied ∧ (e.op = .append → ReadBefore st.applied e value)) :
    ({ st with replies := st.replies ++ [(i, value)] } : System).Inv := by
  refine ⟨h.pending, h.count, h.waiting, h.count_nonneg, h.expected, h.executed, h.asked, h.nodup,
    h.map, h.kept, ?_, h.returned⟩
  intro i' value' hi'
  rcases List.mem_append.1 hi' with hi' | hi'
  · exact h.replies i' value' hi'
  · obtain ⟨rfl, rfl⟩ := Prod.mk.inj (List.mem_singleton.1 hi')
    exact ⟨hi, hval⟩

/-- A request that the server does not expect is of a clerk that it knows: the first request of a
clerk has the number 0, which a server without an entry expects. -/
theorem Inv.known (h : st.Inv) {e₀ : Applied} (h₀ : st.Asked e₀)
    (hcount : e₀.args.count ≠ st.server.expected e₀.args.clerkId) :
    st.server.clerkIdCount e₀.args.clerkId ≠ none := by
  intro hnone
  have hpos := h.count_nonneg e₀.args.clerkId
  have hzero : st.server.expected e₀.args.clerkId = 0 := by
    rw [KVServer.expected, hnone]
    rfl
  rcases h.count e₀ h₀ with ⟨hnonneg, hlt | ⟨heq, -⟩⟩ <;>
    rcases h.expected e₀.args.clerkId with he | ⟨he, -⟩ <;> omega

/-- The server handles a copy of a request that it does not expect. -/
theorem Inv.repeated (h : st.Inv) {e₀ : Applied} (h₀ : st.Asked e₀)
    (hcount : e₀.args.count ≠ st.server.expected e₀.args.clerkId) :
    (st.handle e₀.index (.putAppend e₀.op e₀.args)).Inv := by
  have hbounds := h.expected e₀.args.clerkId
  obtain ⟨hserver, hvalid, hvalue⟩ := KVServer.putAppend_of_ne e₀.op hcount (h.known h₀ hcount)
  have hstep : st.handle e₀.index (.putAppend e₀.op e₀.args) =
      { st with
        replies := st.replies ++ [(e₀.index, (st.server.putAppend e₀.op e₀.args).2.value)] } := by
    simp [handle, hvalid, hserver]
  rw [hstep]
  refine h.reply h₀.lt fun e he hei hp => ?_
  obtain rfl := he.unique h₀ hei
  have hmem : e ∈ st.applied := by
    rw [h.executed e he]
    have hcur := h.waiting e he hp
    rcases hbounds with hb | ⟨hb, -⟩ <;> omega
  refine ⟨hmem, fun hop => ?_⟩
  obtain ⟨value, hkept, hrb⟩ := h.kept e hmem hop hp
  rw [hvalue hop, hkept]
  exact hrb

theorem Inv.deliver (h : st.Inv) {i : ℕ} {r : Request} (hr : st.requests[i]? = some r) :
    (st.handle i r).Inv := by
  cases r with
  | get key clerkId =>
    refine h.reply (List.getElem?_eq_some_iff.1 hr).1 fun e he hei _ => ?_
    rw [Asked, hei, hr] at he
    cases he
  | putAppend op args =>
    have h₀ : st.Asked ⟨i, op, args⟩ := hr
    by_cases hcount : args.count = st.server.expected args.clerkId
    · exact h.execute h₀ hcount
    · exact h.repeated h₀ hcount

/-! ## Returns -/

theorem finish_eq_some {i : ℕ} {value : Value} {r : Request}
    (h : st.finish i value r = some st') :
    st.pending r.clerkId = some i ∧
      st' = { st with
        pending := Function.update st.pending r.clerkId none
        count := r.nextCount st.count
        returned := st.returned ++ [(i, value)] } := by
  rw [System.finish] at h
  split at h
  · next hp =>
    cases h
    exact ⟨hp, rfl⟩
  · cases h

/-- The number of the clerk after a return: it is the expected one, and every request of the clerk
has a smaller one. -/
theorem Inv.nextCount (h : st.Inv) {i : ℕ} {r : Request} (hr : st.requests[i]? = some r)
    (hp : st.pending r.clerkId = some i)
    (hdone : ∀ e, st.Asked e → e.index = i → e ∈ st.applied) :
    st.server.expected r.clerkId = r.nextCount st.count r.clerkId ∧
      ∀ e, st.Asked e → e.args.clerkId = r.clerkId →
        e.args.count < r.nextCount st.count r.clerkId := by
  cases r with
  | get key clerkId =>
    -- the clerk waits for a `Get`
    have hnot : ∀ e, st.Asked e → st.pending clerkId ≠ some e.index := by
      intro e he hpe
      rw [Request.clerkId, hpe, Option.some.injEq] at hp
      rw [Asked, hp, hr] at he
      cases he
    refine ⟨?_, fun e he hclerk => ?_⟩
    · rcases h.expected clerkId with he | ⟨-, e, he, -, hpe⟩
      · exact he
      · exact absurd hpe (hnot e he)
    · rcases (h.count e he).2 with hlt | ⟨-, hpe⟩
      · exact hclerk ▸ hlt
      · rw [hclerk] at hpe
        exact absurd hpe (hnot e he)
  | putAppend op args =>
    have h₀ : st.Asked ⟨i, op, args⟩ := hr
    have hcur : args.count = st.count args.clerkId := h.waiting _ h₀ hp
    have hlt : args.count < st.server.expected args.clerkId :=
      (h.executed _ h₀).1 (hdone _ h₀ rfl)
    simp only [Request.nextCount, Request.clerkId, Function.update_self]
    refine ⟨?_, fun e he hclerk => ?_⟩
    · rcases h.expected args.clerkId with he | ⟨he, -⟩ <;> omega
    · have hcount := (h.count e he).2
      rw [hclerk] at hcount
      rcases hcount with hlt | ⟨heq, -⟩ <;> omega

theorem nextCount_of_ne {r : Request} {c : ℤ} (hc : c ≠ r.clerkId) (count : ℤ → ℤ) :
    r.nextCount count c = count c := by
  cases r with
  | get key clerkId => rfl
  | putAppend op args => exact Function.update_of_ne hc _ _

theorem le_nextCount (r : Request) (count : ℤ → ℤ) :
    count r.clerkId ≤ r.nextCount count r.clerkId := by
  cases r with
  | get key clerkId => exact le_rfl
  | putAppend op args =>
    simp only [Request.nextCount, Request.clerkId, Function.update_self]
    omega

/-- The call of a clerk returns with a reply to it. -/
theorem Inv.finish (h : st.Inv) {i : ℕ} {value : Value} (hv : (i, value) ∈ st.replies)
    {r : Request} (hr : st.requests[i]? = some r) (hfinish : st.finish i value r = some st') :
    st'.Inv := by
  obtain ⟨hp, rfl⟩ := finish_eq_some hfinish
  obtain ⟨hlt, hval⟩ := h.replies i value hv
  have hwaits : ∀ e, st.Asked e → e.index = i → st.pending e.args.clerkId = some i := by
    intro e he hei
    rw [Asked, hei, hr, Option.some.injEq] at he
    rw [he] at hp
    exact hp
  obtain ⟨hexpected, hbelow⟩ := h.nextCount hr hp fun e he hei => (hval e he hei (hwaits e he hei)).1
  -- what is left of the waiting clerks
  have hold : ∀ {c j}, Function.update st.pending r.clerkId none c = some j →
      c ≠ r.clerkId ∧ st.pending c = some j := by
    intro c j hc
    by_cases hcr : c = r.clerkId
    · subst hcr
      rw [Function.update_self] at hc
      cases hc
    · rw [Function.update_of_ne hcr] at hc
      exact ⟨hcr, hc⟩
  exact {
    pending := fun c j hc => h.pending c j (hold hc).2
    count := fun e he => by
      by_cases hclerk : e.args.clerkId = r.clerkId
      · exact ⟨(h.count e he).1, .inl (hclerk ▸ hbelow e he hclerk)⟩
      · simp only [nextCount_of_ne hclerk, Function.update_of_ne hclerk]
        exact h.count e he
    waiting := fun e he hpe => by
      obtain ⟨hclerk, hpe⟩ := hold hpe
      simp only [nextCount_of_ne hclerk]
      exact h.waiting e he hpe
    count_nonneg := fun c => by
      by_cases hc : c = r.clerkId
      · subst hc
        exact Int.le_trans (h.count_nonneg _) (le_nextCount r st.count)
      · simp only [nextCount_of_ne hc]
        exact h.count_nonneg c
    expected := fun c => by
      by_cases hc : c = r.clerkId
      · subst hc
        exact .inl hexpected
      · simp only [nextCount_of_ne hc, Function.update_of_ne hc]
        exact h.expected c
    executed := h.executed
    asked := h.asked
    nodup := h.nodup
    map := h.map
    kept := fun e he hop hpe => h.kept e he hop (hold hpe).2
    replies := fun j value' hj => by
      obtain ⟨hlt', hval'⟩ := h.replies j value' hj
      exact ⟨hlt', fun e he hei hpe => hval' e he hei (hold hpe).2⟩
    returned := fun j value' hj => by
      rcases List.mem_append.1 hj with hj | hj
      · exact h.returned j value' hj
      · obtain ⟨rfl, rfl⟩ := Prod.mk.inj (List.mem_singleton.1 hj)
        exact ⟨hlt, fun e he hei => hval e he hei (hwaits e he hei)⟩ }

/-! ## Runs -/

theorem step_inv {a : Action} (h : st.Inv) (hstep : st.step a = some st') : st'.Inv := by
  cases a with
  | get clerkId key =>
    refine h.send ?_ hstep
    rintro op args ⟨⟩
  | putAppend clerkId op key value =>
    refine h.send ?_ hstep
    rintro op' args' ⟨⟩
    rfl
  | deliver i =>
    obtain ⟨r, hr, rfl⟩ := Option.map_eq_some_iff.1 hstep
    exact h.deliver hr
  | receive j =>
    obtain ⟨⟨i, value⟩, hj, hstep⟩ := Option.bind_eq_some_iff.1 hstep
    obtain ⟨r, hr, hfinish⟩ := Option.bind_eq_some_iff.1 hstep
    exact h.finish (List.mem_of_getElem? hj) hr hfinish

end System

/-- **Exactly once.** In every state of every run the map is what the executed requests make of it.
A `Put` or `Append` whose call has returned stands in their list at exactly one place, and an
`Append` has returned the value that the key had just before. -/
theorem applied_once {as : List System.Action} {st : System}
    (hrun : run System.step .init as = some st) :
    st.server.map = effects st.applied ∧
      ∀ i value op args, (i, value) ∈ st.returned →
        st.requests[i]? = some (.putAppend op args) →
        ∃ pre post, st.applied = pre ++ ⟨i, op, args⟩ :: post ∧
          (∀ e ∈ pre ++ post, e.index ≠ i) ∧
          (op = .append → value = (effects pre args.key).getD []) := by
  have h : st.Inv := run_invariant (fun _ _ _ => System.step_inv) hrun System.inv_init
  refine ⟨h.map, fun i value op args hret hreq => ?_⟩
  obtain ⟨hmem, hread⟩ := (h.returned i value hret).2 ⟨i, op, args⟩ hreq rfl
  -- the numbers of the executed requests are distinct, so one split is as good as another
  have hsplit : ∃ pre post, st.applied = pre ++ ⟨i, op, args⟩ :: post ∧
      (op = .append → value = (effects pre args.key).getD []) := by
    by_cases hop : op = .append
    · obtain ⟨pre, ⟨post, hpost⟩, hvalue⟩ := hread hop
      exact ⟨pre, post, hpost, fun _ => hvalue⟩
    · obtain ⟨pre, post, hpost⟩ := List.append_of_mem hmem
      exact ⟨pre, post, hpost, fun h => absurd h hop⟩
  obtain ⟨pre, post, hpost, hvalue⟩ := hsplit
  refine ⟨pre, post, hpost, ?_, hvalue⟩
  have hnodup := h.nodup
  rw [hpost, List.map_append, List.map_cons, List.nodup_middle, List.nodup_cons,
    ← List.map_append] at hnodup
  intro e he hi
  exact hnodup.1 (List.mem_map.2 ⟨e, he, hi⟩)

/-- Clerk 1 appends twice; a copy of its first request arrives after the call has returned, and
again after the second one was executed. -/
def lateCopyRun : List System.Action :=
  [.putAppend 1 .append [0] [5], .deliver 0, .deliver 0, .receive 1, .deliver 0,
    .putAppend 1 .append [0] [6], .deliver 1, .deliver 0, .deliver 1, .receive 5]

theorem applied_once_lateCopyRun :
    ∃ st, run System.step .init lateCopyRun = some st ∧ st.returned = [(0, []), (1, [5])] ∧
      st.server.map [0] = some [5, 6] ∧
      ∃ pre post, st.applied = pre ++ ⟨1, .append, ⟨[0], [6], 1, 1⟩⟩ :: post ∧
        (∀ e ∈ pre ++ post, e.index ≠ 1) ∧ (effects pre [0]).getD [] = [5] := by
  have h : ∃ st : System, run System.step .init lateCopyRun = some st ∧
      st.returned = [(0, []), (1, [5])] ∧ st.server.map [0] = some [5, 6] ∧
      st.requests[1]? = some (.putAppend .append ⟨[0], [6], 1, 1⟩) := by
    decide +kernel
  obtain ⟨st, hst, hret, hmap, hreq⟩ := h
  obtain ⟨pre, post, hsplit, honce, hvalue⟩ :=
    (applied_once hst).2 1 [5] .append ⟨[0], [6], 1, 1⟩ (by rw [hret]; decide) hreq
  exact ⟨st, hst, hret, hmap, pre, post, hsplit, honce, (hvalue rfl).symm⟩

end DistSys.KVSrv
