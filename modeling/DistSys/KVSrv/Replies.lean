import DistSys.KVSrv.ExactlyOnce

/-!
# The replies that the server keeps

`opReply` holds the replies of `Append`s, for copies of a request that arrive late. An `Append`
removes the entry of the number before its own and a `Put` removes nothing, so the reply of an
`Append` is kept until the clerk's very next request is an `Append` too (`replies_kept`). As long as
the `Append`s of a clerk follow one another directly there is one entry for the clerk. Each `Put`
between two of them leaves one behind for ever (`saved_replies_fails`).

Main result: `saved_replies`.
-/

namespace DistSys.KVSrv

/-! ## What a request does to the replies -/

namespace KVServer

theorem opReply_put (kv : KVServer) (args : PutAppendArgs) :
    (kv.put args).1.opReply = kv.opReply := by
  have hreply := (kv.expect_eq args.clerkId).2.2.1
  simp only [put]
  split
  · exact hreply
  · exact hreply

theorem opReply_append {kv : KVServer} {args : PutAppendArgs}
    (h : args.count = kv.expected args.clerkId) :
    (kv.append args).1.opReply = Function.update
      (Function.update kv.opReply (args.clerkId, args.count) (some (kv.read args.key)))
      (args.clerkId, args.count - 1) none := by
  obtain ⟨hcount, hmap, hreply, -⟩ := kv.expect_eq args.clerkId
  have hexec : ¬ args.count ≠ (kv.expect args.clerkId).2 := by
    rw [hcount, h]
    exact not_not_intro rfl
  have hread : (kv.expect args.clerkId).1.read args.key = kv.read args.key := by
    rw [read, hmap, read]
  simp only [append, if_neg hexec, hread, hreply]

end KVServer

theorem ReadBefore.mem {applied : List Applied} {e : Applied} {value : Value}
    (h : ReadBefore applied e value) : e ∈ applied := by
  obtain ⟨pre, ⟨post, rfl⟩, -⟩ := h
  simp

theorem readBefore_concat_of_ne {applied : List Applied} {e e₀ : Applied} (hne : e ≠ e₀)
    (value : Value) : ReadBefore (applied ++ [e₀]) e value ↔ ReadBefore applied e value := by
  refine ⟨fun h => ?_, fun h => h.append [e₀]⟩
  obtain ⟨pre, ⟨post, hpost⟩, hvalue⟩ := h
  rcases List.eq_nil_or_concat' post with rfl | ⟨post', e₁, rfl⟩
  · -- the last one is another request
    exact absurd (List.append_inj' hpost rfl).2 fun he => hne (List.cons.inj he).1.symm
  · rw [← List.cons_append, ← List.append_assoc] at hpost
    exact ⟨pre, ⟨post', (List.append_inj' hpost rfl).1⟩, hvalue⟩

theorem readBefore_concat_self {applied : List Applied} {e₀ : Applied} (hnew : e₀ ∉ applied)
    (value : Value) :
    ReadBefore (applied ++ [e₀]) e₀ value ↔ value = (effects applied e₀.args.key).getD [] := by
  refine ⟨fun h => ?_, fun h => ⟨applied, ⟨[], rfl⟩, h⟩⟩
  obtain ⟨pre, ⟨post, hpost⟩, hvalue⟩ := h
  rcases List.eq_nil_or_concat' post with rfl | ⟨post', e₁, rfl⟩
  · rw [(List.append_inj' hpost rfl).1]
    exact hvalue
  · rw [← List.cons_append, ← List.append_assoc] at hpost
    rw [(List.append_inj' hpost rfl).1] at hnew
    exact absurd (by simp) hnew

/-! ## The replies in every run -/

/-- The reply of an executed `Append` that was not followed by another one directly. -/
structure Kept (applied : List Applied) (e : Applied) (value : Value) : Prop where
  op : e.op = .append
  read : ReadBefore applied e value
  next : ∀ e' ∈ applied, e'.op = .append → e'.args.clerkId = e.args.clerkId →
    e'.args.count ≠ e.args.count + 1

/-- Another request does not change whether a reply is kept, unless it is the next `Append`. -/
theorem kept_concat_of_ne {applied : List Applied} {e e₀ : Applied} (hne : e ≠ e₀)
    (hnext : e₀.op = .append → e₀.args.clerkId = e.args.clerkId →
      e₀.args.count ≠ e.args.count + 1) (value : Value) :
    Kept (applied ++ [e₀]) e value ↔ Kept applied e value := by
  constructor
  · intro h
    exact ⟨h.op, (readBefore_concat_of_ne hne value).1 h.read,
      fun e' he' => h.next e' (List.mem_append_left _ he')⟩
  · intro h
    refine ⟨h.op, (readBefore_concat_of_ne hne value).2 h.read, fun e' he' => ?_⟩
    rcases List.mem_append.1 he' with he' | he'
    · exact h.next e' he'
    · rw [List.mem_singleton.1 he']
      exact hnext

namespace System

variable {st st' : System}

/-- `opReply` holds the kept replies, each under the clerk and the number of its request. -/
def RepliesKept (st : System) : Prop :=
  ∀ c n value, st.server.opReply (c, n) = some value ↔
    ∃ e, Kept st.applied e value ∧ e.args.clerkId = c ∧ e.args.count = n

/-- What a delivery does to the server and to the list of executed requests. -/
theorem Inv.handle_cases (h : st.Inv) {i : ℕ} {r : Request} (hr : st.requests[i]? = some r) :
    ((st.handle i r).server = st.server ∧ (st.handle i r).applied = st.applied) ∨
      ∃ op args, r = .putAppend op args ∧ args.count = st.server.expected args.clerkId ∧
        (st.handle i r).server = (st.server.putAppend op args).1 ∧
        (st.handle i r).applied = st.applied ++ [⟨i, op, args⟩] := by
  cases r with
  | get key clerkId => exact .inl ⟨rfl, rfl⟩
  | putAppend op args =>
    have h₀ : st.Asked ⟨i, op, args⟩ := hr
    by_cases hcount : args.count = st.server.expected args.clerkId
    · refine .inr ⟨op, args, rfl, hcount, rfl, ?_⟩
      simp only [handle, (KVServer.putAppend_of_eq op hcount i).1, if_true]
    · obtain ⟨hserver, hvalid, -⟩ := KVServer.putAppend_of_ne op hcount (h.known h₀ hcount)
      exact .inl ⟨hserver, by simp [handle, hvalid]⟩

/-- An executed request has a smaller number than the one that the server expects. -/
theorem Inv.applied_lt (h : st.Inv) {e : Applied} (he : e ∈ st.applied) :
    e.args.count < st.server.expected e.args.clerkId :=
  (h.executed e (h.asked e he)).1 he

/-- The server executes a `Put`. -/
theorem RepliesKept.put (h : st.RepliesKept) {e₀ : Applied} (hop : e₀.op = .put) {st' : System}
    (hserver : st'.server.opReply = st.server.opReply)
    (happlied : st'.applied = st.applied ++ [e₀]) :
    st'.RepliesKept := by
  intro c n value
  have hne : ∀ {e : Applied}, e.op = .append → e ≠ e₀ := fun he heq => by
    rw [heq, hop] at he
    cases he
  rw [hserver, h c n value, happlied]
  refine exists_congr fun e => and_congr_left fun _ => ?_
  have hiff : e.op = .append → (Kept (st.applied ++ [e₀]) e value ↔ Kept st.applied e value) :=
    fun he => kept_concat_of_ne (hne he) (fun h₀ => absurd rfl (hne h₀)) value
  exact ⟨fun hk => (hiff hk.op).2 hk, fun hk => (hiff hk.op).1 hk⟩

/-- The server executes an `Append` with the number that it expects. -/
theorem RepliesKept.append (hI : st.Inv) (h : st.RepliesKept) {e₀ : Applied}
    (hop : e₀.op = .append) (hcount : e₀.args.count = st.server.expected e₀.args.clerkId)
    (hserver : st'.server.opReply = (st.server.append e₀.args).1.opReply)
    (happlied : st'.applied = st.applied ++ [e₀]) : st'.RepliesKept := by
  have hbelow : ∀ e ∈ st.applied, e.args.clerkId = e₀.args.clerkId →
      e.args.count < e₀.args.count := fun e he hclerk => by
    have := hI.applied_lt he
    rwa [hclerk, ← hcount] at this
  have hnew : e₀ ∉ st.applied := fun he => lt_irrefl _ (hbelow e₀ he rfl)
  intro c n value
  rw [hserver, KVServer.opReply_append hcount, happlied]
  by_cases hlast : (c, n) = (e₀.args.clerkId, e₀.args.count - 1)
  · -- the entry of the number before is removed
    obtain ⟨rfl, rfl⟩ := Prod.mk.inj hlast
    rw [Function.update_self]
    refine iff_of_false nofun ?_
    rintro ⟨e, hk, hclerk, hn⟩
    exact hk.next e₀ (by simp) hop hclerk.symm (by omega)
  rw [Function.update_of_ne hlast]
  by_cases hself : (c, n) = (e₀.args.clerkId, e₀.args.count)
  · -- the reply of the new request is entered
    obtain ⟨rfl, rfl⟩ := Prod.mk.inj hself
    rw [Function.update_self, Option.some.injEq, eq_comm, KVServer.read, hI.map]
    constructor
    · intro hvalue
      refine ⟨e₀, ⟨hop, (readBefore_concat_self hnew value).2 hvalue, ?_⟩, rfl, rfl⟩
      intro e' he' _ hclerk
      rcases List.mem_append.1 he' with he' | he'
      · have := hbelow e' he' hclerk
        omega
      · rw [List.mem_singleton.1 he']
        omega
    · rintro ⟨e, hk, hclerk, hn⟩
      have he : e = e₀ := by
        rcases List.mem_append.1 hk.read.mem with he | he
        · have := hbelow e he hclerk
          omega
        · exact List.mem_singleton.1 he
      rw [he] at hk
      exact (readBefore_concat_self hnew value).1 hk.read
  · -- the other entries stay
    rw [Function.update_of_ne hself, h c n value]
    refine exists_congr fun e => and_congr_left fun hcn => ?_
    obtain ⟨rfl, rfl⟩ := hcn
    refine (kept_concat_of_ne (fun he => hself (by rw [he])) (fun _ hclerk hn => hlast ?_) value).symm
    rw [hclerk, hn]
    simp

theorem RepliesKept.step {a : Action} (hI : st.Inv) (h : st.RepliesKept)
    (hstep : st.step a = some st') : st'.RepliesKept := by
  cases a with
  | get clerkId key =>
    obtain ⟨-, rfl⟩ := send_eq_some hstep
    exact h
  | putAppend clerkId op key value =>
    obtain ⟨-, rfl⟩ := send_eq_some hstep
    exact h
  | receive j =>
    obtain ⟨⟨i, value⟩, -, hstep⟩ := Option.bind_eq_some_iff.1 hstep
    obtain ⟨r, -, hfinish⟩ := Option.bind_eq_some_iff.1 hstep
    obtain ⟨-, rfl⟩ := finish_eq_some hfinish
    exact h
  | deliver i =>
    obtain ⟨r, hr, rfl⟩ := Option.map_eq_some_iff.1 hstep
    rcases hI.handle_cases hr with ⟨hserver, happlied⟩ | ⟨op, args, -, hcount, hserver, happlied⟩
    · intro c n value
      rw [hserver, happlied]
      exact h c n value
    · cases op with
      | put => exact h.put rfl (by rw [hserver]; exact st.server.opReply_put args) happlied
      | append => exact h.append hI rfl hcount (by rw [hserver]; rfl) happlied

end System

/-- In every run `opReply` holds exactly the replies of the executed `Append`s whose clerk's next
executed request is not an `Append`. -/
theorem replies_kept {as : List System.Action} {st : System}
    (hrun : run System.step .init as = some st) : st.Inv ∧ st.RepliesKept := by
  refine run_invariant (P := fun st => st.Inv ∧ st.RepliesKept)
    (fun _ _ _ h hstep => ⟨System.step_inv h.1 hstep, h.2.step h.1 hstep⟩) hrun
    ⟨System.inv_init, fun c n value => iff_of_false nofun ?_⟩
  rintro ⟨e, hk, -⟩
  cases hk.read.mem

/-! ## `Append`s in a row -/

/-- The clerk and the number of an `Append`. -/
def Request.appendOf : Request → Option (ℤ × ℤ)
  | .putAppend .append args => some (args.clerkId, args.count)
  | _ => none

namespace System

variable {st st' : System}

/-- The `Append`s that the clerks have called. -/
def appends (st : System) : List (ℤ × ℤ) := st.requests.filterMap Request.appendOf

theorem mem_appends {c n : ℤ} : (c, n) ∈ st.appends ↔
    ∃ e, st.Asked e ∧ e.op = .append ∧ e.args.clerkId = c ∧ e.args.count = n := by
  rw [appends, List.mem_filterMap]
  constructor
  · rintro ⟨r, hr, heq⟩
    obtain ⟨i, hi⟩ := List.mem_iff_getElem?.1 hr
    cases r with
    | get key clerkId => cases heq
    | putAppend op args =>
      cases op with
      | put => cases heq
      | append =>
        cases heq
        exact ⟨⟨i, .append, args⟩, hi, rfl, rfl, rfl⟩
  · rintro ⟨⟨i, op, args⟩, hask, rfl, rfl, rfl⟩
    exact ⟨_, List.mem_of_getElem? hask, rfl⟩

/-- A clerk calls `Append` only if it has not called it before, or if its last `Put` or `Append` was
an `Append`. -/
def AppendsInARow (st : System) : Action → Prop
  | .putAppend clerkId .append _ _ =>
    (∀ p ∈ st.appends, p.1 ≠ clerkId) ∨ (clerkId, st.count clerkId - 1) ∈ st.appends
  | _ => True

instance (st : System) (a : Action) : Decidable (st.AppendsInARow a) :=
  match a with
  | .putAppend clerkId .append _ _ => inferInstanceAs
      (Decidable ((∀ p ∈ st.appends, p.1 ≠ clerkId) ∨ (clerkId, st.count clerkId - 1) ∈ st.appends))
  | .putAppend _ .put _ _ => isTrue trivial
  | .get _ _ => isTrue trivial
  | .deliver _ => isTrue trivial
  | .receive _ => isTrue trivial

/-- An `Append` is the first of its clerk, or the number before is an `Append` too. -/
def InARow (st : System) : Prop :=
  ∀ c n, (c, n) ∈ st.appends → (∀ n', (c, n') ∈ st.appends → n ≤ n') ∨ (c, n - 1) ∈ st.appends

theorem InARow.send (hI : st.Inv) (h : st.InARow) {r : Request}
    (hr : ∀ args, r = .putAppend .append args → args.count = st.count args.clerkId ∧
      ((∀ p ∈ st.appends, p.1 ≠ args.clerkId) ∨ (args.clerkId, args.count - 1) ∈ st.appends))
    (hsend : st.send r = some st') : st'.InARow := by
  obtain ⟨hidle, rfl⟩ := send_eq_some hsend
  have happends : ({ st with
      requests := st.requests ++ [r]
      pending := Function.update st.pending r.clerkId (some st.requests.length) } : System).appends =
        st.appends ++ r.appendOf.toList := by
    rw [appends, List.filterMap_append, appends]
    cases hof : r.appendOf <;> simp [hof]
  cases hof : r.appendOf with
  | none =>
    rw [hof, Option.toList_none, List.append_nil] at happends
    intro c n
    rw [happends]
    exact h c n
  | some p =>
    obtain ⟨args, rfl⟩ : ∃ args, r = .putAppend .append args := by
      unfold Request.appendOf at hof
      split at hof
      · exact ⟨_, rfl⟩
      · cases hof
    cases hof
    obtain ⟨hcount, hbefore⟩ := hr args rfl
    -- the earlier requests of the clerk have smaller numbers
    have hbelow : ∀ n, (args.clerkId, n) ∈ st.appends → n < args.count := by
      intro n hn
      obtain ⟨e, hask, -, hclerk, rfl⟩ := mem_appends.1 hn
      rcases (hI.count e hask).2 with hlt | ⟨-, hp⟩
      · rwa [hclerk, ← hcount] at hlt
      · rw [hclerk] at hp
        exact absurd (hidle.symm.trans hp) nofun
    have hmem : ∀ c n, (c, n) ∈ st.appends ++ [(args.clerkId, args.count)] ↔
        (c, n) ∈ st.appends ∨ c = args.clerkId ∧ n = args.count := fun c n => by
      rw [List.mem_append, List.mem_singleton, Prod.mk.injEq]
    intro c n hcn
    simp only [happends, Request.appendOf, Option.toList_some, hmem] at hcn ⊢
    rcases hcn with hcn | ⟨rfl, rfl⟩
    · rcases h c n hcn with hfirst | hpred
      · refine .inl fun n' hn' => ?_
        rcases hn' with hn' | ⟨rfl, rfl⟩
        · exact hfirst n' hn'
        · exact Int.le_of_lt (hbelow n hcn)
      · exact .inr (.inl hpred)
    · rcases hbefore with hfirst | hpred
      · refine .inl fun n' hn' => ?_
        rcases hn' with hn' | ⟨-, rfl⟩
        · exact absurd rfl (hfirst _ hn')
        · exact le_rfl
      · exact .inr (.inl hpred)

theorem InARow.step {a : Action} (hI : st.Inv) (h : st.InARow) (hrow : st.AppendsInARow a)
    (hstep : st.step a = some st') : st'.InARow := by
  cases a with
  | get clerkId key =>
    refine h.send hI (fun args he => ?_) hstep
    cases he
  | putAppend clerkId op key value =>
    refine h.send hI (fun args he => ?_) hstep
    cases he
    exact ⟨rfl, hrow⟩
  | deliver i =>
    obtain ⟨r, hr, rfl⟩ := Option.map_eq_some_iff.1 hstep
    cases r with
    | get key clerkId => exact h
    | putAppend op args => exact h
  | receive j =>
    obtain ⟨⟨i, value⟩, -, hstep⟩ := Option.bind_eq_some_iff.1 hstep
    obtain ⟨r, -, hfinish⟩ := Option.bind_eq_some_iff.1 hstep
    obtain ⟨-, rfl⟩ := finish_eq_some hfinish
    exact h

/-- Between two `Append`s of a clerk there are only `Append`s. -/
theorem InARow.succ_mem (h : st.InARow) {c n n' : ℤ} (hn : (c, n) ∈ st.appends)
    (hn' : (c, n') ∈ st.appends) (hlt : n < n') : (c, n + 1) ∈ st.appends := by
  obtain ⟨k, rfl⟩ : ∃ k : ℕ, n' = n + 1 + k := ⟨(n' - n - 1).toNat, by omega⟩
  induction k with
  | zero => simpa using hn'
  | succ k ih =>
    rcases h c _ hn' with hfirst | hpred
    · have := hfirst n hn
      omega
    · refine ih ?_ (by omega)
      rwa [show n + 1 + ((k + 1 : ℕ) : ℤ) - 1 = n + 1 + k by omega] at hpred

end System

/-- The last `Append` of the clerk that the server has executed. -/
structure LatestAppend (applied : List Applied) (c : ℤ) (e : Applied) : Prop where
  mem : e ∈ applied
  op : e.op = .append
  clerkId : e.args.clerkId = c
  latest : ∀ e' ∈ applied, e'.op = .append → e'.args.clerkId = c → e'.args.count ≤ e.args.count

/-- If the `Append`s of each clerk follow one another, the kept replies are those of the latest. -/
theorem System.kept_iff_latest {st : System} (hI : st.Inv) (hrow : st.InARow) {e : Applied}
    {value : Value} : Kept st.applied e value ↔
      LatestAppend st.applied e.args.clerkId e ∧ ReadBefore st.applied e value := by
  constructor
  · intro hk
    have hmem := hk.read.mem
    refine ⟨⟨hmem, hk.op, rfl, fun e' he' hop hclerk => ?_⟩, hk.read⟩
    by_contra hlt
    have hn : (e.args.clerkId, e.args.count) ∈ st.appends :=
      mem_appends.2 ⟨e, hI.asked e hmem, hk.op, rfl, rfl⟩
    have hn' : (e.args.clerkId, e'.args.count) ∈ st.appends :=
      mem_appends.2 ⟨e', hI.asked e' he', hop, hclerk, rfl⟩
    -- the `Append` with the next number has been executed too
    obtain ⟨e₁, hask, hop₁, hclerk₁, hcount₁⟩ :=
      mem_appends.1 (hrow.succ_mem hn hn' (Int.not_le.1 hlt))
    refine hk.next e₁ ((hI.executed e₁ hask).2 ?_) hop₁ hclerk₁ hcount₁
    have hlt' := hI.applied_lt he'
    rw [hclerk] at hlt'
    rw [hclerk₁]
    omega
  · rintro ⟨hlatest, hread⟩
    refine ⟨hlatest.op, hread, fun e' he' hop hclerk => ?_⟩
    have := hlatest.latest e' he' hop hclerk
    omega

/-- **Saved replies.** In every run in which no clerk calls `Append` after a `Put` that followed an
`Append`, there is at most one entry for a clerk, and it is the reply of the clerk's latest
`Append`. -/
theorem saved_replies {as : List System.Action} {st : System}
    (hrow : Along System.step System.AppendsInARow .init as)
    (hrun : run System.step .init as = some st) :
    (∀ c n n', st.server.opReply (c, n) ≠ none → st.server.opReply (c, n') ≠ none → n = n') ∧
      ∀ c n value, st.server.opReply (c, n) = some value ↔
        ∃ e, LatestAppend st.applied c e ∧ e.args.count = n ∧
          ReadBefore st.applied e value := by
  obtain ⟨hI, hkept⟩ := replies_kept hrun
  have hinrow : st.InARow := (run_induction (P := fun st => st.Inv ∧ st.InARow)
    (fun _ _ _ h hC hstep => ⟨System.step_inv h.1 hstep, h.2.step h.1 hC hstep⟩) hrow hrun
    ⟨System.inv_init, nofun⟩).2
  have hiff : ∀ c n value, st.server.opReply (c, n) = some value ↔
      ∃ e, LatestAppend st.applied c e ∧ e.args.count = n ∧ ReadBefore st.applied e value := by
    intro c n value
    rw [hkept c n value]
    constructor
    · rintro ⟨e, hk, rfl, hn⟩
      obtain ⟨hlatest, hread⟩ := (System.kept_iff_latest hI hinrow).1 hk
      exact ⟨e, hlatest, hn, hread⟩
    · rintro ⟨e, hlatest, hn, hread⟩
      refine ⟨e, (System.kept_iff_latest hI hinrow).2 ⟨?_, hread⟩, hlatest.clerkId, hn⟩
      exact hlatest.clerkId.symm ▸ hlatest
  refine ⟨fun c n n' hn hn' => ?_, hiff⟩
  obtain ⟨value, hvalue⟩ := Option.ne_none_iff_exists'.1 hn
  obtain ⟨value', hvalue'⟩ := Option.ne_none_iff_exists'.1 hn'
  obtain ⟨e, he, rfl, -⟩ := (hiff c n value).1 hvalue
  obtain ⟨e', he', rfl, -⟩ := (hiff c n' value').1 hvalue'
  exact le_antisymm (he'.latest e he.mem he.op he.clerkId) (he.latest e' he'.mem he'.op he'.clerkId)

theorem saved_replies_lateCopyRun :
    ∃ st, run System.step .init lateCopyRun = some st ∧ st.server.opReply (1, 1) = some [5] ∧
      ∀ n, st.server.opReply (1, n) ≠ none → n = 1 := by
  have h : ∃ st : System, run System.step .init lateCopyRun = some st ∧
      st.server.opReply (1, 1) = some [5] := by decide +kernel
  obtain ⟨st, hrun, hreply⟩ := h
  refine ⟨st, hrun, hreply, fun n hn => ?_⟩
  exact (saved_replies (by decide +kernel) hrun).1 1 n 1 hn (by rw [hreply]; exact nofun)

/-- Clerk 1 appends, puts and appends again, waiting for the reply each time. -/
def putBetweenRun : List System.Action :=
  [.putAppend 1 .append [0] [5], .deliver 0, .receive 0, .putAppend 1 .put [0] [6], .deliver 1,
    .receive 1, .putAppend 1 .append [0] [7], .deliver 2, .receive 2]

/-- Both replies are kept: the first `Append` has the number 0, the second one the number 2. -/
theorem saved_replies_fails :
    ∃ st, run System.step .init putBetweenRun = some st ∧
      st.server.opReply (1, 0) = some [] ∧ st.server.opReply (1, 2) = some [6] := by
  decide +kernel

end DistSys.KVSrv
