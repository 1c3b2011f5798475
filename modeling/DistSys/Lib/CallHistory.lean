import DistSys.Lib.Positions

/-!
# Histories of calls and returns

A history records the calls of a service and their returns, in the order in which they happened,
each with the length of a log at that time. The calls that have returned are the operations
(`returns`), and the places of the two events in the history are their times.

If every operation has a position of the log that was not there yet when it was called, and that was
there when it returned, then the operations are linearizable for what the entries of the log do
(`CallHistory.linearizable_returns`).
-/

namespace DistSys

variable {κ υ : Type*}

/-- A call or a return, with the length of the log at that time. -/
inductive CallEv (κ υ : Type*) where
  | call (id : κ) (n : ℕ)
  | ret (id : κ) (value : υ) (n : ℕ)

/-- A call that has returned, and the place of the return in the history. -/
structure Return (κ υ : Type*) where
  id : κ
  value : υ
  index : ℕ

namespace CallEv

def stamp : CallEv κ υ → ℕ
  | call _ n => n
  | ret _ _ n => n

def isCall [DecidableEq κ] (id : κ) : CallEv κ υ → Bool
  | call id' _ => id' = id
  | ret _ _ _ => false

end CallEv

def returnAt : CallEv κ υ × ℕ → Option (Return κ υ)
  | (.ret id value _, j) => some ⟨id, value, j⟩
  | (.call _ _, _) => none

def returns (E : List (CallEv κ υ)) : List (Return κ υ) := E.zipIdx.filterMap returnAt

/-- The operations that have returned. -/
def returnedIds (E : List (CallEv κ υ)) : List κ := (returns E).map Return.id

/-- The place of a call. -/
def callIndex [DecidableEq κ] (E : List (CallEv κ υ)) (id : κ) : ℕ := E.findIdx (CallEv.isCall id)

theorem mem_returns {E : List (CallEv κ υ)} {r : Return κ υ} :
    r ∈ returns E ↔ ∃ n, E[r.index]? = some (.ret r.id r.value n) := by
  rw [returns, List.mem_filterMap]
  constructor
  · rintro ⟨⟨ev, j⟩, hmem, hr⟩
    cases ev with
    | call id n => cases hr
    | ret id value n =>
      cases hr
      exact ⟨n, by simpa using List.mem_zipIdx_iff_getElem?.1 hmem⟩
  · rintro ⟨n, hn⟩
    exact ⟨(.ret r.id r.value n, r.index), by simpa using List.mem_zipIdx_iff_getElem?.2 hn, rfl⟩

theorem mem_returnedIds {E : List (CallEv κ υ)} {id : κ} :
    id ∈ returnedIds E ↔ ∃ value n, .ret id value n ∈ E := by
  rw [returnedIds, List.mem_map]
  constructor
  · rintro ⟨r, hr, rfl⟩
    obtain ⟨n, hn⟩ := mem_returns.1 hr
    exact ⟨r.value, n, List.mem_of_getElem? hn⟩
  · rintro ⟨value, n, hmem⟩
    obtain ⟨j, hj⟩ := List.mem_iff_getElem?.1 hmem
    exact ⟨⟨id, value, j⟩, mem_returns.2 ⟨n, hj⟩, rfl⟩

@[simp] theorem returnedIds_concat_call (E : List (CallEv κ υ)) (id : κ) (n : ℕ) :
    returnedIds (E ++ [.call id n]) = returnedIds E := by
  simp [returnedIds, returns, List.zipIdx_append, returnAt]

@[simp] theorem returnedIds_concat_ret (E : List (CallEv κ υ)) (id : κ) (value : υ) (n : ℕ) :
    returnedIds (E ++ [.ret id value n]) = returnedIds E ++ [id] := by
  simp [returnedIds, returns, List.zipIdx_append, returnAt]

/-- The event without the length of the log. -/
def CallEv.unstamped : CallEv κ υ → CallEv κ υ
  | call id _ => call id 0
  | ret id value _ => ret id value 0

/-- The operations and their places do not depend on the log. -/
theorem returns_unstamped (E : List (CallEv κ υ)) : returns (E.map CallEv.unstamped) = returns E := by
  rw [returns, List.zipIdx_map, List.filterMap_map, returns]
  congr 1
  funext ⟨ev, j⟩
  cases ev <;> rfl

theorem callIndex_unstamped [DecidableEq κ] (E : List (CallEv κ υ)) (id : κ) :
    callIndex (E.map CallEv.unstamped) id = callIndex E id := by
  rw [callIndex, List.findIdx_map, callIndex]
  congr 1
  funext ev
  cases ev <;> rfl

/-- The log grows, a return follows its call, and an operation returns once. -/
structure CallHistory (E : List (CallEv κ υ)) : Prop where
  sorted : (E.map CallEv.stamp).Pairwise (· ≤ ·)
  called : ∀ l₁ id value n l₂, E = l₁ ++ .ret id value n :: l₂ → ∃ m, .call id m ∈ l₁
  nodup : (returnedIds E).Nodup

namespace CallHistory

variable {E : List (CallEv κ υ)}

theorem nil : CallHistory ([] : List (CallEv κ υ)) := ⟨.nil, by simp, .nil⟩

theorem call_of_ret (h : CallHistory E) {id : κ} {value : υ} {n : ℕ} (hret : .ret id value n ∈ E) :
    ∃ m, .call id m ∈ E := by
  obtain ⟨l₁, l₂, rfl⟩ := List.append_of_mem hret
  obtain ⟨m, hm⟩ := h.called l₁ id value n l₂ rfl
  exact ⟨m, List.mem_append_left _ hm⟩

theorem sorted_concat (h : CallHistory E) {ev : CallEv κ υ}
    (hle : ∀ ev' ∈ E, ev'.stamp ≤ ev.stamp) :
    ((E ++ [ev]).map CallEv.stamp).Pairwise (· ≤ ·) := by
  rw [List.map_append, List.pairwise_append]
  refine ⟨h.sorted, by simp, ?_⟩
  simpa using hle

/-- A call is added. -/
theorem concat_call (h : CallHistory E) (id : κ) {n : ℕ} (hle : ∀ ev ∈ E, ev.stamp ≤ n) :
    CallHistory (E ++ [.call id n]) where
  sorted := h.sorted_concat hle
  called l₁ id' value m l₂ hsplit := by
    rcases concat_eq_append_cons hsplit with ⟨l₃, -, hE⟩ | ⟨-, hev, -⟩
    · exact h.called l₁ id' value m l₃ hE
    · cases hev
  nodup := by
    rw [returnedIds_concat_call]
    exact h.nodup

/-- A return is added, of a call that has not returned. -/
theorem concat_ret (h : CallHistory E) {id : κ} (value : υ) {n : ℕ} (hle : ∀ ev ∈ E, ev.stamp ≤ n)
    (hcall : ∃ m, .call id m ∈ E)
    (hnew : id ∉ returnedIds E) : CallHistory (E ++ [.ret id value n]) where
  sorted := h.sorted_concat hle
  called l₁ id' value' m l₂ hsplit := by
    rcases concat_eq_append_cons hsplit with ⟨l₃, -, hE⟩ | ⟨rfl, hev, -⟩
    · exact h.called l₁ id' value' m l₃ hE
    · cases hev
      exact hcall
  nodup := by
    rw [returnedIds_concat_ret, ← List.concat_eq_append, List.nodup_concat]
    exact ⟨hnew, h.nodup⟩

theorem stamp_le (h : CallHistory E) {i j : ℕ} {ev ev' : CallEv κ υ} (hi : E[i]? = some ev)
    (hj : E[j]? = some ev') (hij : i < j) : ev.stamp ≤ ev'.stamp := by
  obtain ⟨hi', rfl⟩ := List.getElem?_eq_some_iff.1 hi
  obtain ⟨hj', rfl⟩ := List.getElem?_eq_some_iff.1 hj
  exact List.pairwise_iff_getElem.1 (List.pairwise_map.1 h.sorted) i j hi' hj' hij

/-- The call stands before the return. -/
theorem callIndex_lt [DecidableEq κ] (h : CallHistory E) {r : Return κ υ} (hr : r ∈ returns E) :
    ∃ m, E[callIndex E r.id]? = some (.call r.id m) ∧ callIndex E r.id < r.index := by
  obtain ⟨n, hn⟩ := mem_returns.1 hr
  obtain ⟨hlt, hget⟩ := List.getElem?_eq_some_iff.1 hn
  have hsplit : E = E.take r.index ++ .ret r.id r.value n :: E.drop (r.index + 1) := by
    rw [← hget, ← List.drop_eq_getElem_cons hlt, List.take_append_drop]
  obtain ⟨m, hm⟩ := h.called _ _ _ _ _ hsplit
  obtain ⟨k, hk, hcall⟩ := List.mem_take_iff_getElem.1 hm
  have hfind : callIndex E r.id ≤ k := by
    by_contra h
    have := List.not_of_lt_findIdx (not_le.1 h)
    simp [hcall, CallEv.isCall] at this
  have hlt' : callIndex E r.id < r.index := by omega
  have hlen : E.findIdx (CallEv.isCall r.id) < E.length := hlt'.trans hlt
  have htrue := List.findIdx_getElem (w := hlen)
  cases hev : E[E.findIdx (CallEv.isCall r.id)] with
  | call id m' =>
    rw [hev, CallEv.isCall, decide_eq_true_iff] at htrue
    exact ⟨m', by rw [callIndex, List.getElem?_eq_getElem hlen, hev, htrue], hlt'⟩
  | ret id value n' =>
    rw [hev] at htrue
    cases htrue

/-- **The operations are linearizable**, in the order of their positions. -/
theorem linearizable_returns [DecidableEq κ] (h : CallHistory E) {σ : Type*}
    {step : σ → Return κ υ → Option σ} (g : ℕ → σ) (n : ℕ) (pos : Return κ υ → ℕ)
    (logged : Return κ υ → Bool)
    (heffect : ∀ r ∈ returns E, logged r = true →
      pos r < n ∧ step (g (pos r)) r = some (g (pos r + 1)))
    (hlook : ∀ r ∈ returns E, logged r = false →
      pos r ≤ n ∧ step (g (pos r)) r = some (g (pos r)))
    (hdistinct : ∀ r ∈ returns E, ∀ r' ∈ returns E, logged r = true → logged r' = true →
      pos r = pos r' → r.id = r'.id)
    (hidle : ∀ p < n, (∀ r ∈ returns E, logged r = true → pos r ≠ p) → g (p + 1) = g p)
    (hafter : ∀ r ∈ returns E, ∀ m, .call r.id m ∈ E → m ≤ pos r)
    (hbefore : ∀ r ∈ returns E, ∀ m, E[r.index]? = some (.ret r.id r.value m) →
      pos r ≤ m ∧ (logged r = true → pos r < m)) :
    Linearizable step (fun b a => (b.index : ℤ) < (callIndex E a.id : ℤ)) (g 0) (returns E) := by
  have hpositioned : Positioned step (fun r => (callIndex E r.id : ℤ)) (fun r => (r.index : ℤ))
      (returns E) g n pos logged := {
    interval := by
      intro r hr
      obtain ⟨m, -, hlt⟩ := h.callIndex_lt hr
      exact Int.ofNat_le.2 hlt.le
    effect := heffect
    look := hlook
    distinct := by
      have hnodup := h.nodup
      refine ((hnodup.of_map _).filter _).map_on fun r hr r' hr' heq => ?_
      rw [List.mem_filter] at hr hr'
      exact List.inj_on_of_nodup_map hnodup hr.1 hr'.1 (hdistinct r hr.1 r' hr'.1 hr.2 hr'.2 heq)
    idle := hidle
    order := by
      intro a ha b hb hlt
      obtain ⟨m, hm, -⟩ := h.callIndex_lt ha
      obtain ⟨m', hm'⟩ := mem_returns.1 hb
      have hle : m' ≤ m := h.stamp_le hm' hm (Int.ofNat_lt.1 hlt)
      have hlow := hafter a ha m (List.mem_of_getElem? hm)
      have hhigh := hbefore b hb m' hm'
      exact ⟨by omega, fun hl => by have := hhigh.2 hl; omega⟩ }
  exact hpositioned.toLinearizable

end CallHistory

end DistSys
