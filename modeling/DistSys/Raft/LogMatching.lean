import DistSys.Raft.Slices

/-!
# Log Matching

Two real entries with the same index and term hold the same command, and so do the entries below.
What is compared are logs and messages, by global index (`Holds`); each is a segment of linked
entries, and the record determines an entry and the one below it (`Linked.matching`).

A request whose slice is overwritten before it is encoded is not linked, and Log Matching fails
(`overwrittenRun_mismatch`).

Main result: `log_matching`.
-/

namespace DistSys

open Raft

variable {n : ℕ} {C : Type} [Inhabited C]

namespace Raft

/-- The real entry at a global index. -/
def entryAt (rf : Raft n C) (v : ℕ) : Option (LogEntry C) :=
  if rf.lastIncludedIndex < v then rf.logAt v else none

end Raft

/-- The entries, by global index, of a server's log or of an `AppendEntries` message. -/
inductive Cluster.Holds (c : Cluster n C) : (ℕ → Option (LogEntry C)) → Prop
  | log (s : Fin n) : c.Holds (c.servers s).entryAt
  | message (call : Call n C) (args : AppendEntriesArgs n C) (reply : Option AppendEntriesReply)
      (hcall : call ∈ c.calls) (hargs : call.rpc = .appendEntries args reply) : c.Holds args.entryAt

/-- What is held is part of a linked segment. -/
theorem Matched.exists_linked {c : Cluster n C} {g : History n}
    {o : ℕ → ℤ → Option (ℤ × LogEntry C)} (hm : Matched c g o) {f : ℕ → Option (LogEntry C)}
    (hf : c.Holds f) : ∃ b l, Linked o b l ∧ ∀ v, f v = if b < v then l[v - b]? else none := by
  cases hf with
  | log s =>
    refine ⟨_, _, hm.logs s, fun v => ?_⟩
    rw [entryAt]
    split
    · rename_i hv
      rw [logAt_of_le hv.le]
    · rfl
  | message call args reply hcall hargs =>
    refine ⟨_, _, hm.calls call hcall args reply hargs, fun v => ?_⟩
    rw [AppendEntriesArgs.entryAt]
    split
    · rename_i hv
      rw [AppendEntriesArgs.segment, show v - args.prevLogIndex = v - (args.prevLogIndex + 1) + 1 by
        omega, List.getElem?_cons_succ]
    · rfl

/-- The record of a later state has grown. -/
theorem exists_matched {c₁ c₂ : Cluster n C} {bs : List (Action n C)}
    (h : run Cluster.step c₁ bs = some c₂) (hno : Along Cluster.step Cluster.NoOverwrite c₁ bs)
    (hc : c₁.Intact) {g₁ : History n} {o₁ : ℕ → ℤ → Option (ℤ × LogEntry C)} (he : Elected c₁ g₁)
    (hm : Matched c₁ g₁ o₁) :
    ∃ g o, Elected c₂ g ∧ Matched c₂ g o ∧ ∀ i t x, o₁ i t = some x → o i t = some x := by
  refine (hc.run_invariant (P := fun c => ∃ g o, Elected c g ∧ Matched c g o ∧
    ∀ i t x, o₁ i t = some x → o i t = some x) (fun c a c' _ hP hstep => ?_) hno h
    ⟨g₁, o₁, he, hm, fun _ _ _ h => h⟩).2
  obtain ⟨g, o, he, hm, hle⟩ := hP
  obtain ⟨o', hle', hm'⟩ := hm.act he hstep
  exact ⟨g.observe c', o', he.act hstep, hm', fun i t x hx => hle' i t x (hle i t x hx)⟩

theorem Matched.matching {c : Cluster n C} {g : History n} {o : ℕ → ℤ → Option (ℤ × LogEntry C)}
    (hm : Matched c g o) {f f' : ℕ → Option (LogEntry C)} (hf : c.Holds f) (hf' : c.Holds f')
    {v : ℕ} {e e' : LogEntry C} (he : f v = some e) (he' : f' v = some e')
    (hterm : e.term = e'.term) :
    e = e' ∧ ∀ w < v, ∀ x x', f w = some x → f' w = some x' → x = x' := by
  obtain ⟨b, l, hl, hfl⟩ := hm.exists_linked hf
  obtain ⟨b', l', hl', hfl'⟩ := hm.exists_linked hf'
  have hat : ∀ {b : ℕ} {l : List (LogEntry C)} {f : ℕ → Option (LogEntry C)},
      (∀ v, f v = if b < v then l[v - b]? else none) → ∀ {w x}, f w = some x →
        b < w ∧ l[w - b - 1 + 1]? = some x := by
    intro b l f hfl w x hx
    rw [hfl w] at hx
    split at hx
    · rename_i hw
      exact ⟨hw, by rwa [show w - b - 1 + 1 = w - b by omega]⟩
    · cases hx
  obtain ⟨hv, he⟩ := hat hfl he
  obtain ⟨hv', he'⟩ := hat hfl' he'
  obtain ⟨heq, hbelow⟩ := hl.matching hl' (show b + (v - b - 1) = b' + (v - b' - 1) by omega) he he'
    hterm
  refine ⟨heq, fun w hw x x' hx hx' => ?_⟩
  obtain ⟨hbw, hx⟩ := hat hfl hx
  obtain ⟨hbw', hx'⟩ := hat hfl' hx'
  have h := hbelow (v - w) (by omega) (by omega)
  rw [show v - b - 1 - (v - w) = w - b - 1 by omega,
    show v - b' - 1 - (v - w) = w - b' - 1 by omega, hx, hx', Option.some.injEq] at h
  exact h

/-- A real entry is the one on record. -/
theorem Matched.record_of_holds {c : Cluster n C} {g : History n}
    {o : ℕ → ℤ → Option (ℤ × LogEntry C)} (hm : Matched c g o) {f : ℕ → Option (LogEntry C)}
    (hf : c.Holds f) {v : ℕ} {e : LogEntry C} (he : f v = some e) :
    ∃ p, o v e.term = some (p, e) := by
  obtain ⟨b, l, hl, hfl⟩ := hm.exists_linked hf
  rw [hfl v] at he
  split at he
  · rename_i hv
    have hrec := hl.record (r := v - b - 1) (by rwa [show v - b - 1 + 1 = v - b by omega])
    rwa [show b + (v - b - 1) + 1 = v by omega] at hrec
  · cases he

/-- **Log Matching.** After a run that overwrites no request which is still to be encoded, two real
entries with the same index and term, in logs or messages, hold the same command, and all real
entries below that both sides retain are equal. And the entry that `Start` created at index `i` and
term `t` is the only one that is ever present there. -/
theorem log_matching {c₁ c₂ : Cluster n C} {as bs : List (Action n C)}
    (h₁ : run Cluster.step Cluster.init as = some c₁) (h₂ : run Cluster.step c₁ bs = some c₂)
    (hno : Along Cluster.step Cluster.NoOverwrite Cluster.init (as ++ bs)) :
    (∀ f f', c₂.Holds f → c₂.Holds f' → ∀ v e e', f v = some e → f' v = some e' →
      e.term = e'.term → e.command = e'.command ∧
        ∀ w < v, ∀ x x', f w = some x → f' w = some x' → x = x') ∧
    ∀ s i t command, .start s i t command ∈ c₂.trace → ∀ f, c₁.Holds f → ∀ e, f i = some e →
      e.term = t → e.command = command := by
  obtain ⟨hno₁, hno₂⟩ := hno.of_append h₁
  have hc₁ : c₁.Intact := .of_run h₁ hno₁
  obtain ⟨g₁, o₁, he₁, hm₁⟩ := hc₁.matched
  obtain ⟨g₂, o₂, -, hm₂, hle⟩ := exists_matched h₂ hno₂ hc₁ he₁ hm₁
  refine ⟨fun f f' hf hf' v e e' hv hv' ht => ?_, fun s i t command hstart f hf e hv ht => ?_⟩
  · obtain ⟨heq, hbelow⟩ := hm₂.matching hf hf' hv hv' ht
    exact ⟨congrArg LogEntry.command heq, hbelow⟩
  · obtain ⟨p, hp⟩ := hm₁.record_of_holds hf hv
    obtain ⟨p', hp'⟩ := hm₂.starts s i t command hstart
    rw [← ht, hle _ _ _ hp, Option.some.injEq, Prod.mk.injEq] at hp'
    exact congrArg LogEntry.command hp'.2

/-- Server 0 leads term 2 and replicates a command to server 1. -/
def replicatedRun : List (Action 3 ℕ) :=
  firstElection ++ ([.start 0 7, .msgComing 0, .task 0, .deliver 4] : List (Action 3 ℕ))

theorem log_matching_replicatedRun :
    ∃ c : Cluster 3 ℕ, run Cluster.step Cluster.init replicatedRun = some c ∧
      Along Cluster.step Cluster.NoOverwrite Cluster.init replicatedRun ∧
      (c.servers 1).entryAt 1 = some ⟨2, 7⟩ ∧ .start 0 1 2 7 ∈ c.trace ∧
      ∀ f, c.Holds f → ∀ e, f 1 = some e → e.term = 2 → e.command = 7 := by
  have hno : Along Cluster.step Cluster.NoOverwrite Cluster.init replicatedRun := by decide +kernel
  have h : ∃ c : Cluster 3 ℕ, run Cluster.step Cluster.init replicatedRun = some c ∧
      (c.servers 1).entryAt 1 = some ⟨2, 7⟩ ∧ .start 0 1 2 7 ∈ c.trace := by
    decide +kernel
  obtain ⟨c, hc, hentry, hstart⟩ := h
  have hno' : Along Cluster.step Cluster.NoOverwrite Cluster.init (replicatedRun ++ []) := by
    rwa [List.append_nil]
  exact ⟨c, hc, hno, hentry, hstart, (log_matching hc (run_nil _) hno').2 0 1 2 7 hstart⟩

/-! ## A request that is overwritten -/

/-- The servers of these calls handle them, and the callers their replies. -/
def answered (ks : List ℕ) : List (Action n C) := ks.flatMap fun k => [.deliver k, .receive k]

/-- Of seven servers, server 0 leads term 2 and has 7, 8 and 9 in its log. Server 1 has the 7,
server 3 all three, and the request to server 2 with all three is about to be encoded. Then servers
4, 5 and 6 elect server 1 in term 3. Its 5 takes the place of 8 in the log of server 0, and so in
the request, which then leaves and is accepted by server 2. -/
def overwrittenRun : List (Action 7 ℕ) := List.flatten
  [[.timeout 0], answered [0, 1, 2], [.timeout 0], answered [6, 7, 8],
    [.start 0 7, .msgComing 0, .task 0, .deliver 12, .start 0 8, .start 0 9, .msgComing 0, .task 7,
      .deliver 13, .encode 6],
    [.timeout 1], answered [17, 18, 19], [.timeout 1], answered [23, 24, 25],
    [.start 1 5, .msgComing 1, .task 10, .deliver 26, .task 6, .deliver 27]]

/-- The logs of servers 2 and 3 have the same entry of term 2 at index 3 and different ones at
index 2. -/
theorem overwrittenRun_mismatch :
    ∃ c : Cluster 7 ℕ, run Cluster.step Cluster.init overwrittenRun = some c ∧
      c.Holds (c.servers 3).entryAt ∧ c.Holds (c.servers 2).entryAt ∧
      (c.servers 3).entryAt 3 = some ⟨2, 9⟩ ∧ (c.servers 2).entryAt 3 = some ⟨2, 9⟩ ∧
      (c.servers 3).entryAt 2 = some ⟨2, 8⟩ ∧ (c.servers 2).entryAt 2 = some ⟨3, 5⟩ := by
  have h : ∃ c : Cluster 7 ℕ, run Cluster.step Cluster.init overwrittenRun = some c ∧
      (c.servers 3).entryAt 3 = some ⟨2, 9⟩ ∧ (c.servers 2).entryAt 3 = some ⟨2, 9⟩ ∧
      (c.servers 3).entryAt 2 = some ⟨2, 8⟩ ∧ (c.servers 2).entryAt 2 = some ⟨3, 5⟩ := by
    decide +kernel
  obtain ⟨c, hc, hentries⟩ := h
  exact ⟨c, hc, .log 3, .log 2, hentries⟩

end DistSys
