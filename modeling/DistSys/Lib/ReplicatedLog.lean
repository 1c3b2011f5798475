import DistSys.Lib.Runs
import Mathlib.Data.Int.Order.Basic
import Mathlib.Logic.Function.Basic

/-!
# A replicated log

What a consensus protocol gives to the services that run on it. There is one log, which only grows.
A command is proposed at an index and in a term that no other proposal has, and becomes the entry of
the log at its index later, or never. Every member is handed the entries of the log from the first
one on, in order; after a restart it starts over.

Members and commands are of any type. The trace is what the services see; when an entry is committed
they do not see.

A service is a `LogClient`: its own steps, the commands that it proposes, what it does with the
entries of the log, and what is left of a member after a restart.
-/

namespace DistSys

/-- What the services see. -/
inductive LogEvent (S C : Type*) where
  | proposed (s : S) (index : ℕ) (term : ℤ) (command : C)
  | delivered (s : S) (index : ℕ) (term : ℤ) (command : C)
  | restarted (s : S)
  deriving DecidableEq

structure ReplicatedLog (S C : Type*) where
  /-- The terms and commands of the committed entries. -/
  log : List (ℤ × C)
  proposals : ℕ → ℤ → Option C
  /-- How many entries have been handed to the member. -/
  delivered : S → ℕ
  trace : List (LogEvent S C)

namespace ReplicatedLog

variable {S C : Type*}

def init : ReplicatedLog S C := ⟨[], fun _ _ => none, fun _ => 0, []⟩

inductive Action (S C : Type*) where
  | propose (s : S) (index : ℕ) (term : ℤ) (command : C)
  | commit (term : ℤ)
  | deliver (s : S)
  | restart (s : S)

variable (r : ReplicatedLog S C)

def propose (s : S) (index : ℕ) (term : ℤ) (command : C) : ReplicatedLog S C :=
  { r with
    proposals := fun i t => if i = index ∧ t = term then some command else r.proposals i t
    trace := r.trace ++ [.proposed s index term command] }

def commit (term : ℤ) (command : C) : ReplicatedLog S C :=
  { r with log := r.log ++ [(term, command)] }

def deliver [DecidableEq S] (s : S) (term : ℤ) (command : C) : ReplicatedLog S C :=
  { r with
    delivered := Function.update r.delivered s (r.delivered s + 1)
    trace := r.trace ++ [.delivered s (r.delivered s + 1) term command] }

def restart [DecidableEq S] (s : S) : ReplicatedLog S C :=
  { r with
    delivered := Function.update r.delivered s 0
    trace := r.trace ++ [.restarted s] }

def step [DecidableEq S] (r : ReplicatedLog S C) : Action S C → Option (ReplicatedLog S C)
  | .propose s index term command =>
    if 0 < term ∧ (r.proposals index term).isNone then some (r.propose s index term command)
    else none
  | .commit term => (r.proposals (r.log.length + 1) term).map (r.commit term)
  | .deliver s => r.log[r.delivered s]?.map fun e => r.deliver s e.1 e.2
  | .restart s => some (r.restart s)

end ReplicatedLog

/-! ## Services -/

/-- A service with the states `σ`, the steps `α` of its own, and the steps `β` that propose a
command. -/
structure LogClient (S C σ α β : Type*) where
  act : σ → α → Option σ
  /-- The command, and the member that it is proposed at. -/
  asks : σ → β → Option (S × C)
  /-- The proposal got an index and a term, or was refused. -/
  told : σ → β → Option (ℕ × ℤ) → σ
  /-- The member takes an entry, with its index and term, if it is not busy. -/
  take : σ → S → ℕ → ℤ → C → Option σ
  restart : σ → S → σ

namespace LogClient

variable {S C σ α β : Type*}

inductive Action (S α β : Type*) where
  | act (a : α)
  | refuse (b : β)
  | propose (b : β) (index : ℕ) (term : ℤ)
  | commit (term : ℤ)
  | deliver (s : S)
  | restart (s : S)

/-- The service on a replicated log. -/
def step [DecidableEq S] (svc : LogClient S C σ α β) (w : σ × ReplicatedLog S C) :
    Action S α β → Option (σ × ReplicatedLog S C)
  | .act a => (svc.act w.1 a).map fun st => (st, w.2)
  | .refuse b => (svc.asks w.1 b).map fun _ => (svc.told w.1 b none, w.2)
  | .propose b index term =>
    (svc.asks w.1 b).bind fun p => (w.2.step (.propose p.1 index term p.2)).map fun r =>
      (svc.told w.1 b (some (index, term)), r)
  | .commit term => (w.2.step (.commit term)).map fun r => (w.1, r)
  | .deliver s =>
    w.2.log[w.2.delivered s]?.bind fun e => (svc.take w.1 s (w.2.delivered s + 1) e.1 e.2).map
      fun st => (st, w.2.deliver s e.1 e.2)
  | .restart s => some (svc.restart w.1 s, w.2.restart s)

/-- The cases of a step. -/
inductive Step [DecidableEq S] (svc : LogClient S C σ α β) (st : σ) (r : ReplicatedLog S C) :
    Action S α β → σ → ReplicatedLog S C → Prop
  | act (a : α) (st' : σ) (hact : svc.act st a = some st') : Step svc st r (.act a) st' r
  | refuse (b : β) (p : S × C) (hask : svc.asks st b = some p) :
    Step svc st r (.refuse b) (svc.told st b none) r
  | propose (b : β) (index : ℕ) (term : ℤ) (p : S × C) (hask : svc.asks st b = some p)
      (hterm : 0 < term) (hfree : r.proposals index term = none) :
    Step svc st r (.propose b index term) (svc.told st b (some (index, term)))
      (r.propose p.1 index term p.2)
  | commit (term : ℤ) (command : C) (hprop : r.proposals (r.log.length + 1) term = some command) :
    Step svc st r (.commit term) st (r.commit term command)
  | deliver (s : S) (e : ℤ × C) (st' : σ) (he : r.log[r.delivered s]? = some e)
      (htake : svc.take st s (r.delivered s + 1) e.1 e.2 = some st') :
    Step svc st r (.deliver s) st' (r.deliver s e.1 e.2)
  | restart (s : S) : Step svc st r (.restart s) (svc.restart st s) (r.restart s)

theorem step_cases [DecidableEq S] {svc : LogClient S C σ α β} {st st' : σ}
    {r r' : ReplicatedLog S C} {a : Action S α β} (h : svc.step (st, r) a = some (st', r')) :
    Step svc st r a st' r' := by
  cases a with
  | act a =>
    obtain ⟨st₁, hact, heq⟩ := Option.map_eq_some_iff.1 h
    cases heq
    exact .act a _ hact
  | refuse b =>
    obtain ⟨p, hask, heq⟩ := Option.map_eq_some_iff.1 h
    cases heq
    exact .refuse b p hask
  | propose b index term =>
    obtain ⟨p, hask, hp⟩ := Option.bind_eq_some_iff.1 h
    obtain ⟨r₁, hr₁, heq⟩ := Option.map_eq_some_iff.1 hp
    cases heq
    rw [ReplicatedLog.step] at hr₁
    split at hr₁
    · rename_i hfree
      cases hr₁
      exact .propose b index term p hask hfree.1 (Option.isNone_iff_eq_none.1 hfree.2)
    · cases hr₁
  | commit term =>
    obtain ⟨r₁, hr₁, heq⟩ := Option.map_eq_some_iff.1 h
    cases heq
    obtain ⟨command, hprop, rfl⟩ := Option.map_eq_some_iff.1 hr₁
    exact .commit term command hprop
  | deliver s =>
    obtain ⟨e, he, hp⟩ := Option.bind_eq_some_iff.1 h
    obtain ⟨st₁, htake, heq⟩ := Option.map_eq_some_iff.1 hp
    cases heq
    exact .deliver s e _ he htake
  | restart s =>
    cases h
    exact .restart s

end LogClient

end DistSys
