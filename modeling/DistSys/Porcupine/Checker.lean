import DistSys.Lib.DoublyLinked
import DistSys.Porcupine.Bitset
import Mathlib.Data.Int.Order.Basic

/-!
# The linearizability checker

`porcupine/checker.go` and `porcupine/model.go`, which the tests of the servers use: entries and
their order, the doubly linked list of entries, and the search for a linearization in it.

**Values.** What the source has as `interface{}` is an input or an output. A value of the wrong kind
stops the program, and so does a nil pointer or an index out of range; the functions give `none`
then.

**Memory** (`Heap`). The nodes of the list, with one map for each field of `node`. A pointer is the
number of the node.

**The search** (`Check`). The local variables of `checkSingle`, and one iteration of its loop
(`Check.iterate`). The pointers in `longest` are numbers of slices, since the source compares them.

The functions that describe operations and states for the visualization are left out.
-/

namespace DistSys.Porcupine

variable {ι ο σ : Type}

/-! ## Histories and models -/

structure Operation (ι ο : Type) where
  clientId : ℤ
  input : ι
  call : ℤ
  output : ο
  ret : ℤ
  deriving DecidableEq

inductive EventKind where
  | callEvent
  | returnEvent
  deriving DecidableEq

structure Event (ι ο : Type) where
  clientId : ℤ
  kind : EventKind
  value : ι ⊕ ο
  id : ℤ

/-- The functions that may be nil are optional. -/
structure Model (ι ο σ : Type) where
  partition : Option (List (Operation ι ο) → List (List (Operation ι ο))) := none
  partitionEvent : Option (List (Event ι ο) → List (List (Event ι ο))) := none
  init : σ
  step : σ → ι → ο → Bool × σ
  equal : Option (σ → σ → Bool) := none

/-- A model without nil functions. -/
structure FullModel (ι ο σ : Type) where
  partition : List (Operation ι ο) → List (List (Operation ι ο))
  partitionEvent : List (Event ι ο) → List (List (Event ι ο))
  init : σ
  step : σ → ι → ο → Bool × σ
  equal : σ → σ → Bool

def noPartition (history : List (Operation ι ο)) : List (List (Operation ι ο)) := [history]

def noPartitionEvent (history : List (Event ι ο)) : List (List (Event ι ο)) := [history]

def shallowEqual [DecidableEq σ] (state1 state2 : σ) : Bool := state1 = state2

def fillDefault [DecidableEq σ] (model : Model ι ο σ) : FullModel ι ο σ where
  partition := model.partition.getD noPartition
  partitionEvent := model.partitionEvent.getD noPartitionEvent
  init := model.init
  step := model.step
  equal := model.equal.getD shallowEqual

/-! ## Entries -/

inductive EntryKind where
  | callEntry
  | returnEntry
  deriving DecidableEq

structure Entry (ι ο : Type) where
  kind : EntryKind
  value : ι ⊕ ο
  id : ℤ
  time : ℤ
  clientId : ℤ

/-- `byTime.Less`. At the same time, calls are before returns. -/
def less (a b : Entry ι ο) : Bool :=
  if a.time ≠ b.time then a.time < b.time
  else a.kind = .callEntry && b.kind = .returnEntry

/-- `sort.Sort(byTime(entries))`. It does not say how it orders entries of which none is less. -/
structure ByTime (ι ο : Type) where
  sort : List (Entry ι ο) → List (Entry ι ο)
  perm : ∀ entries, (sort entries).Perm entries
  sorted : ∀ entries, (sort entries).Pairwise fun a b => less b a = false

/-- The two entries of an operation. -/
def entriesOf (elem : Operation ι ο) (id : ℕ) : List (Entry ι ο) :=
  [⟨.callEntry, .inl elem.input, id, elem.call, elem.clientId⟩,
    ⟨.returnEntry, .inr elem.output, id, elem.ret, elem.clientId⟩]

def makeEntries (byTime : ByTime ι ο) (history : List (Operation ι ο)) : List (Entry ι ο) :=
  byTime.sort (history.zipIdx.flatMap fun p => entriesOf p.1 p.2)

/-- The loop of `renumber`: `m` is the renumbering, `id` the next number. -/
def renumberLoop : List (Event ι ο) → (ℤ → Option ℤ) → ℤ → List (Event ι ο)
  | [], _, _ => []
  | v :: events, m, id =>
    match m v.id with
    | some r => { v with id := r } :: renumberLoop events m id
    | none => { v with id := id } ::
        renumberLoop events (Function.update m v.id (some id)) (id + 1)

def renumber (events : List (Event ι ο)) : List (Event ι ο) :=
  renumberLoop events (fun _ => none) 0

/-- The index serves as the time. -/
def convertEntries (events : List (Event ι ο)) : List (Entry ι ο) :=
  events.zipIdx.map fun (elem, i) =>
    let kind := match elem.kind with
      | .returnEvent => .returnEntry
      | .callEvent => .callEntry
    ⟨kind, elem.value, elem.id, i, elem.clientId⟩

/-! ## The linked list of entries -/

/-- The nodes, field by field: of the value, the match (nil for a return), the number of the
operation, and the pointers to the next and the previous node. -/
structure Heap (ι ο : Type) where
  value : ℕ → Option (ι ⊕ ο)
  matching : ℕ → Option ℕ
  id : ℕ → ℤ
  links : Links ℕ
  size : ℕ

namespace Heap

def empty : Heap ι ο := ⟨fun _ => none, fun _ => none, fun _ => 0, ⟨fun _ => none, fun _ => none⟩, 0⟩

/-- `&node{value: value, match: match, id: id}`. -/
def new (h : Heap ι ο) (value : Option (ι ⊕ ο)) (matching : Option ℕ) (id : ℤ) : Heap ι ο where
  value := Function.update h.value h.size value
  matching := Function.update h.matching h.size matching
  id := Function.update h.id h.size id
  links := (h.links.setNext h.size none).setPrev h.size none
  size := h.size + 1

variable (h : Heap ι ο)

def setNext (a : ℕ) (x : Option ℕ) : Heap ι ο := { h with links := h.links.setNext a x }

def setPrev (a : ℕ) (x : Option ℕ) : Heap ι ο := { h with links := h.links.setPrev a x }

def insertBefore (n : ℕ) (mark : Option ℕ) : Heap ι ο :=
  match mark with
  | none => h
  | some mark =>
    let beforeMark := h.links.prev mark
    let h := (h.setPrev mark (some n)).setNext n (some mark)
    match beforeMark with
    | none => h
    | some beforeMark => (h.setPrev n (some beforeMark)).setNext beforeMark (some n)

/-- The loop of `length`, for at most as many rounds as are given. -/
def lengthLoop : ℕ → Option ℕ → Option ℕ
  | _, none => some 0
  | 0, some _ => none
  | fuel + 1, some n => (lengthLoop fuel (h.links.next n)).map (· + 1)

/-- The length of a list, which has no more nodes than there are. -/
def length (n : Option ℕ) : Option ℕ := h.lengthLoop h.size n

def lift (entry : ℕ) : Option (Heap ι ο) := do
  let prev ← h.links.prev entry
  let h := h.setNext prev (h.links.next entry)
  let next ← h.links.next entry
  let h := h.setPrev next (h.links.prev entry)
  let m ← h.matching entry
  let prev ← h.links.prev m
  let h := h.setNext prev (h.links.next m)
  match h.links.next m with
  | some next => return h.setPrev next (h.links.prev m)
  | none => return h

def unlift (entry : ℕ) : Option (Heap ι ο) := do
  let m ← h.matching entry
  let prev ← h.links.prev m
  let h := h.setNext prev (some m)
  let h := match h.links.next m with
    | some next => h.setPrev next (some m)
    | none => h
  let prev ← h.links.prev entry
  let h := h.setNext prev (some entry)
  let next ← h.links.next entry
  return h.setPrev next (some entry)

end Heap

/-- The variables of `makeLinkedEntries`. -/
structure Linking (ι ο : Type) where
  heap : Heap ι ο
  root : Option ℕ
  matching : ℤ → Option ℕ

/-- One round of its loop, which begins with the last entry. -/
def linkEntry (elem : Entry ι ο) (k : Linking ι ο) : Linking ι ο :=
  let entry := k.heap.size
  match elem.kind with
  | .returnEntry =>
    { heap := (k.heap.new (some elem.value) none elem.id).insertBefore entry k.root
      root := some entry
      matching := Function.update k.matching elem.id (some entry) }
  | .callEntry =>
    { heap := (k.heap.new (some elem.value) (k.matching elem.id) elem.id).insertBefore entry k.root
      root := some entry
      matching := k.matching }

def makeLinkedEntries (entries : List (Entry ι ο)) : Linking ι ο :=
  entries.foldr linkEntry ⟨.empty, none, fun _ => none⟩

/-! ## The search -/

structure CacheEntry (σ : Type) where
  linearized : Bitset
  state : σ

abbrev Cache (σ : Type) := BitVec 64 → List (CacheEntry σ)

def cacheContains (equal : σ → σ → Bool) (cache : Cache σ) (entry : CacheEntry σ) : Bool :=
  (cache entry.linearized.hash).any fun elem =>
    entry.linearized.equals elem.linearized && equal entry.state elem.state

structure CallsEntry (σ : Type) where
  entry : ℕ
  state : σ

/-- The slice `longest` of pointers to slices, and those slices. -/
structure Longest where
  seqs : List (List ℤ)
  longest : List (Option ℕ)
  deriving DecidableEq

namespace Longest

/-- The length of the slice behind `longest[id]`: `some none` for a nil pointer, `none` out of
range. -/
def length? (lg : Longest) (id : ℤ) : Option (Option ℕ) :=
  if 0 ≤ id then
    lg.longest[id.toNat]?.map fun p => p.map fun k => (lg.seqs.getD k []).length
  else none

/-- The loop that replaces the shorter slices by `seq`, which is number `k`. -/
def replace (lg : Longest) (k callsLen : ℕ) : List ℤ → Option Longest
  | [] => some lg
  | id :: ids => do
    let len ← lg.length? id
    if len.all (· < callsLen) then
      replace { lg with longest := lg.longest.set id.toNat (some k) } k callsLen ids
    else replace lg k callsLen ids

/-- The slice `seq`, which is made when it is used first. -/
def add (lg : Longest) (seq : List ℤ) : Option Longest := do
  let lg' ← lg.replace lg.seqs.length seq.length seq
  return if lg'.longest = lg.longest then lg else { lg' with seqs := lg.seqs ++ [seq] }

/-- What going back does to `longest`. -/
def record (lg : Longest) (computePartial : Bool) (seq : List ℤ) : Option Longest :=
  if computePartial then lg.add seq else some lg

/-- All entries are in the complete linearization. -/
def fill (lg : Longest) (seq : List ℤ) : Longest :=
  ⟨lg.seqs ++ [seq], List.replicate lg.longest.length (some lg.seqs.length)⟩

end Longest

/-- The local variables of `checkSingle`. -/
structure Check (ι ο σ : Type) where
  heap : Heap ι ο
  headEntry : ℕ
  entry : Option ℕ
  state : σ
  linearized : Bitset
  cache : Cache σ
  calls : List (CallsEntry σ)
  longest : Longest

namespace Check

/-- The variables before the loop. -/
def start (init : σ) (history : List (Entry ι ο)) : Option (Check ι ο σ) := do
  let k := makeLinkedEntries history
  let entry := k.root
  let n := (← k.heap.length entry) / 2
  let headEntry := k.heap.size
  return {
    heap := (k.heap.new none none (-1)).insertBefore headEntry entry
    headEntry := headEntry
    entry := entry
    state := init
    linearized := .newBitset n
    cache := fun _ => []
    calls := []
    longest := ⟨[], List.replicate n none⟩ }

variable (model : FullModel ι ο σ) (computePartial : Bool) (c : Check ι ο σ)

/-- The numbers of the operations in `calls`. -/
def seq : List ℤ := c.calls.map fun v => c.heap.id v.entry

/-- The branch of a call whose step the model allows. -/
def push (entry : ℕ) (newState : σ) : Option (Check ι ο σ) := do
  let id := (c.heap.id entry).toNat
  let newLinearized ← c.linearized.set id
  let newCacheEntry : CacheEntry σ := ⟨newLinearized, newState⟩
  if cacheContains model.equal c.cache newCacheEntry then
    return { c with entry := c.heap.links.next entry }
  else
    let hash := newLinearized.hash
    let heap ← c.heap.lift entry
    return { c with
      heap := heap
      entry := heap.links.next c.headEntry
      state := newState
      linearized := newLinearized
      cache := Function.update c.cache hash (c.cache hash ++ [newCacheEntry])
      calls := c.calls ++ [⟨entry, c.state⟩] }

/-- The branch of a return: back to the call made last. -/
def pop (callsTop : CallsEntry σ) : Option (Check ι ο σ) := do
  let longest ← c.longest.record computePartial c.seq
  let entry := callsTop.entry
  let linearized ← c.linearized.clear (c.heap.id entry).toNat
  let heap ← c.heap.unlift entry
  return { c with
    heap := heap
    entry := heap.links.next entry
    state := callsTop.state
    linearized := linearized
    calls := c.calls.dropLast
    longest := longest }

/-- One iteration of the loop, which goes on or returns. `kill` is what it reads from the flag. -/
def iterate (kill : Bool) : Option (Check ι ο σ ⊕ Bool × Longest) := do
  if (c.heap.links.next c.headEntry).isNone then return .inr (true, c.longest.fill c.seq)
  if kill then return .inr (false, c.longest)
  let entry ← c.entry
  match c.heap.matching entry with
  | some m =>
    match c.heap.value entry, c.heap.value m with
    | some (.inl input), some (.inr output) =>
      let (ok, newState) := model.step c.state input output
      if ok then return .inl (← c.push model entry newState)
      else return .inl { c with entry := c.heap.links.next entry }
    | _, _ => none
  | none =>
    match c.calls.getLast? with
    | none => return .inr (false, c.longest)
    | some callsTop => return .inl (← c.pop computePartial callsTop)

/-- The loop, for at most as many iterations as are given; `kill k` is read in iteration `k`. -/
def loop : ℕ → (ℕ → Bool) → Check ι ο σ → Option (Bool × Longest)
  | 0, _, _ => none
  | fuel + 1, kill, c => do
    match ← c.iterate model computePartial (kill 0) with
    | .inr r => some r
    | .inl c => loop fuel (fun k => kill (k + 1)) c

end Check

def checkSingle (model : FullModel ι ο σ) (history : List (Entry ι ο)) (computePartial : Bool)
    (kill : ℕ → Bool) (fuel : ℕ) : Option (Bool × Longest) := do
  let c ← Check.start model.init history
  c.loop model computePartial fuel kill

end DistSys.Porcupine
