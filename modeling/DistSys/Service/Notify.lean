import DistSys.Lib.Runs
import DistSys.ShardCtrler.Server
import DistSys.ShardKV.Server

/-!
# Replies to requests

`ShardCtrler.Command` and `ShardKV.Execute` pass a command to raft and wait on a channel for the
reply. Both keep one channel per log index; the term that `Start` returns is dropped. The applier
sends the reply of the entry at an index to the channel of the index, if the server leads and the
entry is of its current term.

The model is one server of any such service: its raft log as the service sees it, the applier, the
channels and the handlers. Leadership, the end of the log that is not committed yet, and the commit
index change as raft allows: a server wins an election only in a term that is new to it, only a
server that does not lead has its log overwritten, and committed entries stay.

Main results: `reply_own`, a handler that takes a reply from its channel takes that of its own
command, if no handler of another entry waits at an index when the reply is sent there; and
`reply_own_fails`, without that condition both services can answer a request with the reply of
another one.
-/

namespace DistSys.Notify

/-! ## The model -/

/-- A replicated state machine. `none` stands for an entry on which it panics or does not stop. -/
structure Service (σ C R : Type) where
  init : σ
  apply : σ → C → Option (σ × R)

structure Entry (C : Type) where
  term : ℕ
  command : C
  deriving DecidableEq

/-- Where a handler is. With a reply comes the entry that was applied to produce it. -/
inductive Phase (C R : Type) where
  /-- `Start` has returned, the channel is not looked up yet. -/
  | started
  | waiting (notifyChan : ℕ)
  | answered (entry : Entry C) (reply : R)
  | timedOut
  deriving DecidableEq

def Phase.waits {C R : Type} : Phase C R → Bool
  | .started | .waiting _ => true
  | .answered _ _ | .timedOut => false

/-- A request that has been passed to raft. The handler itself does not keep the term. -/
structure Handler (C R : Type) where
  command : C
  index : ℕ
  term : ℕ
  phase : Phase C R

namespace Handler

variable {C R : Type}

/-- The entry that `Start` has appended for the handler. -/
def entry (h : Handler C R) : Entry C := ⟨h.term, h.command⟩

/-- The handler has not returned. -/
def Waits (h : Handler C R) : Prop := h.phase.waits

instance (h : Handler C R) : Decidable h.Waits := inferInstanceAs (Decidable (_ = true))

end Handler

structure Server (σ C R : Type) where
  state : σ
  log : List (Entry C)
  committed : ℕ
  applied : ℕ
  term : ℕ
  leader : Bool
  /-- The map from indices to channels. -/
  notifyChans : ℕ → Option ℕ
  /-- The index that each channel was made for. -/
  chans : List ℕ
  /-- The content of the channels, each of capacity 1. -/
  buffers : ℕ → Option (Entry C × R)
  handlers : List (Handler C R)
  /-- The reply that the applier is about to send. It holds the lock of the server. -/
  notifying : Option (ℕ × Entry C × R)

inductive Action (C : Type) where
  /-- A request is passed to raft. -/
  | start (command : C)
  /-- The `i`-th handler looks up its channel, takes a reply, times out, or has its channel removed
  from the map. -/
  | getNotifyChan (i : ℕ)
  | receive (i : ℕ)
  | timeout (i : ℕ)
  | removeOutdatedNotifyChan (i : ℕ)
  /-- The applier applies the next entry; it sends the reply. -/
  | apply
  | notify
  /-- Raft: a new term, an election won, entries of another leader, a new commit index. -/
  | newTerm (term : ℕ)
  | elected (term : ℕ)
  | replaceSuffix (keep : ℕ) (entries : List (Entry C))
  | commit (n : ℕ)

variable {σ C R : Type}

def init (svc : Service σ C R) : Server σ C R where
  state := svc.init
  log := []
  committed := 0
  applied := 0
  term := 0
  leader := false
  notifyChans := fun _ => none
  chans := []
  buffers := fun _ => none
  handlers := []
  notifying := none

namespace Server

variable (s : Server σ C R)

/-- The channel of the index, made if there is none. -/
def getNotifyChan (index : ℕ) : Server σ C R × ℕ :=
  match s.notifyChans index with
  | some ch => (s, ch)
  | none =>
    ({ s with
        notifyChans := Function.update s.notifyChans index (some s.chans.length)
        chans := s.chans ++ [index] }, s.chans.length)

def setPhase (i : ℕ) (h : Handler C R) (phase : Phase C R) : Server σ C R :=
  { s with handlers := s.handlers.set i { h with phase := phase } }

end Server

def step (svc : Service σ C R) (s : Server σ C R) : Action C → Option (Server σ C R)
  | .start command =>
    if s.leader then
      some { s with
        log := s.log ++ [⟨s.term, command⟩]
        handlers := s.handlers ++ [⟨command, s.log.length, s.term, .started⟩] }
    else none
  | .getNotifyChan i =>
    s.handlers[i]?.bind fun h =>
      match h.phase, s.notifying with
      | .started, none =>
        let r := s.getNotifyChan h.index
        some (r.1.setPhase i h (.waiting r.2))
      | _, _ => none
  | .receive i =>
    s.handlers[i]?.bind fun h =>
      match h.phase with
      | .waiting ch =>
        (s.buffers ch).map fun r =>
          { s.setPhase i h (.answered r.1 r.2) with buffers := Function.update s.buffers ch none }
      | _ => none
  | .timeout i =>
    s.handlers[i]?.bind fun h =>
      match h.phase with
      | .waiting _ => some (s.setPhase i h .timedOut)
      | _ => none
  | .removeOutdatedNotifyChan i =>
    s.handlers[i]?.bind fun h =>
      if ¬ h.Waits ∧ s.notifying.isNone then
        some { s with notifyChans := Function.update s.notifyChans h.index none }
      else none
  | .apply =>
    if s.notifying.isNone ∧ s.applied < s.committed then
      s.log[s.applied]?.bind fun e =>
        (svc.apply s.state e.command).map fun r =>
          { s with
            state := r.1
            applied := s.applied + 1
            notifying := if s.leader ∧ e.term = s.term then some (s.applied, e, r.2) else none }
    else none
  | .notify =>
    s.notifying.bind fun r =>
      let c := s.getNotifyChan r.1
      -- a full channel blocks the applier
      if (s.buffers c.2).isNone then
        some { c.1 with
          buffers := Function.update s.buffers c.2 (some r.2)
          notifying := none }
      else none
  | .newTerm term => if s.term < term then some { s with term := term, leader := false } else none
  | .elected term => if s.term < term then some { s with term := term, leader := true } else none
  | .replaceSuffix keep entries =>
    if ¬ s.leader ∧ s.committed ≤ keep ∧ keep ≤ s.log.length ∧ ∀ e ∈ entries, e.term ≤ s.term then
      some { s with log := s.log.take keep ++ entries }
    else none
  | .commit n =>
    if s.committed ≤ n ∧ n ≤ s.log.length then some { s with committed := n } else none

/-- Every reply was produced by the command of the handler that took it: the entry that was applied
is the one that its `Start` appended, and it still stands at the index. -/
def RepliesOwn (s : Server σ C R) : Prop :=
  ∀ h ∈ s.handlers, ∀ entry reply, h.phase = .answered entry reply →
    entry = h.entry ∧ s.log[h.index]? = some entry ∧ h.index < s.applied

/-- Every handler that waits at the index waits for the entry. -/
def AwaitedBy (handlers : List (Handler C R)) (index : ℕ) (entry : Entry C) : Prop :=
  ∀ h ∈ handlers, h.Waits → h.index = index → h.entry = entry

instance [DecidableEq C] (handlers : List (Handler C R)) (index : ℕ) (entry : Entry C) :
    Decidable (AwaitedBy handlers index entry) :=
  inferInstanceAs (Decidable (∀ h ∈ handlers, _ → _ → _))

/-- A reply is sent only when no handler of another entry waits at the index: those whose entries
were discarded have returned. -/
def OwnAwaited (s : Server σ C R) : Action C → Prop
  | .notify => ∀ r ∈ s.notifying, AwaitedBy s.handlers r.1 r.2.1
  | _ => True

instance [DecidableEq C] (s : Server σ C R) : DecidablePred (OwnAwaited s)
  | .notify => inferInstanceAs (Decidable (∀ r ∈ s.notifying, AwaitedBy s.handlers r.1 r.2.1))
  | .start _ | .getNotifyChan _ | .receive _ | .timeout _ | .removeOutdatedNotifyChan _ | .apply
  | .newTerm _ | .elected _ | .replaceSuffix _ _ | .commit _ => inferInstanceAs (Decidable True)

/-! ## Handlers -/

section Handlers

variable {handlers handlers' : List (Handler C R)} {h h' : Handler C R} {i index : ℕ}
  {entry : Entry C}

/-- The handlers are the same requests, some of them further on. -/
def Follows (handlers handlers' : List (Handler C R)) : Prop :=
  ∀ h' ∈ handlers', ∃ h ∈ handlers, h'.entry = h.entry ∧ h'.index = h.index ∧ (h'.Waits → h.Waits)

theorem follows_refl (handlers : List (Handler C R)) : Follows handlers handlers :=
  fun h' hmem => ⟨h', hmem, rfl, rfl, id⟩

theorem follows_set (hi : handlers[i]? = some h) (hentry : h'.entry = h.entry)
    (hindex : h'.index = h.index) (hwaits : h'.Waits → h.Waits) :
    Follows handlers (handlers.set i h') := by
  intro h'' hmem
  rcases List.mem_or_eq_of_mem_set hmem with hmem | rfl
  · exact ⟨h'', hmem, rfl, rfl, id⟩
  · exact ⟨h, List.mem_of_getElem? hi, hentry, hindex, hwaits⟩

theorem AwaitedBy.follows (ha : AwaitedBy handlers index entry)
    (hf : Follows handlers handlers') : AwaitedBy handlers' index entry := by
  intro h' hmem hwaits hindex
  obtain ⟨h, hold, he, hi, hw⟩ := hf h' hmem
  rw [he]
  exact ha h hold (hw hwaits) (hi ▸ hindex)

theorem AwaitedBy.concat (ha : AwaitedBy handlers index entry) (hne : h.index ≠ index) :
    AwaitedBy (handlers ++ [h]) index entry := by
  intro h' hmem hwaits hindex
  rcases List.mem_append.1 hmem with hmem | hmem
  · exact ha h' hmem hwaits hindex
  · obtain rfl := List.mem_singleton.1 hmem
    exact absurd hindex hne

end Handlers

/-! ## The invariant -/

variable {svc : Service σ C R} {s s' : Server σ C R} {index : ℕ} {entry : Entry C}

/-- The entry stands in the applied part of the log. -/
structure Applied (s : Server σ C R) (index : ℕ) (entry : Entry C) : Prop where
  lt : index < s.applied
  log : s.log[index]? = some entry

/-- The reply of the entry at the index is one that whoever waits there may take. -/
structure Deliverable (s : Server σ C R) (index : ℕ) (entry : Entry C) : Prop
    extends Applied s index entry where
  awaited : AwaitedBy s.handlers index entry

structure Inv (s : Server σ C R) : Prop where
  applied_le : s.applied ≤ s.committed
  committed_le : s.committed ≤ s.log.length
  notifyChans : ∀ (i ch : ℕ), s.notifyChans i = some ch → s.chans[ch]? = some i
  waiting : ∀ h ∈ s.handlers, ∀ ch, h.phase = .waiting ch → s.chans[ch]? = some h.index
  buffers : ∀ (ch : ℕ) (e : Entry C) (r : R), s.buffers ch = some (e, r) →
    ∃ i, s.chans[ch]? = some i ∧ Deliverable s i e
  notifying : ∀ (i : ℕ) (e : Entry C) (r : R), s.notifying = some (i, e, r) → Applied s i e
  replies : ∀ h ∈ s.handlers, ∀ (e : Entry C) (r : R), h.phase = .answered e r →
    e = h.entry ∧ Applied s h.index e

theorem inv_init (svc : Service σ C R) : Inv (init svc) := by
  constructor <;> simp [init]

/-- What the applied part of the log keeps. -/
theorem Applied.keep (ha : Applied s index entry) (happlied : s.applied ≤ s'.applied)
    (hlog : ∀ i < s.applied, s'.log[i]? = s.log[i]?) : Applied s' index entry :=
  ⟨ha.lt.trans_le happlied, by rw [hlog index ha.lt, ha.log]⟩

/-- Steps of handlers and channels: the log stays, the handlers go on. -/
theorem Inv.handlers (hI : Inv s) (hlog : s'.log = s.log) (hcommitted : s'.committed = s.committed)
    (happlied : s'.applied = s.applied) (hf : Follows s.handlers s'.handlers)
    (hchans : ∀ (i ch : ℕ), s'.notifyChans i = some ch → s'.chans[ch]? = some i)
    (hwaiting : ∀ h ∈ s'.handlers, ∀ ch, h.phase = .waiting ch → s'.chans[ch]? = some h.index)
    (hbuffers : ∀ (ch : ℕ) (e : Entry C) (r : R), s'.buffers ch = some (e, r) →
      ∃ i, s'.chans[ch]? = some i ∧ Deliverable s i e)
    (hnotifying : ∀ (i : ℕ) (e : Entry C) (r : R), s'.notifying = some (i, e, r) → Applied s i e)
    (hreplies : ∀ h ∈ s'.handlers, ∀ (e : Entry C) (r : R), h.phase = .answered e r →
      e = h.entry ∧ Applied s h.index e) : Inv s' := by
  have keep : ∀ {i : ℕ} {e : Entry C}, Applied s i e → Applied s' i e := fun ha =>
    ha.keep happlied.ge fun i _ => by rw [hlog]
  refine ⟨?_, ?_, hchans, hwaiting, fun ch e r hb => ?_, fun i e r hn => keep (hnotifying i e r hn),
    fun h hmem e r ha => (hreplies h hmem e r ha).imp_right keep⟩
  · rw [happlied, hcommitted]
    exact hI.applied_le
  · rw [hcommitted, hlog]
    exact hI.committed_le
  · obtain ⟨i, hi, hd⟩ := hbuffers ch e r hb
    exact ⟨i, hi, keep hd.toApplied, hd.awaited.follows hf⟩

/-- Steps of raft: the handlers and channels stay, and so does the applied part of the log. -/
theorem Inv.raft (hI : Inv s) (log : List (Entry C)) (committed term : ℕ) (leader : Bool)
    (hcommitted : s.committed ≤ committed) (hlength : committed ≤ log.length)
    (hlog : ∀ i < s.applied, log[i]? = s.log[i]?) :
    Inv { s with log := log, committed := committed, term := term, leader := leader } := by
  have keep : ∀ {i : ℕ} {e : Entry C}, Applied s i e →
      Applied { s with log := log, committed := committed, term := term, leader := leader } i e :=
    fun ha => ha.keep le_rfl hlog
  refine ⟨hI.applied_le.trans hcommitted, hlength, hI.notifyChans, hI.waiting, fun ch e r hb => ?_,
    fun i e r hn => keep (hI.notifying i e r hn),
    fun h hmem e r ha => (hI.replies h hmem e r ha).imp_right keep⟩
  obtain ⟨i, hi, hd⟩ := hI.buffers ch e r hb
  exact ⟨i, hi, keep hd.toApplied, hd.awaited⟩

/-! ## The steps -/

theorem getNotifyChan_cases (s : Server σ C R) (index : ℕ) :
    s.notifyChans index = some (s.getNotifyChan index).2 ∧ (s.getNotifyChan index).1 = s ∨
      (s.getNotifyChan index).2 = s.chans.length ∧
        (s.getNotifyChan index).1 = { s with
          notifyChans := Function.update s.notifyChans index (some s.chans.length)
          chans := s.chans ++ [index] } := by
  unfold Server.getNotifyChan
  split
  · rename_i ch hch
    exact .inl ⟨hch, rfl⟩
  · exact .inr ⟨rfl, rfl⟩

/-- Looking up a channel finds or makes one of the index, and changes nothing else. -/
theorem Inv.getNotifyChan (hI : Inv s) (index : ℕ) :
    Inv (s.getNotifyChan index).1 ∧
      (s.getNotifyChan index).1.chans[(s.getNotifyChan index).2]? = some index := by
  rcases getNotifyChan_cases s index with ⟨hch, hs⟩ | ⟨hch, hs⟩
  · rw [hs]
    exact ⟨hI, hI.notifyChans index _ hch⟩
  · have hold : ∀ {ch i : ℕ}, s.chans[ch]? = some i → (s.chans ++ [index])[ch]? = some i := by
      intro ch i hi
      rw [List.getElem?_append_left (List.getElem?_eq_some_iff.1 hi).1, hi]
    rw [hs, hch]
    refine ⟨hI.handlers rfl rfl rfl (follows_refl _) ?_ ?_ ?_ hI.notifying hI.replies, by simp⟩
    · intro i ch hi
      by_cases hii : i = index
      · subst hii
        simp only [Function.update_self, Option.some.injEq] at hi
        subst hi
        simp
      · simp only [Function.update_of_ne hii] at hi
        exact hold (hI.notifyChans i ch hi)
    · exact fun h hmem ch hw => hold (hI.waiting h hmem ch hw)
    · intro ch e r hb
      obtain ⟨i, hi, hd⟩ := hI.buffers ch e r hb
      exact ⟨i, hold hi, hd⟩

@[simp] theorem getNotifyChan_handlers (s : Server σ C R) (index : ℕ) :
    (s.getNotifyChan index).1.handlers = s.handlers := by
  rcases getNotifyChan_cases s index with ⟨-, h⟩ | ⟨-, h⟩ <;> rw [h]

@[simp] theorem getNotifyChan_buffers (s : Server σ C R) (index : ℕ) :
    (s.getNotifyChan index).1.buffers = s.buffers := by
  rcases getNotifyChan_cases s index with ⟨-, h⟩ | ⟨-, h⟩ <;> rw [h]

@[simp] theorem getNotifyChan_notifying (s : Server σ C R) (index : ℕ) :
    (s.getNotifyChan index).1.notifying = s.notifying := by
  rcases getNotifyChan_cases s index with ⟨-, h⟩ | ⟨-, h⟩ <;> rw [h]

section Phases

variable {i ch : ℕ} {h : Handler C R}

/-- A handler that waits goes to another phase. -/
theorem Inv.setPhase (hI : Inv s) (hi : s.handlers[i]? = some h) (hwaits : h.Waits)
    {phase : Phase C R} (hwaiting : ∀ ch, phase = .waiting ch → s.chans[ch]? = some h.index)
    (hreplies : ∀ e r, phase = .answered e r → e = h.entry ∧ Applied s h.index e) :
    Inv (s.setPhase i h phase) := by
  refine hI.handlers rfl rfl rfl (follows_set hi rfl rfl fun _ => hwaits) hI.notifyChans ?_
    hI.buffers hI.notifying ?_
  · intro h' hmem ch hw
    rcases List.mem_or_eq_of_mem_set hmem with hmem | rfl
    · exact hI.waiting h' hmem ch hw
    · exact hwaiting ch hw
  · intro h' hmem e r ha
    rcases List.mem_or_eq_of_mem_set hmem with hmem | rfl
    · exact hI.replies h' hmem e r ha
    · exact hreplies e r ha

theorem Inv.getChan (hI : Inv s) (hi : s.handlers[i]? = some h) (hphase : h.phase = .started) :
    Inv ((s.getNotifyChan h.index).1.setPhase i h (.waiting (s.getNotifyChan h.index).2)) := by
  obtain ⟨hI', hch⟩ := hI.getNotifyChan h.index
  refine hI'.setPhase (by simpa using hi) (by rw [Handler.Waits, hphase]; rfl) ?_ nofun
  rintro ch ⟨⟩
  exact hch

/-- The reply in the channel of a handler is that of its own entry. -/
theorem Inv.receive (hI : Inv s) (hi : s.handlers[i]? = some h) (hphase : h.phase = .waiting ch)
    {r : Entry C × R} (hr : s.buffers ch = some r) :
    Inv { s.setPhase i h (.answered r.1 r.2) with
      buffers := Function.update s.buffers ch none } := by
  have hwaits : h.Waits := by rw [Handler.Waits, hphase]; rfl
  obtain ⟨index, hindex, hd⟩ := hI.buffers ch r.1 r.2 hr
  have hmem := List.mem_of_getElem? hi
  rw [hI.waiting h hmem ch hphase, Option.some.injEq] at hindex
  subst hindex
  have hset : Inv (s.setPhase i h (.answered r.1 r.2)) := by
    refine hI.setPhase hi hwaits nofun ?_
    rintro e r ⟨⟩
    exact ⟨(hd.awaited h hmem hwaits rfl).symm, hd.toApplied⟩
  refine hset.handlers rfl rfl rfl (follows_refl _) hset.notifyChans hset.waiting ?_
    hset.notifying hset.replies
  intro ch' e r hb
  by_cases hch : ch' = ch
  · simp [hch] at hb
  · simp only [Function.update_of_ne hch] at hb
    exact hset.buffers ch' e r hb

theorem Inv.remove (hI : Inv s) (index : ℕ) :
    Inv { s with notifyChans := Function.update s.notifyChans index none } := by
  refine hI.handlers rfl rfl rfl (follows_refl _) ?_ hI.waiting hI.buffers hI.notifying hI.replies
  intro i ch hi
  by_cases hii : i = index
  · simp [hii] at hi
  · simp only [Function.update_of_ne hii] at hi
    exact hI.notifyChans i ch hi

end Phases

/-- The applier sends the reply to the channel of the index, where only handlers of the entry
wait. -/
theorem Inv.notify (hI : Inv s) {r : ℕ × Entry C × R} (hr : s.notifying = some r)
    (hown : AwaitedBy s.handlers r.1 r.2.1) :
    Inv { (s.getNotifyChan r.1).1 with
      buffers := Function.update s.buffers (s.getNotifyChan r.1).2 (some r.2)
      notifying := none } := by
  obtain ⟨hI', hch⟩ := hI.getNotifyChan r.1
  refine hI'.handlers rfl rfl rfl (follows_refl _) hI'.notifyChans hI'.waiting ?_ nofun hI'.replies
  intro ch e reply hb
  by_cases hc : ch = (s.getNotifyChan r.1).2
  · subst hc
    simp only [Function.update_self, Option.some.injEq] at hb
    refine ⟨r.1, hch, hI'.notifying r.1 e reply ?_, ?_⟩
    · rw [getNotifyChan_notifying, hr, ← hb]
    · rw [hb] at hown
      rwa [getNotifyChan_handlers]
  · simp only [Function.update_of_ne hc] at hb
    exact hI'.buffers ch e reply (by rwa [getNotifyChan_buffers])

theorem Inv.apply (hI : Inv s) (hlt : s.applied < s.committed)
    (he : s.log[s.applied]? = some entry) (state : σ) (reply : R) :
    Inv { s with
      state := state
      applied := s.applied + 1
      notifying :=
        if s.leader ∧ entry.term = s.term then some (s.applied, entry, reply) else none } := by
  have keep : ∀ {i : ℕ} {e : Entry C} {n : Option (ℕ × Entry C × R)}, Applied s i e →
      Applied { s with state := state, applied := s.applied + 1, notifying := n } i e :=
    fun ha => ha.keep (Nat.le_succ _) fun _ _ => rfl
  refine ⟨hlt, hI.committed_le, hI.notifyChans, hI.waiting, fun ch e r hb => ?_, fun i e r hn => ?_,
    fun h hmem e r ha => (hI.replies h hmem e r ha).imp_right keep⟩
  · obtain ⟨i, hi, hd⟩ := hI.buffers ch e r hb
    exact ⟨i, hi, keep hd.toApplied, hd.awaited⟩
  · simp only at hn
    split at hn
    · cases hn
      exact ⟨Nat.lt_succ_self _, he⟩
    · cases hn

/-- The index that `Start` hands out is not applied yet. -/
theorem Inv.start (hI : Inv s) (command : C) :
    Inv { s with
      log := s.log ++ [⟨s.term, command⟩]
      handlers := s.handlers ++ [⟨command, s.log.length, s.term, .started⟩] } := by
  have hle := hI.applied_le.trans hI.committed_le
  have keep : ∀ {i : ℕ} {e : Entry C}, Applied s i e → Applied { s with
      log := s.log ++ [⟨s.term, command⟩]
      handlers := s.handlers ++ [⟨command, s.log.length, s.term, .started⟩] } i e := fun ha =>
    ha.keep le_rfl fun i hi => List.getElem?_append_left (by omega)
  refine ⟨hI.applied_le, ?_, hI.notifyChans, ?_, ?_, fun i e r hn => keep (hI.notifying i e r hn), ?_⟩
  · simp only [List.length_append, List.length_singleton]
    exact hI.committed_le.trans (Nat.le_succ _)
  · intro h hmem ch hw
    rcases List.mem_append.1 hmem with hmem | hmem
    · exact hI.waiting h hmem ch hw
    · obtain rfl := List.mem_singleton.1 hmem
      cases hw
  · intro ch e r hb
    obtain ⟨i, hi, hd⟩ := hI.buffers ch e r hb
    have hlt := hd.lt
    exact ⟨i, hi, keep hd.toApplied, hd.awaited.concat (by dsimp only; omega)⟩
  · intro h hmem e r ha
    rcases List.mem_append.1 hmem with hmem | hmem
    · exact (hI.replies h hmem e r ha).imp_right keep
    · obtain rfl := List.mem_singleton.1 hmem
      cases ha

/-! ## Replies and requests -/

theorem step_inv (hI : Inv s) {a : Action C} (hown : OwnAwaited s a)
    (hstep : step svc s a = some s') : Inv s' := by
  cases a with
  | start command =>
    simp only [step] at hstep
    split at hstep
    · cases hstep
      exact hI.start command
    · cases hstep
  | getNotifyChan i =>
    obtain ⟨h, hi, hstep⟩ := Option.bind_eq_some_iff.1 hstep
    split at hstep
    · rename_i hphase _
      cases hstep
      exact hI.getChan hi hphase
    · cases hstep
  | receive i =>
    obtain ⟨h, hi, hstep⟩ := Option.bind_eq_some_iff.1 hstep
    split at hstep
    · rename_i ch hphase
      obtain ⟨r, hr, rfl⟩ := Option.map_eq_some_iff.1 hstep
      exact hI.receive hi hphase hr
    · cases hstep
  | timeout i =>
    obtain ⟨h, hi, hstep⟩ := Option.bind_eq_some_iff.1 hstep
    split at hstep
    · rename_i ch hphase
      cases hstep
      exact hI.setPhase hi (by rw [Handler.Waits, hphase]; rfl) nofun nofun
    · cases hstep
  | removeOutdatedNotifyChan i =>
    obtain ⟨h, hi, hstep⟩ := Option.bind_eq_some_iff.1 hstep
    split at hstep
    · cases hstep
      exact hI.remove h.index
    · cases hstep
  | apply =>
    simp only [step] at hstep
    split at hstep
    · rename_i hlt
      obtain ⟨e, he, hstep⟩ := Option.bind_eq_some_iff.1 hstep
      obtain ⟨r, -, rfl⟩ := Option.map_eq_some_iff.1 hstep
      exact hI.apply hlt.2 he r.1 r.2
    · cases hstep
  | notify =>
    obtain ⟨r, hr, hstep⟩ := Option.bind_eq_some_iff.1 hstep
    simp only at hstep
    split at hstep
    · cases hstep
      exact hI.notify hr (hown r hr)
    · cases hstep
  | newTerm term =>
    simp only [step] at hstep
    split at hstep
    · cases hstep
      exact hI.raft s.log s.committed term false le_rfl hI.committed_le fun _ _ => rfl
    · cases hstep
  | elected term =>
    simp only [step] at hstep
    split at hstep
    · cases hstep
      exact hI.raft s.log s.committed term true le_rfl hI.committed_le fun _ _ => rfl
    · cases hstep
  | replaceSuffix keep entries =>
    simp only [step] at hstep
    split at hstep
    · rename_i hcond
      obtain ⟨-, hkeep, hle, -⟩ := hcond
      cases hstep
      have happlied := hI.applied_le
      refine hI.raft (s.log.take keep ++ entries) s.committed s.term s.leader le_rfl ?_ ?_
      · rw [List.length_append, List.length_take]
        omega
      · intro i hi
        rw [List.getElem?_append_left (by rw [List.length_take]; omega),
          List.getElem?_take_of_lt (by omega)]
    · cases hstep
  | commit n =>
    simp only [step] at hstep
    split at hstep
    · rename_i hcond
      cases hstep
      exact hI.raft s.log n s.term s.leader hcond.1 hcond.2 fun _ _ => rfl
    · cases hstep

/-- **A reply belongs to the request.** In every run in which no reply is sent while a handler of
another entry still waits at its index, whoever takes a reply from its channel takes that of the
very entry that its own `Start` appended, and this entry has been applied. -/
theorem reply_own (svc : Service σ C R) {as : List (Action C)} {s : Server σ C R}
    (hcond : Along (step svc) OwnAwaited (init svc) as)
    (hrun : run (step svc) (init svc) as = some s) : RepliesOwn s := by
  have hI : Inv s := run_induction (fun _ _ _ hI hC hstep => step_inv hI hC hstep) hcond hrun
    (inv_init svc)
  intro h hmem entry reply hphase
  obtain ⟨heq, happlied⟩ := hI.replies h hmem entry reply hphase
  exact ⟨heq, happlied.log, happlied.lt⟩

/-! ## The two services -/

/-- The service behind `ShardKV.Execute`, for the group `gid`. -/
def shardKV (gid : ℤ) : Service ShardKV ShardKV.Command ShardKV.CommandReply :=
  ⟨ShardKV.new gid, fun kv command => some (kv.apply command)⟩

/-- The service behind `ShardCtrler.Command`. -/
def shardCtrler (order : ShardCtrler.RangeOrder) (fuel : ℕ) :
    Service ShardCtrler ShardCtrler.CommandArgs ShardCtrler.CommandReply :=
  ⟨ShardCtrler.new, ShardCtrler.applyCommand order fuel⟩

/-- The server loses its leadership and its two entries, of which another leader replaces the first.
It leads again and hands out the index of the second entry once more. What the handlers do before
and after the reply is sent is `before` and `after`. -/
def reusedIndexRun (first old new : C) (before after : List (Action C)) : List (Action C) :=
  ([.elected 1, .start first, .start old, .getNotifyChan 0, .getNotifyChan 1, .newTerm 2,
    .replaceSuffix 0 [⟨2, first⟩], .elected 3, .start new, .getNotifyChan 2, .commit 2, .apply,
    .apply] : List (Action C)) ++ before ++ .notify :: after

/-- A group that serves all shards, and writes of two clients. -/
def shardKVRun : List (Action ShardKV.Command) → List (Action ShardKV.Command) →
    List (Action ShardKV.Command) :=
  reusedIndexRun (.configuration ⟨1, fun _ => 1, ∅⟩) (.operation ⟨[0], [7], .put, 1, 0⟩)
    (.operation ⟨[0], [8], .put, 2, 0⟩)

/-- A query and two moves, of different clients. -/
def shardCtrlerRun : List (Action ShardCtrler.CommandArgs) → List (Action ShardCtrler.CommandArgs) →
    List (Action ShardCtrler.CommandArgs) :=
  reusedIndexRun ⟨.query 0, 3, 0⟩ ⟨.move 0 1, 1, 0⟩ ⟨.move 0 2, 2, 0⟩

/-- The old handlers still wait when the index is handed out again, and have timed out when the
reply is sent. -/
theorem reply_own_shardCtrlerRun :
    ∃ s, run (step (shardCtrler .ascending 20)) (init (shardCtrler .ascending 20))
        (shardCtrlerRun [.timeout 0, .timeout 1] [.receive 2]) = some s ∧
      (s.handlers.map fun h => h.phase.waits) = [false, false, false] ∧ RepliesOwn s := by
  have h : ∃ s, run (step (shardCtrler .ascending 20)) (init (shardCtrler .ascending 20))
        (shardCtrlerRun [.timeout 0, .timeout 1] [.receive 2]) = some s ∧
      (s.handlers.map fun h => h.phase.waits) = [false, false, false] := by
    decide +kernel
  obtain ⟨s, hs, hphases⟩ := h
  exact ⟨s, hs, hphases, reply_own (shardCtrler .ascending 20) (by decide +kernel) hs⟩

/-- The client whose command was applied to produce the reply, and the reply. -/
def Phase.answer (client : C → Option ℤ) : Phase C R → Option (Option ℤ × R)
  | .answered entry reply => some (client entry.command, reply)
  | .started | .waiting _ | .timedOut => none

theorem not_repliesOwn (client : C → Option ℤ) {i : ℕ} {c c' : Option ℤ} {reply : R}
    (h : s.handlers[i]?.map (fun h => (client h.command, h.phase.answer client)) =
      some (c, some (c', reply))) (hne : c ≠ c') : ¬ RepliesOwn s := by
  intro hown
  obtain ⟨h, hi, hanswer⟩ := Option.map_eq_some_iff.1 h
  obtain ⟨hc, hanswer⟩ := Prod.mk.inj hanswer
  rcases hphase : h.phase with _ | _ | ⟨entry, r⟩ | _ <;> rw [hphase] at hanswer
  case answered =>
    obtain ⟨rfl, -⟩ := hown h (List.mem_of_getElem? hi) entry r hphase
    obtain ⟨hc', -⟩ := Prod.mk.inj (Option.some.inj hanswer)
    exact hne (hc.symm.trans hc')
  all_goals cases hanswer

def clientOf : ShardKV.Command → Option ℤ
  | .operation args => some args.clientId
  | .configuration _ | .insertShards _ | .deleteShards _ | .emptyShards => none

/-- Without the condition a handler that is still waiting when its index is handed out again can
take the reply meant for the new request: in both services client 1 is told `OK` for the command of
client 2, and its own command is not even in the log any more. -/
theorem reply_own_fails :
    (∃ s, run (step (shardKV 1)) (init (shardKV 1)) (shardKVRun [] [.receive 1]) = some s ∧
      s.handlers[1]?.map (fun h => (clientOf h.command, h.phase.answer clientOf)) =
        some (some 1, some (some 2, ⟨.ok, []⟩)) ∧
      (s.log.map fun e => clientOf e.command) = [none, some 2] ∧ ¬ RepliesOwn s) ∧
    ∃ s, run (step (shardCtrler .ascending 20)) (init (shardCtrler .ascending 20))
        (shardCtrlerRun [] [.receive 1]) = some s ∧
      s.handlers[1]?.map (fun h => (some h.command.clientId,
        h.phase.answer fun command => some command.clientId)) =
        some (some 1, some (some 2, ⟨.ok, ShardCtrler.defaultConfig⟩)) ∧
      (s.log.map fun e => e.command.clientId) = [3, 2] ∧ ¬ RepliesOwn s := by
  constructor
  · have h : ∃ s, run (step (shardKV 1)) (init (shardKV 1)) (shardKVRun [] [.receive 1]) = some s ∧
        s.handlers[1]?.map (fun h => (clientOf h.command, h.phase.answer clientOf)) =
          some (some 1, some (some 2, ⟨.ok, []⟩)) ∧
        (s.log.map fun e => clientOf e.command) = [none, some 2] := by
      decide +kernel
    obtain ⟨s, hs, hanswer, hlog⟩ := h
    exact ⟨s, hs, hanswer, hlog, not_repliesOwn clientOf hanswer (by decide)⟩
  · have h : ∃ s, run (step (shardCtrler .ascending 20)) (init (shardCtrler .ascending 20))
          (shardCtrlerRun [] [.receive 1]) = some s ∧
        s.handlers[1]?.map (fun h => (some h.command.clientId,
          h.phase.answer fun command => some command.clientId)) =
          some (some 1, some (some 2, ⟨.ok, ShardCtrler.defaultConfig⟩)) ∧
        (s.log.map fun e => e.command.clientId) = [3, 2] := by
      decide +kernel
    obtain ⟨s, hs, hanswer, hlog⟩ := h
    exact ⟨s, hs, hanswer, hlog,
      not_repliesOwn (fun command => some command.clientId) hanswer (by decide)⟩

end DistSys.Notify
