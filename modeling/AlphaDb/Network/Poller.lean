import Mathlib.Tactic
import Mathlib.Data.Finset.Basic

/-! The channels of a poller and one round of its loop, with callbacks that change channels and
close them (`network/channel`, `kqueue_poller` in `network/poller`). What the kernel has of a
channel is left out: the events that it returns are arbitrary. -/
namespace AlphaDb.Network

/-- `EVFILT_READ` and `EVFILT_WRITE`, which are numbers and not bits, as a `short`. -/
def readEvent : BitVec 16 := -1

def writeEvent : BitVec 16 := -2

structure Channel where
  fd : ℤ
  events : BitVec 16
  deriving DecidableEq

namespace Channel

variable {c : Channel}

def enable (c : Channel) (event : BitVec 16) (on : Bool) : Channel :=
  { c with events := if on then c.events ||| event else c.events &&& ~~~event }

def enableRead (c : Channel) (on : Bool) : Channel := c.enable readEvent on

def enableWrite (c : Channel) (on : Bool) : Channel := c.enable writeEvent on

def readEnabled (c : Channel) : Bool := c.events &&& readEvent != 0

def writeEnabled (c : Channel) : Bool := c.events &&& writeEvent != 0

/-- The two masks have bits in common: whoever may write may read. -/
theorem readEnabled_of_writeEnabled (h : c.writeEnabled = true) : c.readEnabled = true := by
  have hread : c.events &&& readEvent = c.events := BitVec.and_allOnes
  rw [readEnabled, hread, bne_iff_ne]
  rw [writeEnabled, bne_iff_ne] at h
  intro hzero
  apply h
  rw [hzero]
  exact BitVec.zero_and

end Channel

/-- An event of `kevent`: its `udata` points to a channel, or is null. -/
structure Kevent where
  udata : Option ℕ
  eof : Bool
  deriving DecidableEq

/-- The channels by their addresses. -/
structure Poller where
  channel : ℕ → Channel
  channels : Finset ℕ
  events : List Kevent
  lastActive : ℕ

/-- What a callback can do to a channel. -/
inductive ChannelCall
  | enableRead (c : ℕ) (on : Bool)
  | enableWrite (c : ℕ) (on : Bool)
  | close (c : ℕ)
  deriving DecidableEq

/-- A call of `handle_read` or `handle_write`: for the event at `index`, of a channel with this
descriptor at that time. -/
structure Dispatch where
  index : ℕ
  channel : ℕ
  write : Bool
  fd : ℤ
  deriving DecidableEq

namespace Poller

/-- The channel of the event at an index, if it has one. -/
def udataAt (l : List Kevent) (j : ℕ) : Option ℕ := l[j]?.bind Kevent.udata

def nullAt (j : ℕ) (l : List Kevent) : List Kevent := l.modify j fun e => { e with udata := none }

/-- The loop of `remove_channel`: of the events `0, .., i` the last one of the channel gets a null
pointer. -/
def removeEvent (c : ℕ) : ℕ → List Kevent → List Kevent
  | 0, l => if udataAt l 0 = some c then nullAt 0 l else l
  | i + 1, l => if udataAt l (i + 1) = some c then nullAt (i + 1) l else removeEvent c i l

def removeChannel (p : Poller) (c : ℕ) : Poller :=
  { p with channels := p.channels.erase c, events := removeEvent c p.lastActive p.events }

/-- `channel::close`: once closed, the descriptor is -1. -/
def close (p : Poller) (c : ℕ) : Poller :=
  if 0 ≤ (p.channel c).fd then
    { p.removeChannel c with
      channel := Function.update p.channel c { p.channel c with fd := -1 } }
  else p

def call (p : Poller) : ChannelCall → Poller
  | .enableRead c on =>
    { p with channel := Function.update p.channel c ((p.channel c).enableRead on) }
  | .enableWrite c on =>
    { p with channel := Function.update p.channel c ((p.channel c).enableWrite on) }
  | .close c => p.close c

variable (read write : ℕ → Poller → List ChannelCall)

/-- The body of the loop in `loop_once`, for the event at index `i`. The callbacks of a channel make
the calls `read` or `write`, which depend on the state that they find. -/
def dispatch (i : ℕ) (p : Poller) : Poller × List Dispatch :=
  let q : Poller := { p with lastActive := i }
  match q.events[i]? with
  | some ⟨some c, eof⟩ =>
    if eof || (q.channel c).readEnabled then
      ((read c q).foldl call q, [⟨i, c, false, (q.channel c).fd⟩])
    else if !eof && (q.channel c).writeEnabled then
      ((write c q).foldl call q, [⟨i, c, true, (q.channel c).fd⟩])
    else (q, [])
  | _ => (q, [])

/-- The events below `n`, the last one first. -/
def dispatches : ℕ → Poller → Poller × List Dispatch
  | 0, p => (p, [])
  | n + 1, p =>
    let r := dispatch read write n p
    let r' := dispatches n r.1
    (r'.1, r.2 ++ r'.2)

def loopOnce (batch : List Kevent) (p : Poller) : Poller × List Dispatch :=
  dispatches read write batch.length { p with events := batch }

variable {p start : Poller} {batch l : List Kevent} {a : ChannelCall} {c d i j n : ℕ}

theorem udataAt_nullAt : udataAt (nullAt i l) j = if j = i then none else udataAt l j := by
  unfold udataAt nullAt
  rw [List.getElem?_modify]
  by_cases hij : i = j
  · subst hij
    cases l[i]? <;> simp
  · rw [if_neg (fun h => hij h.symm)]
    cases l[j]? <;> simp [hij]

/-- `remove_channel` finds no event, or takes out one. -/
theorem removeEvent_cases : (removeEvent c i l = l ∧ ∀ j ≤ i, udataAt l j ≠ some c) ∨
    ∃ j ≤ i, udataAt l j = some c ∧ removeEvent c i l = nullAt j l := by
  induction i with
  | zero =>
    by_cases h : udataAt l 0 = some c
    · exact .inr ⟨0, le_rfl, h, if_pos h⟩
    · refine .inl ⟨if_neg h, ?_⟩
      intro j hj
      obtain rfl := Nat.le_zero.mp hj
      exact h
  | succ i ih =>
    by_cases h : udataAt l (i + 1) = some c
    · exact .inr ⟨i + 1, le_rfl, h, if_pos h⟩
    · have hrec : removeEvent c (i + 1) l = removeEvent c i l := if_neg h
      rw [hrec]
      obtain ⟨heq, hnone⟩ | ⟨j, hj, hc, heq⟩ := ih
      · refine .inl ⟨heq, ?_⟩
        intro j hj
        rcases Nat.le_succ_iff.mp hj with hj | rfl
        · exact hnone j hj
        · exact h
      · exact .inr ⟨j, hj.trans (Nat.le_succ i), hc, heq⟩

theorem udataAt_of_removeEvent (h : udataAt (removeEvent c i l) j = some d) :
    udataAt l j = some d := by
  obtain ⟨heq, -⟩ | ⟨j', -, -, heq⟩ := removeEvent_cases (c := c) (i := i) (l := l)
  · rwa [heq] at h
  · rw [heq, udataAt_nullAt] at h
    split at h
    · cases h
    · exact h

/-- Two events of the batch are of the channel. -/
def Twice (batch : List Kevent) (c : ℕ) : Prop :=
  ∃ j j', j ≠ j' ∧ udataAt batch j = some c ∧ udataAt batch j' = some c

/-- In the middle of a batch, with the events below `n` to come: none of them is of a channel that
has been closed, unless the batch has two events of it. -/
structure Tracks (start : Poller) (batch : List Kevent) (n : ℕ) (p : Poller) : Prop where
  events : ∀ j d, udataAt p.events j = some d → udataAt batch j = some d
  closed : ∀ c, (p.channel c).fd < 0 →
    (start.channel c).fd < 0 ∨ Twice batch c ∨ ∀ j < n, udataAt p.events j ≠ some c

theorem Tracks.close (h : Tracks start batch n p) (hn : n ≤ p.lastActive + 1) :
    Tracks start batch n (p.close c) := by
  unfold Poller.close
  split
  swap
  · exact h
  refine ⟨fun j d hd => h.events j d (udataAt_of_removeEvent hd), ?_⟩
  intro c' hfd
  by_cases hc : c' = c
  · subst hc
    right
    by_cases htwice : Twice batch c'
    · exact .inl htwice
    · -- with one event at most, what is left of it has been taken out
      refine .inr fun j hj hevent => htwice ?_
      have hj' := udataAt_of_removeEvent hevent
      obtain ⟨-, hnone⟩ | ⟨j₀, -, hj₀, heq⟩ :=
        removeEvent_cases (c := c') (i := p.lastActive) (l := p.events)
      · exact absurd hj' (hnone j (by omega))
      · refine ⟨j, j₀, ?_, h.events j c' hj', h.events j₀ c' hj₀⟩
        rintro rfl
        simp only [removeChannel, heq, udataAt_nullAt, if_pos] at hevent
        cases hevent
  · dsimp only at hfd
    rw [Function.update_of_ne hc] at hfd
    refine (h.closed c' hfd).imp_right (Or.imp_right fun hnone j hj hevent => ?_)
    exact hnone j hj (udataAt_of_removeEvent hevent)

theorem Tracks.enable {event : BitVec 16} {on : Bool} (h : Tracks start batch n p) :
    Tracks start batch n
      { p with channel := Function.update p.channel c ((p.channel c).enable event on) } := by
  refine ⟨h.events, ?_⟩
  intro c' hfd
  by_cases hc : c' = c
  · subst hc
    dsimp only at hfd
    rw [Function.update_self] at hfd
    exact h.closed c' hfd
  · dsimp only at hfd
    rw [Function.update_of_ne hc] at hfd
    exact h.closed c' hfd

theorem call_lastActive : (p.call a).lastActive = p.lastActive := by
  cases a with
  | enableRead c on => rfl
  | enableWrite c on => rfl
  | close c =>
    simp only [call, close]
    split <;> rfl

/-- Whatever a callback calls. -/
theorem Tracks.calls {calls : List ChannelCall} (h : Tracks start batch n p)
    (hn : n ≤ p.lastActive + 1) : Tracks start batch n (calls.foldl call p) := by
  induction calls generalizing p with
  | nil => exact h
  | cons a calls ih =>
    refine ih ?_ (by rw [call_lastActive]; exact hn)
    cases a with
    | enableRead c on => exact h.enable
    | enableWrite c on => exact h.enable
    | close c => exact h.close hn

theorem Tracks.below (h : Tracks start batch (n + 1) p) : Tracks start batch n p :=
  ⟨h.events, fun c hfd => (h.closed c hfd).imp_right
    (Or.imp_right fun hnone j hj => hnone j (hj.trans (Nat.lt_succ_self n)))⟩

/-- What is right about a call of a handler in the batch. -/
structure Right (start : Poller) (batch : List Kevent) (d : Dispatch) : Prop where
  write : d.write = false
  event : udataAt batch d.index = some d.channel
  closed : d.fd < 0 → (start.channel d.channel).fd < 0 ∨ Twice batch d.channel

theorem dispatch_tracks (h : Tracks start batch (i + 1) p) :
    Tracks start batch i (dispatch read write i p).1 ∧
      (dispatch read write i p).2.length ≤ 1 ∧
      ∀ d ∈ (dispatch read write i p).2, d.index = i ∧ Right start batch d := by
  have hq : Tracks start batch (i + 1) { p with lastActive := i } := ⟨h.events, h.closed⟩
  unfold dispatch
  dsimp only
  split
  swap
  · exact ⟨hq.below, by simp, by simp⟩
  · next c eof hevent =>
    have hudata : udataAt p.events i = some c := by simp [udataAt, hevent]
    split
    · refine ⟨(hq.calls le_rfl).below, le_rfl, ?_⟩
      intro d hd
      obtain rfl := List.mem_singleton.mp hd
      refine ⟨rfl, rfl, h.events i c hudata, fun hfd => ?_⟩
      exact (h.closed c hfd).imp_right fun hc =>
        hc.resolve_right fun hnone => hnone i (Nat.lt_succ_self i) hudata
    · next hread =>
      split
      · next hwrite =>
        simp only [Bool.and_eq_true, Bool.or_eq_true, not_or] at hread hwrite
        exact absurd (Channel.readEnabled_of_writeEnabled hwrite.2) hread.2
      · exact ⟨hq.below, by simp, by simp⟩

theorem dispatches_tracks (h : Tracks start batch n p) :
    ((dispatches read write n p).2.map Dispatch.index).Pairwise (· > ·) ∧
      ∀ d ∈ (dispatches read write n p).2, d.index < n ∧ Right start batch d := by
  induction n generalizing p with
  | zero => exact ⟨.nil, by simp [dispatches]⟩
  | succ n ih =>
    obtain ⟨htracks, hone, hfirst⟩ := dispatch_tracks read write h
    obtain ⟨horder, hrest⟩ := ih htracks
    have hmem : ∀ d ∈ (dispatches read write (n + 1) p).2,
        d ∈ (dispatch read write n p).2 ∨
          d ∈ (dispatches read write n (dispatch read write n p).1).2 :=
      fun d hd => List.mem_append.mp hd
    constructor
    · change (((dispatch read write n p).2 ++ _).map Dispatch.index).Pairwise _
      rw [List.map_append]
      refine List.pairwise_append.mpr ⟨?_, horder, ?_⟩
      · match (dispatch read write n p).2, hone with
        | [], _ => exact .nil
        | [d], _ => exact List.pairwise_singleton _ _
      · intro i hi j hj
        obtain ⟨d, hd, rfl⟩ := List.mem_map.mp hi
        obtain ⟨e, he, rfl⟩ := List.mem_map.mp hj
        rw [(hfirst d hd).1]
        exact (hrest e he).1
    · intro d hd
      rcases hmem d hd with hd | hd
      · obtain ⟨rfl, hright⟩ := hfirst d hd
        exact ⟨Nat.lt_succ_self _, hright⟩
      · obtain ⟨hlt, hright⟩ := hrest d hd
        exact ⟨hlt.trans (Nat.lt_succ_self n), hright⟩

/-- One round of the loop, whatever the callbacks do: each event is handled at most once, the last
one first; only `handle_read` is ever called; and a channel that has been closed in the round is
called only if the round has two events of it. -/
theorem loopOnce_right (batch : List Kevent) (p : Poller) :
    ((loopOnce read write batch p).2.map Dispatch.index).Pairwise (· > ·) ∧
      ∀ d ∈ (loopOnce read write batch p).2, Right p batch d := by
  have h : Tracks p batch batch.length { p with events := batch } :=
    ⟨fun _ _ hd => hd, fun _ hfd => .inl hfd⟩
  obtain ⟨horder, hright⟩ := dispatches_tracks read write h
  exact ⟨horder, fun d hd => (hright d hd).2⟩

/-- A connection that is readable and writable comes with two events: it is closed by the callback
for one, and called for the other. -/
example : ((loopOnce (fun c _ => [.close c]) (fun _ _ => []) [⟨some 0, false⟩, ⟨some 0, false⟩]
    ⟨fun _ => ⟨5, -1⟩, ∅, [], 0⟩).2.map fun d => (d.index, d.fd)) = [(1, 5), (0, -1)] := by
  decide

end Poller

end AlphaDb.Network
