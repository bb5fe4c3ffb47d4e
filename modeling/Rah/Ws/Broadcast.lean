import Mathlib.Data.List.AList
import Rah.Lib.Run

/-!
# Channels of WebSocket sessions

A session keeps the set of its channels, and the steps `ws_subscribe` and `ws_unsubscribe` change
that set. `BroadcastChannel` asks the `SubscriptionIndex`, from channels to sessions, which a
disconnect cleans up and nothing fills: its `Subscribe` has no caller. The 16 shards of both maps
are chosen by the key alone, so each is one map here.
-/

namespace Rah.Ws

open Rah.Lib

/-- From channels to the sessions subscribed to them. -/
abbrev SubscriptionIndex := AList (fun _ : String => List String)

/-- Takes the session off the channel; a channel without sessions leaves the map. -/
def SubscriptionIndex.unsubscribe (idx : SubscriptionIndex) (channel sessionID : String) :
    SubscriptionIndex :=
  match idx.lookup channel with
  | none => idx
  | some set =>
    if set.erase sessionID = [] then idx.erase channel
    else idx.insert channel (set.erase sessionID)

/-- Takes a session off the channels it lists, at the end of its connection. -/
def SubscriptionIndex.removeSession (idx : SubscriptionIndex) (sessionID : String)
    (channels : List String) : SubscriptionIndex :=
  channels.foldl (fun idx ch => idx.unsubscribe ch sessionID) idx

/-- A connected session with the set of its channels. -/
structure WSSession where
  subscriptions : List String
  deriving DecidableEq, Repr

def WSSession.subscribe (s : WSSession) (channel : String) : WSSession :=
  ⟨s.subscriptions.insert channel⟩

def WSSession.unsubscribe (s : WSSession) (channel : String) : WSSession :=
  ⟨s.subscriptions.filter (· ≠ channel)⟩

/-- The handler: its sessions by id, and the index that broadcasts ask. -/
structure WS where
  sessions : AList (fun _ : String => WSSession)
  subscriptions : SubscriptionIndex

/-- `New`. -/
def WS.new : WS := ⟨∅, ∅⟩

/-- The sessions on which `BroadcastChannel` calls `WSSend`, in order. -/
def WS.broadcastChannel (w : WS) (channel : String) : List String :=
  ((w.subscriptions.lookup channel).getD []).filter fun sid => (w.sessions.lookup sid).isSome

/-- What happens to the sessions of a handler. -/
inductive Event where
  | connect (id : String)
  | disconnect (id : String)
  | wsSubscribe (id channel : String)
  | wsUnsubscribe (id channel : String)
  deriving DecidableEq, Repr

/-- An event: `Upgrade` makes a session under a new id and removes it at its end; the two steps are
executed by connected sessions. -/
def WS.step (w : WS) : Event → Option WS
  | .connect id =>
    if (w.sessions.lookup id).isNone then some { w with sessions := w.sessions.insert id ⟨[]⟩ }
    else none
  | .disconnect id => (w.sessions.lookup id).map fun s =>
    ⟨w.sessions.erase id, w.subscriptions.removeSession id s.subscriptions⟩
  | .wsSubscribe id channel => (w.sessions.lookup id).map fun s =>
    { w with sessions := w.sessions.insert id (s.subscribe channel) }
  | .wsUnsubscribe id channel => (w.sessions.lookup id).map fun s =>
    { w with sessions := w.sessions.insert id (s.unsubscribe channel) }

def WS.run (w : WS) (events : List Event) : Option WS :=
  events.foldlM WS.step w

/-- Whether the session is connected and its last action for the channel was a subscribe, after an
event. -/
def wants (id channel : String) (before : Bool) : Event → Bool
  | .connect i | .disconnect i => before && i ≠ id
  | .wsSubscribe i ch => before || (i = id && ch = channel)
  | .wsUnsubscribe i ch => before && !(i = id && ch = channel)

/-- The same after a history. -/
def subscribed (events : List Event) (id channel : String) : Bool :=
  events.foldl (wants id channel) false

/-- `BroadcastChannel` calls `WSSend` once on every subscribed session and on no other. -/
def Reaches (events : List Event) (w : WS) (channel : String) : Prop :=
  ∀ id, (w.broadcastChannel channel).count id = if subscribed events id channel then 1 else 0

variable {w w' : WS}

theorem removeSession_empty (id : String) : ∀ channels,
    SubscriptionIndex.removeSession ∅ id channels = ∅
  | [] => rfl
  | _ :: channels => removeSession_empty id channels

/-- No event puts a session into the index. -/
theorem WS.step_subscriptions (hs : w.step e = some w') (h : w.subscriptions = ∅) :
    w'.subscriptions = ∅ := by
  cases e with
  | connect id =>
    obtain ⟨-, ⟨⟩⟩ := Option.ite_none_right_eq_some.mp hs
    exact h
  | disconnect id =>
    obtain ⟨s, -, rfl⟩ := Option.map_eq_some_iff.mp hs
    exact h ▸ removeSession_empty id s.subscriptions
  | wsSubscribe id channel | wsUnsubscribe id channel =>
    obtain ⟨s, -, rfl⟩ := Option.map_eq_some_iff.mp hs
    exact h

/-- After every history the index is empty, and a broadcast reaches nobody. -/
theorem WS.broadcastChannel_run (hr : WS.new.run events = some w) (channel : String) :
    w.broadcastChannel channel = [] := by
  have he : w.subscriptions = ∅ :=
    (GoodRun.of_foldlM hr).invariant (fun h _ hs => step_subscriptions hs h) rfl
  simp [broadcastChannel, he]

/-- A broadcast reaches exactly the subscribed sessions if and only if there are none. -/
theorem broadcast_reaches_iff (events : List Event) (w : WS) (hrun : WS.new.run events = some w)
    (channel : String) :
    Reaches events w channel ↔ ∀ id, subscribed events id channel = false := by
  simp [Reaches, WS.broadcastChannel_run hrun]

/-- Two sessions subscribe, one of them to the channel, which it leaves again. -/
def leaving : List Event :=
  [.connect "a", .connect "b", .wsSubscribe "a" "c", .wsSubscribe "b" "d", .wsUnsubscribe "a" "c"]

theorem leaving_subscribed (id : String) : subscribed leaving id "c" = false := by
  by_cases ha : id = "a" <;> by_cases hb : id = "b" <;>
    simp [subscribed, leaving, wants, ha, hb, eq_comm]

theorem broadcast_reaches_nobody : ∃ w, WS.new.run leaving = some w ∧ Reaches leaving w "c" :=
  ⟨_, rfl, (broadcast_reaches_iff leaving _ rfl "c").mpr leaving_subscribed⟩

/-- A session connects and subscribes; the broadcast does not reach it. -/
theorem broadcast_misses_subscriber : ∃ w, WS.new.run [.connect "a", .wsSubscribe "a" "c"] = some w
      ∧ subscribed [.connect "a", .wsSubscribe "a" "c"] "a" "c" = true
      ∧ w.broadcastChannel "c" = [] ∧ ¬ Reaches [.connect "a", .wsSubscribe "a" "c"] w "c" := by
  refine ⟨_, rfl, by decide, by decide, fun h => ?_⟩
  have hc := h "a"
  revert hc
  decide

end Rah.Ws
