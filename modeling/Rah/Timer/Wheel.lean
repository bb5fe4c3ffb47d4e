import Rah.Lib.SeqRing
import Rah.Timer.Service

/-!
# The timer wheel

A wheel of 4096 slots of one second. Every slot has a buffer of 512 positions, a counter for
positions never used since the last tick, and a ring of positions a tick has given back. An
entry of the wheel is an index into two global arrays, what to fire and whether it was
cancelled; free indices are in a ring of their own.

The calls come one after the other, in any order. The state also keeps what no call reads:
the number of the next call, the handle each call returned, and the log of what has happened.
A handle is named by the number of its call, so an old handle can be used again.
-/

namespace Rah.Timer

open Rah.Lib

/-- The slots of the wheel, one for each tick. -/
def wheelSize : Nat := 4096

/-- The free ring has `2 ^ 19` cells, `maxWheelEntries`. -/
def entryBits : Nat := 19

/-- The buffer of a slot and its ring have `2 ^ 9` places, `maxPerSlot`. -/
def slotBits : Nat := 9

/-- The timers that can be pending at once. -/
def maxWheelEntries : Nat := 524288

/-- The timers one slot holds. -/
def maxPerSlot : Nat := 512

/-- A slot: its buffer of entry indices and the ring of free positions. -/
structure WheelSlot where
  writePos : Nat
  posRing : SeqRing Nat
  /-- Entry indices by position, `0` for none. -/
  buf : Nat → Nat

/-- A handle; the index `0` means that no timer was scheduled. -/
structure WheelHandle where
  idx : Nat
  slot : Nat
  pos : Nat
  deriving DecidableEq, Repr

/-- The wheel's arrays and its free list. -/
structure Wheel where
  /-- `wheelCurrent`. -/
  current : Nat
  /-- `wheelSlots`. -/
  slots : Nat → WheelSlot
  /-- The `cancelled` flags of `wheelEntries`. -/
  cancelled : Nat → Bool
  /-- `wheelFire`. -/
  fire : Nat → Option FireRef
  /-- `wheelFreeRing`. -/
  freeRing : SeqRing Nat

def Wheel.setSlot (w : Wheel) (i : Nat) (s : WheelSlot) : Wheel :=
  { w with slots := fun j => if j = i then s else w.slots j }

def WheelSlot.setBuf (s : WheelSlot) (pos idx : Nat) : WheelSlot :=
  { s with buf := fun i => if i = pos then idx else s.buf i }

/-- What an entry fires. -/
def Wheel.setFire (w : Wheel) (idx : Nat) (ref : Option FireRef) : Wheel :=
  { w with fire := fun i => if i = idx then ref else w.fire i }

/-- An entry's flag. -/
def Wheel.setCancelled (w : Wheel) (idx : Nat) (flag : Bool) : Wheel :=
  { w with cancelled := fun i => if i = idx then flag else w.cancelled i }

/-- The indices `StartTimerWheel` puts in the free ring; `0` is the nil sentinel. -/
def freeIndices : List Nat := List.range' 1 (maxWheelEntries - 1)

/-- An entry given back to the free list. -/
def pushFree (r : SeqRing Nat) (idx : Nat) : SeqRing Nat :=
  match r.enqueue entryBits idx with
  | some (_, r') => r'
  | none => r

/-- `StartTimerWheel`, when the clock stands at the slot `current`. -/
def startTimerWheel (current : Nat) : Wheel where
  current := current
  slots := fun _ => { writePos := 0, posRing := SeqRing.new 0, buf := fun _ => 0 }
  cancelled := fun _ => false
  fire := fun _ => none
  freeRing := freeIndices.foldl pushFree (SeqRing.new 0)

/-- The slot of a duration in nanoseconds: whole seconds as an `uint32`, plus one. That the sums
wrap at 32 bits does not matter to the slot. -/
def Wheel.slotIdx (w : Wheel) (dur : Int) : Nat :=
  (w.current + ((Int.tdiv dur 1000000000 % 4294967296).toNat + 1)) % wheelSize

/-- A position of the slot: a recycled one if there is any, else a fresh one, else none. -/
def WheelSlot.takePos (s : WheelSlot) : Option (Option Nat × WheelSlot) :=
  match s.posRing.dequeue slotBits with
  | none => none
  | some (some pos, ring) => some (some pos, { s with posRing := ring })
  | some (none, ring) =>
    if s.writePos < maxPerSlot then
      some (some s.writePos, { s with writePos := s.writePos + 1, posRing := ring })
    else some (none, { s with posRing := ring })

/-- The common body of `scheduleBody` and `scheduleCtx`. -/
def Wheel.schedule (w : Wheel) (ref : FireRef) (dur : Int) : Option (WheelHandle × Wheel) :=
  match w.freeRing.dequeue entryBits with
  | none => none
  | some (none, free) => some (⟨0, 0, 0⟩, { w with freeRing := free })
  | some (some idx, free) =>
    let i := w.slotIdx dur
    match (w.slots i).takePos with
    | none => none
    | some (none, s) =>
      -- slot full: the entry goes back to the free ring
      match free.enqueue entryBits idx with
      | none => none
      | some (_, free) => some (⟨0, 0, 0⟩, { w.setSlot i s with freeRing := free })
    | some (some pos, s) =>
      some (⟨idx, i, pos⟩,
        { ((w.setSlot i (s.setBuf pos idx)).setCancelled idx false).setFire idx (some ref) with
          freeRing := free })

def scheduleBody (w : Wheel) (ticket body : Nat) (dur : Int) : Option (WheelHandle × Wheel) :=
  w.schedule ⟨ticket, .body body⟩ dur

def scheduleCtx (w : Wheel) (ticket ctx gen : Nat) (dur : Int) : Option (WheelHandle × Wheel) :=
  w.schedule ⟨ticket, .ctx ctx gen⟩ dur

/-- The wheel without an entry, its index back in the free ring. -/
def Wheel.released (w : Wheel) (slot pos idx : Nat) (free : SeqRing Nat) : Wheel :=
  { (w.setSlot slot ((w.slots slot).setBuf pos 0)).setFire idx none with freeRing := free }

/-- What `cancel` and `wheelTick` do with an entry whose reference they have taken. -/
def Wheel.release (w : Wheel) (slot pos idx : Nat) : Option Wheel :=
  match w.freeRing.enqueue entryBits idx with
  | none => none
  | some (_, free) => some (w.released slot pos idx free)

/-- `Cancel`: the entry is flagged, and given back unless a tick has taken it. -/
def Wheel.cancel (w : Wheel) (h : WheelHandle) : Option Wheel :=
  if h.idx = 0 then some w
  else
    let w := w.setCancelled h.idx true
    match w.fire h.idx with
    | none => some w
    | some _ => w.release h.slot h.pos h.idx

/-- The entry at a position of the slot that is ticked: fire it unless it was cancelled. -/
def tickEntry (slot : Nat) (w : Wheel) (fired : List FireRef) (pos : Nat) :
    Option (Wheel × List FireRef) :=
  let idx := (w.slots slot).buf pos
  if idx = 0 then some (w, fired)
  else
    match w.fire idx with
    | none => some (w, fired)
    | some ref =>
      match w.release slot pos idx with
      | none => none
      | some w' => some (w', if w.cancelled idx then fired else fired ++ [ref])

/-- The position goes back to the ring of the slot; a full ring drops it. -/
def recyclePos (slot : Nat) (w : Wheel) (pos : Nat) : Option Wheel :=
  match (w.slots slot).posRing.enqueue slotBits pos with
  | none => none
  | some (_, ring) => some (w.setSlot slot { w.slots slot with posRing := ring })

/-- The body of the loop of `wheelTick`. -/
def tickPos (slot : Nat) (acc : Wheel × List FireRef) (pos : Nat) :
    Option (Wheel × List FireRef) :=
  match tickEntry slot acc.1 acc.2 pos with
  | none => none
  | some (w, fired) => (recyclePos slot w pos).map (fun w => (w, fired))

/-- `wheelTick`, with the references it fires. -/
def wheelTick (w : Wheel) (slot : Nat) : Option (Wheel × List FireRef) :=
  let count := (w.slots slot).writePos
  let w := w.setSlot slot { w.slots slot with writePos := 0 }
  (List.range count).foldlM (tickPos slot) (w, [])

/-! ## Sequences of calls -/

/-- The wheel with what it has been asked and what it has fired. -/
structure State where
  wheel : Wheel
  /-- The number of the next call that schedules. -/
  next : Nat
  /-- The handle each call returned, none for a zero handle. -/
  handles : Nat → Option WheelHandle
  /-- What has happened, oldest first. -/
  log : List Event

/-- The wheel when the ticker starts. -/
def start (current : Nat) : State where
  wheel := startTimerWheel current
  next := 0
  handles := fun _ => none
  log := []

/-- The calls and the ticks. -/
inductive Act where
  | scheduleBody (body : Nat) (dur : Int)
  | scheduleCtx (ctx gen : Nat) (dur : Int)
  | cancel (ticket : Nat)
  | tick
  deriving DecidableEq, Repr

/-- Note down what a scheduling call has returned. -/
def State.scheduled (s : State) (ref : FireRef) (r : WheelHandle × Wheel) : State :=
  if r.1.idx = 0 then
    { s with wheel := r.2, next := s.next + 1, log := s.log ++ [.refused s.next] }
  else
    { wheel := r.2
      next := s.next + 1
      handles := fun t => if t = s.next then some r.1 else s.handles t
      log := s.log ++ [.scheduled ref r.1.slot] }

/-- One tick: the next slot is drained. -/
def State.tick (s : State) : Option State :=
  let slot := (s.wheel.current + 1) % wheelSize
  match wheelTick { s.wheel with current := slot } slot with
  | none => none
  | some (w, fired) => some { s with wheel := w, log := s.log ++ [.ticked slot fired] }

def step (s : State) : Act → Option State
  | .scheduleBody body dur =>
    (scheduleBody s.wheel s.next body dur).map (s.scheduled ⟨s.next, .body body⟩)
  | .scheduleCtx ctx gen dur =>
    (scheduleCtx s.wheel s.next ctx gen dur).map (s.scheduled ⟨s.next, .ctx ctx gen⟩)
  | .cancel ticket =>
    match s.handles ticket with
    | none => some { s with log := s.log ++ [.cancelled ticket] }
    | some h =>
      (s.wheel.cancel h).map (fun w => { s with wheel := w, log := s.log ++ [.cancelled ticket] })
  | .tick => s.tick

end Rah.Timer
