import Mathlib.Logic.Function.Basic

/-!
# The request-context pool

`ctxPool` hands out pooled request contexts. `Get` pops without a lock: it loads the
count, swaps it for one less, and reads the slot it has won. `Put` pushes under a mutex:
it loads the count, writes the slot, stores the count.

Any number of callers run these operations at once. A state holds the shared memory and,
for every caller, the operation it is about to do; a step is one such operation, and the
order of steps is arbitrary. Contexts are numbered in the order `newFn` makes them, the
64 that warm the pool first. The log of calls is what the callers can see, newest first.
-/

namespace Rah.Pool

/-- `ctxPoolCap`. -/
def cap : Nat := 64

/-- What a caller sees of the pool. -/
inductive Event where
  /-- A `Get` of the caller returned the context. -/
  | got (t c : Nat)
  /-- The caller called `Put` with the context. -/
  | put (t c : Nat)
  deriving DecidableEq, Repr

/-- The operation a caller is about to do. -/
inductive Pc where
  | idle
  | getLoad
  | getSwap (n : Nat)
  | getRead (i : Nat)
  | putLock (c : Nat)
  | putLoad (c : Nat)
  | putWrite (c n : Nat)
  | putStore (n : Nat)
  | putUnlock
  deriving DecidableEq, Repr

structure State where
  items : Nat → Nat
  count : Nat
  lock : Option Nat
  /-- The next context `newFn` makes. -/
  next : Nat
  pc : Nat → Pc
  log : List Event

/-- `newCtxPool`: every slot is filled and nobody has called yet. -/
def init : State where
  items := fun i => i
  count := cap
  lock := none
  next := cap
  pc := fun _ => .idle
  log := []

def State.goto (s : State) (t : Nat) (pc : Pc) : State :=
  { s with pc := fun u => if u = t then pc else s.pc u }

/-- The caller got the context and has not put it since. -/
def holds (t c : Nat) : List Event → Bool
  | [] => false
  | .got t' c' :: log => (t' = t && c' = c) || holds t c log
  | .put t' c' :: log => !(t' = t && c' = c) && holds t c log

/-- What happens next: an idle caller calls, or a caller does its next operation. -/
inductive Act where
  | callGet (t : Nat)
  | callPut (t c : Nat)
  | run (t : Nat)
  deriving DecidableEq, Repr

/-- The next operation of a caller; none when it is idle or waits for the mutex. -/
def runStep (s : State) (t : Nat) : Option State :=
  match s.pc t with
  | .idle => none
  | .getLoad =>
    if s.count = 0 then
      some { s.goto t .idle with next := s.next + 1, log := .got t s.next :: s.log }
    else some (s.goto t (.getSwap s.count))
  | .getSwap n =>
    if s.count = n then some { s.goto t (.getRead (n - 1)) with count := n - 1 }
    else some (s.goto t .getLoad)
  | .getRead i => some { s.goto t .idle with log := .got t (s.items i) :: s.log }
  | .putLock c =>
    if s.lock = none then some { s.goto t (.putLoad c) with lock := some t } else none
  | .putLoad c =>
    if s.count < cap then some (s.goto t (.putWrite c s.count)) else some (s.goto t .putUnlock)
  | .putWrite c n =>
    some { s.goto t (.putStore n) with items := fun i => if i = n then c else s.items i }
  | .putStore n => some { s.goto t .putUnlock with count := n + 1 }
  | .putUnlock => some { s.goto t .idle with lock := none }

/-- A caller puts only what it holds. -/
def step (s : State) : Act → Option State
  | .callGet t => if s.pc t = .idle then some (s.goto t .getLoad) else none
  | .callPut t c =>
    if s.pc t = .idle ∧ holds t c s.log = true then
      some { s.goto t (.putLock c) with log := .put t c :: s.log }
    else none
  | .run t => runStep s t

end Rah.Pool
