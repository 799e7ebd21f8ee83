import RpiHalEmbassy.Library.Machine
import RpiHalEmbassy.TimeDriver.SystemTimer
import RpiHalEmbassy.TimeDriver.Queue

/-!
# The `embassy-time` driver (`src/time_driver.rs`)

The counter runs on between the driver's register accesses, so every entry
point takes the ticks that go by before each of them. The two entry points run
inside one critical section each; `driver` interleaves them with ticks.
-/

namespace RpiHalEmbassy.TimeDriver
open Machines

/-- The driver's queue, the timer it steals, its interrupt's enable bit at the
interrupt controller, and the wakers woken so far. -/
structure Driver {W : Type} (Q : Queue W) where
  timer : SystemTimer
  queue : Q.State
  timer1IrqEnabled : Bool
  woken : List W

/-- The ticks around one turn of the re-arm loop: before `now`, then before each
access of `set_compare1`. -/
structure TurnTicks extends SystemTimer.ArmTicks where
  drain : Nat

def TurnTicks.total (k : TurnTicks) : Nat := k.drain + k.read + k.write + k.check

namespace Driver
variable {W : Type} {Q : Queue W}

def nextExpiration (drain : Nat) (d : Driver Q) : UInt64 × Driver Q :=
  let timer := d.timer.elapse drain
  let r := Q.nextExpiration timer.nowMicros d.queue
  (r.1, { d with timer := timer, queue := r.2.2, woken := d.woken ++ r.2.1 })

/-- The loop takes as many turns as `set_compare1` refuses, and one more; `none`
is a loop still turning when the given turns run out. -/
def rearm : List TurnTicks → Driver Q → Option (Driver Q)
  | [], _ => none
  | k :: ks, d =>
    let next := d.nextExpiration k.drain
    let armed := next.2.timer.setCompare1 next.1 k.toArmTicks
    let d := { next.2 with timer := armed.2 }
    if armed.1 then some d else d.rearm ks

def onIrq (clear : Nat) (turns : List TurnTicks) (d : Driver Q) : Option (Driver Q) :=
  rearm turns { d with timer := (d.timer.elapse clear).clearCompare1Match }

def scheduleWake (expiry : UInt64) (w : W) (turns : List TurnTicks) (d : Driver Q) :
    Option (Driver Q) :=
  let r := Q.scheduleWake expiry w d.queue
  let d := { d with queue := r.2 }
  if r.1 then d.rearm turns else some d

def init (d : Driver Q) : Driver Q :=
  { d with timer := d.timer.clearCompare1Match, timer1IrqEnabled := true }

end Driver

inductive Event (W : Type) where
  | tick
  | scheduleWake (expiry : UInt64) (w : W) (turns : List TurnTicks)
  | onTimerIrq (clear : Nat) (turns : List TurnTicks)

def Event.sectionTicks {W : Type} : Event W → Nat
  | .tick => 0
  | .scheduleWake _ _ turns => (turns.map TurnTicks.total).sum
  | .onTimerIrq clear turns => clear + (turns.map TurnTicks.total).sum

def exec {W : Type} {Q : Queue W} (d : Driver Q) : Event W → Option (Driver Q)
  | .tick => some { d with timer := d.timer.tick }
  | .scheduleWake expiry w turns => d.scheduleWake expiry w turns
  | .onTimerIrq clear turns => d.onIrq clear turns

/-- Its states are those outside the critical section: a label is enabled if its
call returns, fewer than `2^31` ticks after it began. -/
def driver {W : Type} (Q : Queue W) : Machine (Driver Q) (Event W) where
  enabled d e := e.sectionTicks < 2 ^ 31 ∧ (exec d e).isSome = true
  step d e := (exec d e).getD d

instance {W : Type} {Q : Queue W} (d : Driver Q) (e : Event W) :
    Decidable ((driver Q).enabled d e) :=
  inferInstanceAs (Decidable (_ ∧ _))

theorem exec_of_enabled {W : Type} {Q : Queue W} {d : Driver Q} {e : Event W}
    (h : (driver Q).enabled d e) : exec d e = some ((driver Q).step d e) := by
  obtain ⟨d', hd'⟩ := Option.isSome_iff_exists.mp h.2
  simp only [driver, hd', Option.getD_some]

end RpiHalEmbassy.TimeDriver
