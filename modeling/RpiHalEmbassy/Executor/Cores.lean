import Mathlib.Logic.Function.Basic
import RpiHalEmbassy.Library.Machine

/-!
# Thread-mode executors, one on each core (`src/executor.rs`)

Every core runs `Executor::run` on an executor of its own. A wake of one of its
tasks may come from any core, task or interrupt handler, at any moment, and is
two steps: the enqueue, and the `__pender` call that follows it when the run
queue was empty. `signalling` holds the wakes between the two.
-/

namespace RpiHalEmbassy.Executor
open Machines

/-- Where a core is in `run`: in the caller's `init`, about to poll, inside `poll`
with those of the tasks it took that are still to run (`running []` is past the
last of them, before `wfe`), or waiting in `wfe`. -/
inductive Pc (T : Type) where
  | init
  | poll
  | running (tasks : List T)
  | parked

structure Core (T : Type) where
  runQueue : List T
  event : Bool
  pc : Pc T

def Core.Parked {T : Type} (c : Core T) : Prop := c.pc = .parked ∧ c.event = false

structure Cores (C T : Type) where
  core : C → Core T
  signalling : List C

variable {C T : Type} [DecidableEq C]

def Cores.set (s : Cores C T) (i : C) (c : Core T) : Cores C T :=
  { s with core := Function.update s.core i c }

/-- `sev` sets the event register of every core, whatever `_context` was. -/
def pender (s : Cores C T) : Cores C T :=
  { s with core := fun i => { s.core i with event := true } }

def enqueue (i : C) (task : T) (s : Cores C T) : Cores C T :=
  let c := s.core i
  let s' := s.set i { c with runQueue := c.runQueue ++ [task] }
  if c.runQueue = [] then { s' with signalling := i :: s.signalling } else s'

inductive Step (C T : Type) where
  | start (i : C)
  | poll (i : C)
  | runTask (i : C)
  | wfe (i : C)
  | wfeReturn (i : C)
  | interrupt (i : C)
  | enqueue (i : C) (task : T)
  | pender (i : C)

/-- `takesIrq` tells the cores whose `wfe` an interrupt can end. -/
def enabled (takesIrq : C → Prop) (s : Cores C T) : Step C T → Prop
  | .start i => (s.core i).pc = .init
  | .poll i => (s.core i).pc = .poll
  | .runTask i => ∃ t ts, (s.core i).pc = .running (t :: ts)
  | .wfe i => (s.core i).pc = .running []
  | .wfeReturn i => (s.core i).pc = .parked ∧ (s.core i).event = true
  | .interrupt i => (s.core i).pc = .parked ∧ takesIrq i
  | .enqueue _ _ => True
  | .pender i => i ∈ s.signalling

def step (s : Cores C T) : Step C T → Cores C T
  | .start i => s.set i { s.core i with pc := .poll }
  | .poll i => s.set i { s.core i with runQueue := [], pc := .running (s.core i).runQueue }
  | .runTask i =>
    match (s.core i).pc with
    | .running (_ :: ts) => s.set i { s.core i with pc := .running ts }
    | _ => s
  | .wfe i =>
    if (s.core i).event then s.set i { s.core i with event := false, pc := .poll }
    else s.set i { s.core i with pc := .parked }
  | .wfeReturn i => s.set i { s.core i with event := false, pc := .poll }
  | .interrupt i => s.set i { s.core i with pc := .poll }
  | .enqueue i task => enqueue i task s
  | .pender i => { pender s with signalling := s.signalling.erase i }

def cores (takesIrq : C → Prop) : Machine (Cores C T) (Step C T) where
  enabled := enabled takesIrq
  step := step

def Cores.Boot (s : Cores C T) : Prop :=
  ∀ i, (s.core i).pc = .init ∧ (s.core i).runQueue = []

end RpiHalEmbassy.Executor
