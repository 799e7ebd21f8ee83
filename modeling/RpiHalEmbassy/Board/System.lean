import RpiHalEmbassy.Executor.Progress
import RpiHalEmbassy.Irq.Timer1
import RpiHalEmbassy.TimeDriver.BeforeInit

/-!
# The whole board

The driver behind its interrupt, the executors on their cores, and between them the
wakers that the driver has woken and whose `wake` has not reached its executor yet.
A waker is a task and the core it runs on. An interrupt is taken by a core that takes
interrupts, parked or not, and `dispatch` is what it runs.
-/

namespace RpiHalEmbassy.Board
open Machines

variable {C T : Type}

/-- The first `delivered` of the wakers woken are on their run queue. -/
structure System (Q : TimeDriver.Queue (C × T)) where
  soc : Irq.Soc Q
  cores : Executor.Cores C T
  delivered : Nat

def System.waking {Q : TimeDriver.Queue (C × T)} (b : System Q) : List (C × T) :=
  b.soc.driver.woken.drop b.delivered

inductive Event (C T : Type) where
  | passes (e : Irq.Env)
  | scheduleWake (expiry : UInt64) (w : C × T) (turns : List TimeDriver.TurnTicks)
  | irq (i : C) (k : Irq.Entry)
  | wake
  | core (a : Executor.Step C T)

def Event.ByCore (i : C) : Event C T → Prop
  | .core a => a.ByCore i
  | _ => False

variable [DecidableEq C] {Q : TimeDriver.Queue (C × T)}

/-- An interrupt ends the `wfe` of the core that takes it. -/
def interrupted (i : C) (s : Executor.Cores C T) : Executor.Cores C T :=
  match (s.core i).pc with
  | .parked => Executor.step s (.interrupt i)
  | _ => s

def enabled (takesIrq : C → Prop) (hal : Irq.RpiHal) (async : Bool) (b : System Q) :
    Event C T → Prop
  | .passes _ => True
  | .scheduleWake expiry w turns =>
    (TimeDriver.driver Q).enabled b.soc.driver (.scheduleWake expiry w turns)
  | .irq i k => takesIrq i ∧ b.soc.Asserting async ∧
      (TimeDriver.Event.onTimerIrq (W := C × T) k.clear k.turns).sectionTicks < 2 ^ 31 ∧
      (Irq.dispatch hal async k b.soc).isSome = true
  | .wake => b.waking ≠ []
  | .core a => Executor.enabled takesIrq b.cores a

def step (hal : Irq.RpiHal) (async : Bool) (b : System Q) : Event C T → System Q
  | .passes e => { b with soc := b.soc.happens e }
  | .scheduleWake expiry w turns =>
    { b with soc.driver := (TimeDriver.driver Q).step b.soc.driver (.scheduleWake expiry w turns) }
  | .irq i k =>
    { b with
      soc := (Irq.dispatch hal async k b.soc).getD b.soc
      cores := interrupted i b.cores }
  | .wake =>
    match b.waking with
    | w :: _ =>
      { b with cores := Executor.step b.cores (.enqueue w.1 w.2), delivered := b.delivered + 1 }
    | [] => b
  | .core a => { b with cores := Executor.step b.cores a }

def board (takesIrq : C → Prop) (hal : Irq.RpiHal) (async : Bool)
    (Q : TimeDriver.Queue (C × T)) : Machine (System Q) (Event C T) where
  enabled := enabled takesIrq hal async
  step := step hal async

/-- Just past `time_driver::init`, with no core in its executor yet. -/
structure System.Boot (b : System Q) : Prop where
  queue : Q.entries b.soc.driver.queue = []
  enabled : b.soc.driver.timer1IrqEnabled = true
  delivered : b.delivered = b.soc.driver.woken.length
  cores : b.cores.Boot

/-! ### The driver in it -/

omit [DecidableEq C] in
theorem dispatch_getD {hal : Irq.RpiHal} {async : Bool} {k : Irq.Entry} {s : Irq.Soc Q}
    (h : (Irq.dispatch hal async k s).isSome = true) :
    Irq.dispatch hal async k s = some ((Irq.dispatch hal async k s).getD s) := by
  obtain ⟨t, ht⟩ := Option.isSome_iff_exists.mp h
  rw [ht, Option.getD_some]

theorem step_driver {takesIrq : C → Prop} {hal : Irq.RpiHal} {async : Bool} {b : System Q}
    {e : Event C T} (h : enabled takesIrq hal async b e) :
    ∃ es, (TimeDriver.driver Q).Run b.soc.driver es (step hal async b e).soc.driver := by
  cases e with
  | passes e =>
    cases e with
    | tick => exact ⟨_, Irq.run_after b.soc.driver 1⟩
    | raise l => exact ⟨[], .nil⟩
  | scheduleWake expiry w turns => exact ⟨_, .single h⟩
  | irq i k => exact Irq.dispatch_run (dispatch_getD h.2.2.2) h.2.2.1
  | wake =>
    refine ⟨[], ?_⟩
    simp only [step]
    split
    · exact .nil
    · exact .nil
  | core a => exact ⟨[], .nil⟩

/-- What holds of the driver and its wakes from the boot on. -/
structure Sound (b : System Q) : Prop where
  covered : b.soc.driver.Covered
  clock : ∃ c, TimeDriver.Shows b.soc.driver c
  enabled : b.soc.driver.timer1IrqEnabled = true
  delivered : b.delivered ≤ b.soc.driver.woken.length

section
variable [DecidableEq T]

theorem step_woken (hQ : Q.Merges) {takesIrq : C → Prop} {hal : Irq.RpiHal} {async : Bool}
    {b : System Q} {e : Event C T} (h : enabled takesIrq hal async b e) :
    ∃ ws, (step hal async b e).soc.driver.woken = b.soc.driver.woken ++ ws := by
  obtain ⟨es, hes⟩ := step_driver h
  obtain ⟨_, ws, hws, _⟩ := TimeDriver.run_follows hQ hes
  exact ⟨ws, hws⟩

/-- Wakes join the end; the one that is made is the first. -/
theorem step_waking (hQ : Q.Merges) {takesIrq : C → Prop} {hal : Irq.RpiHal} {async : Bool}
    {b : System Q} {e : Event C T} (hb : b.delivered ≤ b.soc.driver.woken.length)
    (h : enabled takesIrq hal async b e) :
    (e ≠ .wake ∧ (step hal async b e).delivered = b.delivered ∧
        ∃ ws, (step hal async b e).waking = b.waking ++ ws) ∨
      (e = .wake ∧ ∃ w ws, b.waking = w :: ws ∧ (step hal async b e).waking = ws ∧
        (step hal async b e).delivered = b.delivered + 1 ∧
        (step hal async b e).cores = Executor.step b.cores (.enqueue w.1 w.2)) := by
  have hgrows : ∀ {b' : System Q}, b'.delivered = b.delivered →
      (∃ ws, b'.soc.driver.woken = b.soc.driver.woken ++ ws) →
      ∃ ws, b'.waking = b.waking ++ ws := by
    rintro b' hdel ⟨ws, hws⟩
    refine ⟨ws, ?_⟩
    simp only [System.waking, hdel, hws]
    exact List.drop_append_of_le_length hb
  have hwoken := step_woken hQ h
  cases e with
  | wake =>
    cases hw : b.waking with
    | nil => exact absurd hw h
    | cons w ws =>
      refine Or.inr ⟨rfl, w, ws, rfl, ?_, ?_, ?_⟩
      · simp only [step, hw]
        simp only [System.waking] at hw ⊢
        rw [← List.drop_drop, hw, List.drop_one, List.tail_cons]
      · simp only [step, hw]
      · simp only [step, hw]
  | _ => exact Or.inl ⟨by simp, rfl, hgrows rfl hwoken⟩

end

/-! ### The cores in it -/

def coreLabel (b : System Q) : Event C T → Option (Executor.Step C T)
  | .irq i _ =>
    match (b.cores.core i).pc with
    | .parked => some (.interrupt i)
    | _ => none
  | .wake => b.waking.head?.map fun w => .enqueue w.1 w.2
  | .core a => some a
  | _ => none

def cores (takesIrq : C → Prop) (hal : Irq.RpiHal) (async : Bool) (Q : TimeDriver.Queue (C × T)) :
    Component (board takesIrq hal async Q) (Executor.cores (T := T) takesIrq) where
  state b := b.cores
  label := coreLabel
  rests b e h hnone := by
    cases e with
    | irq i k =>
      simp only [coreLabel] at hnone
      simp only [board, step, interrupted]
      split
      · next hpc => rw [hpc] at hnone; cases hnone
      · rfl
    | wake =>
      have hw : b.waking = [] := by simpa [coreLabel] using hnone
      exact absurd hw h
    | core a => cases hnone
    | passes | scheduleWake => rfl
  moves b e a h hsome := by
    cases e with
    | irq i k =>
      simp only [coreLabel] at hsome
      split at hsome
      · next hpc =>
        cases Option.some.inj hsome
        refine ⟨⟨hpc, h.1⟩, ?_⟩
        simp only [board, step, interrupted, hpc]
        rfl
      · cases hsome
    | wake =>
      cases hw : b.waking with
      | nil => exact absurd hw h
      | cons w ws =>
        simp only [coreLabel, hw, List.head?_cons, Option.map_some] at hsome
        cases Option.some.inj hsome
        refine ⟨trivial, ?_⟩
        simp only [board, step, hw]
        rfl
    | core a' =>
      cases Option.some.inj hsome
      exact ⟨h, rfl⟩
    | passes | scheduleWake => cases hsome

end RpiHalEmbassy.Board
