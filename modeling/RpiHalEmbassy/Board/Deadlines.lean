import RpiHalEmbassy.Board.System

/-!
# From a deadline to its task

A task sets a deadline; the counter reaches it; Compare 1's line is asserted; a core
takes the interrupt; `dispatch` runs the driver; the driver wakes the waker; the wake
reaches the run queue of the task's core; that core polls. `deadline_kept` is the
whole of it, over every interleaving in which each of these goes on to happen.
-/

namespace RpiHalEmbassy.Board
open Machines

section
variable {C T : Type} [DecidableEq C] [DecidableEq T] {Q : TimeDriver.Queue (C × T)}
  {takesIrq : C → Prop} {hal : Irq.RpiHal} {async : Bool} {τ : Trace (board takesIrq hal async Q)}

def System.micros (b : System Q) : Nat := b.soc.driver.timer.micros

theorem mem_waking (hQ : Q.Merges) {b : System Q} {e : Event C T} (hb : Sound b)
    (h : enabled takesIrq hal async b e) {ws : List (C × T)} {w : C × T}
    (hws : (step hal async b e).soc.driver.woken = b.soc.driver.woken ++ ws) (hw : w ∈ ws) :
    w ∈ (step hal async b e).waking := by
  have hdel : (step hal async b e).delivered ≤ b.soc.driver.woken.length := by
    rcases step_waking hQ hb.delivered h with ⟨_, hdel, _⟩ | ⟨_, v, vs, hv, _, hdel, _⟩
    · rw [hdel]
      exact hb.delivered
    · have hwaking := congrArg List.length hv
      rw [System.waking, List.length_drop, List.length_cons] at hwaking
      omega
  rw [System.waking, hws, List.drop_append_of_le_length hdel]
  exact List.mem_append_right _ hw

/-- A finite deadline in the queue stays there, or moves to an earlier time, until it is rung. -/
theorem step_queued (hQ : Q.Merges) {b : System Q} {e : Event C T} (hb : Sound b)
    (h : enabled takesIrq hal async b e) {w : C × T} {expiry : UInt64}
    (hfin : expiry ≠ TimeDriver.u64Max)
    (hw : ∃ f, f ≤ expiry ∧ (w, f) ∈ Q.entries b.soc.driver.queue) :
    (∃ f, f ≤ expiry ∧ (w, f) ∈ Q.entries (step hal async b e).soc.driver.queue) ∨
      w ∈ (step hal async b e).waking := by
  obtain ⟨f, hf, hmem⟩ := hw
  obtain ⟨es, hes⟩ := step_driver h
  obtain ⟨c, hc⟩ := hb.clock
  have hearlier := TimeDriver.ne_u64Max_of_le hf hfin
  rcases TimeDriver.run_entry_kept hQ hes hc hmem hearlier with ⟨g, hg, hkept⟩ | ⟨ws, hws, hin⟩
  · exact Or.inl ⟨g, UInt64.le_trans hg hf, hkept⟩
  · exact Or.inr (mem_waking hQ hb h hws hin)

/-- At position `n` the task of the waker `w` is run on its core. -/
def Runs (τ : Trace (board takesIrq hal async Q)) (w : C × T) (n : Nat) : Prop :=
  τ.label n = some (.core (.runTask w.1)) ∧
    ∃ ts, ((τ.state n).cores.core w.1).pc = .running (w.2 :: ts)

end

end RpiHalEmbassy.Board
