import RpiHalEmbassy.Executor.WakeUps
import RpiHalEmbassy.Library.Trace

/-!
# A woken task is polled

`CoreMove` is all that a step can do to one core. A task on a core's run queue is
taken by the core's next poll, and what separates the core from that poll shrinks
with each of its own steps; only a core parked on a clear event register has none
of its own to take, and then the wake that filled its queue has still to signal.
-/

namespace RpiHalEmbassy.Executor
open Machines

variable {C T : Type}

/-- The steps core `i` takes by itself. -/
def Step.ByCore (i : C) : Step C T → Prop
  | .start j => j = i
  | .poll j => j = i
  | .runTask j => j = i
  | .wfe j => j = i
  | .wfeReturn j => j = i
  | _ => False

inductive CoreMove (i : C) (c : Core T) : Step C T → Core T → Prop
  | elsewhere (a : Step C T) (hcore : ¬ a.ByCore i) (hsev : ∀ j, a ≠ .pender j) :
      CoreMove i c a c
  | enqueued (task : T) : CoreMove i c (.enqueue i task) { c with runQueue := c.runQueue ++ [task] }
  | signalled (j : C) : CoreMove i c (.pender j) { c with event := true }
  | started (h : c.pc = .init) : CoreMove i c (.start i) { c with pc := .poll }
  | polled (h : c.pc = .poll) :
      CoreMove i c (.poll i) { c with runQueue := [], pc := .running c.runQueue }
  | ran (t : T) (ts : List T) (h : c.pc = .running (t :: ts)) :
      CoreMove i c (.runTask i) { c with pc := .running ts }
  | passed (h : c.pc = .running []) (he : c.event = true) :
      CoreMove i c (.wfe i) { c with event := false, pc := .poll }
  | parks (h : c.pc = .running []) (he : c.event = false) :
      CoreMove i c (.wfe i) { c with pc := .parked }
  | returned (h : c.pc = .parked) (he : c.event = true) :
      CoreMove i c (.wfeReturn i) { c with event := false, pc := .poll }
  | interrupted (h : c.pc = .parked) : CoreMove i c (.interrupt i) { c with pc := .poll }

section
variable [DecidableEq C]

theorem enqueue_core (s : Cores C T) (i j : C) (task : T) :
    (enqueue i task s).core j =
      (s.set i { s.core i with runQueue := (s.core i).runQueue ++ [task] }).core j := by
  unfold enqueue
  dsimp only
  split
  · rfl
  · rfl

theorem set_moved {s : Cores C T} {a : Step C T} {j : C} {c : Core T} (i : C)
    (h : CoreMove j (s.core j) a c) (hcore : i ≠ j → ¬ a.ByCore i) (hsev : ∀ k, a ≠ .pender k) :
    CoreMove i (s.core i) a ((s.set j c).core i) := by
  by_cases hij : i = j
  · subst hij
    rw [set_self]
    exact h
  · rw [set_other s c hij]
    exact .elsewhere a (hcore hij) hsev

/-- All that a step can do to core `i`. -/
theorem step_core {takesIrq : C → Prop} {s : Cores C T} {a : Step C T}
    (h : enabled takesIrq s a) (i : C) : CoreMove i (s.core i) a ((step s a).core i) := by
  cases a with
  | start j => exact set_moved i (.started h) (fun hne hj => hne hj.symm) (by simp)
  | poll j => exact set_moved i (.polled h) (fun hne hj => hne hj.symm) (by simp)
  | runTask j =>
    obtain ⟨t, ts, hpc⟩ := h
    simp only [step, hpc]
    exact set_moved i (.ran t ts hpc) (fun hne hj => hne hj.symm) (by simp)
  | wfe j =>
    simp only [step]
    split
    · next he => exact set_moved i (.passed h he) (fun hne hj => hne hj.symm) (by simp)
    · next he =>
      have he := Bool.eq_false_iff.mpr he
      exact set_moved i (.parks h he) (fun hne hj => hne hj.symm) (by simp)
  | wfeReturn j => exact set_moved i (.returned h.1 h.2) (fun hne hj => hne hj.symm) (by simp)
  | interrupt j => exact set_moved i (.interrupted h.1) (fun _ => id) (by simp)
  | enqueue j task =>
    simp only [step]
    rw [enqueue_core]
    exact set_moved i (.enqueued task) (fun _ => id) (by simp)
  | pender j => exact .signalled j

end

/-! ### What is left until the next poll -/

def Core.rank (c : Core T) : Nat :=
  match c.pc with
  | .poll => 0
  | .init => 1
  | .parked => if c.event then 1 else 2
  | .running ts => ts.length + 3

theorem rank_eq_two {c : Core T} : c.rank = 2 ↔ c.Parked := by
  unfold Core.rank Core.Parked
  cases c.pc with
  | parked => cases c.event <;> simp
  | _ => simp

def Taken (t : T) (c : Core T) : Prop := ∃ ts, c.pc = .running ts ∧ t ∈ ts

theorem CoreMove.rank_lt {i : C} {c d : Core T} {a : Step C T} (h : CoreMove i c a d)
    (ha : a.ByCore i) (hpoll : a ≠ .poll i) : d.rank < c.rank := by
  cases h with
  | elsewhere _ hcore => exact absurd ha hcore
  | polled => exact absurd rfl hpoll
  | started h => simp [Core.rank, h]
  | ran t ts h => simp [Core.rank, h]
  | passed h => simp [Core.rank, h]
  | parks h he => simp [Core.rank, h, he]
  | returned h he => simp [Core.rank, h, he]
  | _ => exact ha.elim

/-- A task on the run queue stays there, the poll no further away, until the poll takes it. -/
theorem CoreMove.queued {i : C} {c d : Core T} {a : Step C T} {t : T} (h : CoreMove i c a d)
    (hc : t ∈ c.runQueue) : Taken t d ∨ t ∈ d.runQueue ∧ d.rank ≤ c.rank := by
  by_cases hpoll : a = .poll i
  · subst hpoll
    cases h with
    | elsewhere _ hcore => exact absurd rfl hcore
    | polled => exact Or.inl ⟨c.runQueue, rfl, hc⟩
  · right
    by_cases ha : a.ByCore i
    · have hrank := (h.rank_lt ha hpoll).le
      cases h with
      | polled => exact absurd rfl hpoll
      | enqueued => exact ha.elim
      | _ => exact ⟨hc, hrank⟩
    · cases h with
      | elsewhere => exact ⟨hc, le_rfl⟩
      | enqueued => exact ⟨List.mem_append_left _ hc, le_rfl⟩
      | signalled =>
        refine ⟨hc, ?_⟩
        unfold Core.rank
        cases c.pc with
        | parked => cases c.event <;> simp
        | _ => exact le_rfl
      | interrupted => exact ⟨hc, Nat.zero_le _⟩
      | _ => exact absurd rfl ha

/-- The steps that bring the poll nearer: the core's own, and a signal to a parked core. -/
theorem CoreMove.nearer {i : C} {c d : Core T} {a : Step C T} {t : T} (h : CoreMove i c a d)
    (hc : t ∈ c.runQueue) (ha : a.ByCore i ∨ c.Parked ∧ ∃ j, a = .pender j) :
    Taken t d ∨ t ∈ d.runQueue ∧ d.rank < c.rank := by
  rcases h.queued hc with htaken | ⟨hd, _⟩
  · exact Or.inl htaken
  · rcases ha with ha | ⟨⟨hpc, he⟩, j, rfl⟩
    · by_cases hpoll : a = .poll i
      · subst hpoll
        cases h with
        | elsewhere _ hcore => exact absurd rfl hcore
        | polled => exact Or.inl ⟨c.runQueue, rfl, hc⟩
      · exact Or.inr ⟨hd, h.rank_lt ha hpoll⟩
    · cases h with
      | elsewhere _ _ hsev => exact absurd rfl (hsev j)
      | signalled => exact Or.inr ⟨hd, by simp [Core.rank, hpc, he]⟩

theorem CoreMove.taken {i : C} {c d : Core T} {a : Step C T} {t : T} (h : CoreMove i c a d)
    {ts : List T} (hpc : c.pc = .running ts) (ht : t ∈ ts) :
    (¬ a.ByCore i ∧ d.pc = .running ts) ∨
      (a = .runTask i ∧ ∃ u us, ts = u :: us ∧ d.pc = .running us) := by
  have hne : ts ≠ [] := List.ne_nil_of_mem ht
  cases h with
  | elsewhere _ hcore => exact Or.inl ⟨hcore, hpc⟩
  | ran u us h =>
    rw [hpc] at h
    exact Or.inr ⟨rfl, u, us, Pc.running.inj h, rfl⟩
  | enqueued | signalled => exact Or.inl ⟨id, hpc⟩
  | passed h | parks h => exact absurd (Pc.running.inj (hpc.symm.trans h)) hne
  | started h | polled h | returned h | interrupted h => cases hpc.symm.trans h

theorem offered {takesIrq : C → Prop} {s : Cores C T} {i : C} (h : ¬ (s.core i).Parked) :
    ∃ a, a.ByCore i ∧ enabled takesIrq s a := by
  cases hpc : (s.core i).pc with
  | init => exact ⟨.start i, rfl, hpc⟩
  | poll => exact ⟨.poll i, rfl, hpc⟩
  | running ts =>
    cases ts with
    | nil => exact ⟨.wfe i, rfl, hpc⟩
    | cons t ts => exact ⟨.runTask i, rfl, t, ts, hpc⟩
  | parked =>
    refine ⟨.wfeReturn i, rfl, hpc, ?_⟩
    by_contra he
    exact h ⟨hpc, Bool.eq_false_iff.mpr he⟩

theorem not_offered {takesIrq : C → Prop} {s : Cores C T} {i : C} (h : (s.core i).Parked)
    {a : Step C T} (ha : a.ByCore i) : ¬ enabled takesIrq s a := by
  obtain ⟨hpc, hev⟩ := h
  intro he
  cases a with
  | start j | poll j | wfe j =>
    obtain rfl : j = i := ha
    cases hpc.symm.trans he
  | runTask j =>
    obtain rfl : j = i := ha
    obtain ⟨t, ts, he⟩ := he
    cases hpc.symm.trans he
  | wfeReturn j =>
    obtain rfl : j = i := ha
    cases hev.symm.trans he.2
  | _ => exact ha

/-! ### Along a trace -/

section
variable [DecidableEq C] {takesIrq : C → Prop}

/-- At position `n` core `i` runs the task `t`. -/
def Runs (τ : Trace (cores (T := T) takesIrq)) (i : C) (t : T) (n : Nat) : Prop :=
  τ.label n = some (.runTask i) ∧ ∃ ts, ((τ.state n).core i).pc = .running (t :: ts)

variable {τ : Trace (cores (T := T) takesIrq)} {i : C}

theorem trace_core (n : Nat) {a : Step C T} (h : τ.label n = some a) :
    CoreMove i ((τ.state n).core i) a ((τ.state (n + 1)).core i) := by
  obtain ⟨he, hs⟩ := τ.moves n a h
  rw [hs]
  exact step_core he i

theorem trace_signalled (hboot : (τ.state 0).Boot) (n : Nat) : Signalled (τ.state n) := by
  obtain ⟨as, h⟩ := τ.reached n
  exact run_signalled hboot h

theorem queued_leadsTo_taken (hboot : (τ.state 0).Boot) (hcore : τ.WeaklyFair (Step.ByCore i))
    (hpender : τ.WeaklyFair (· = .pender i)) (t : T) :
    LeadsTo (fun n => t ∈ ((τ.state n).core i).runQueue)
      fun n => Taken t ((τ.state n).core i) := by
  apply LeadsTo.measure fun n => ((τ.state n).core i).rank
  intro r
  have hkeeps : ∀ n a, t ∈ ((τ.state n).core i).runQueue → τ.label n = some a →
      (Taken t ((τ.state n).core i) ∨ Taken t ((τ.state (n + 1)).core i)) ∨
        t ∈ ((τ.state (n + 1)).core i).runQueue ∧
          ((τ.state (n + 1)).core i).rank ≤ ((τ.state n).core i).rank := fun n a hq ha =>
    ((trace_core n ha).queued hq).imp_left Or.inr
  by_cases hr : r = 2
  · -- Parked: what the core waits for is the signal of the wake that filled its queue.
    subst hr
    apply hpender.descends (P := fun s => t ∈ (s.core i).runQueue)
      (f := fun s => (s.core i).rank) ?_ hkeeps
    · rintro n a rfl hq hr ha
      exact ((trace_core n ha).nearer hq (Or.inr ⟨rank_eq_two.mp hr, i, rfl⟩)).imp_left Or.inr
    · intro n hq hr
      refine ⟨.pender i, rfl, ?_⟩
      obtain ⟨hpc, hev⟩ := rank_eq_two.mp hr
      rcases trace_signalled hboot n i (List.ne_nil_of_mem hq) with hw | he | hin
      · rw [hpc] at hw
        exact hw.elim
      · cases hev.symm.trans he
      · exact hin
  · apply hcore.descends (P := fun s => t ∈ (s.core i).runQueue)
      (f := fun s => (s.core i).rank) ?_ hkeeps
    · intro n a hby hq _ ha
      exact ((trace_core n ha).nearer hq (Or.inl hby)).imp_left Or.inr
    · intro n _ hn
      exact offered fun hparked => hr (hn.symm.trans (rank_eq_two.mpr hparked))

/-- Until it is run, a task the core has taken has ever fewer before it. -/
theorem taken_step {t : T} {n : Nat} {a : Step C T} (htaken : Taken t ((τ.state n).core i))
    (ha : τ.label n = some a) :
    Runs τ i t n ∨ Taken t ((τ.state (n + 1)).core i) ∧
      ((τ.state (n + 1)).core i).rank ≤ ((τ.state n).core i).rank ∧
      (a.ByCore i → ((τ.state (n + 1)).core i).rank < ((τ.state n).core i).rank) := by
  obtain ⟨ts, hpc, ht⟩ := htaken
  rcases (trace_core n ha).taken hpc ht with ⟨hnot, hpc'⟩ | ⟨rfl, u, us, rfl, hpc'⟩
  · refine Or.inr ⟨⟨ts, hpc', ht⟩, ?_, fun hby => absurd hby hnot⟩
    simp only [Core.rank, hpc, hpc', le_refl]
  · rcases List.mem_cons.mp ht with rfl | ht
    · exact Or.inl ⟨ha, us, hpc⟩
    · have hlt : ((τ.state (n + 1)).core i).rank < ((τ.state n).core i).rank := by
        simp [Core.rank, hpc, hpc']
      exact Or.inr ⟨⟨us, hpc', ht⟩, hlt.le, fun _ => hlt⟩

theorem taken_leadsTo_runs (hcore : τ.WeaklyFair (Step.ByCore i)) (t : T) :
    LeadsTo (fun n => Taken t ((τ.state n).core i)) (Runs τ i t) := by
  apply LeadsTo.measure fun n => ((τ.state n).core i).rank
  intro r
  apply hcore.descends (P := fun s => Taken t (s.core i)) (f := fun s => (s.core i).rank)
  · rintro n ⟨ts, hpc, _⟩ _
    exact offered fun hparked => by cases hpc.symm.trans hparked.1
  · intro n a htaken ha
    rcases taken_step htaken ha with hruns | ⟨htaken', hle, _⟩
    · exact Or.inl (Or.inl hruns)
    · exact Or.inr ⟨htaken', hle⟩
  · intro n a hby htaken _ ha
    rcases taken_step htaken ha with hruns | ⟨htaken', _, hlt⟩
    · exact Or.inl (Or.inl hruns)
    · exact Or.inr ⟨htaken', hlt hby⟩

theorem queued_task_runs (hboot : (τ.state 0).Boot) (hcore : τ.WeaklyFair (Step.ByCore i))
    (hpender : τ.WeaklyFair (· = .pender i)) (t : T) :
    LeadsTo (fun n => t ∈ ((τ.state n).core i).runQueue) (Runs τ i t) :=
  (queued_leadsTo_taken hboot hcore hpender t).trans (taken_leadsTo_runs hcore t)

/-- Wherever the wake falls in the loop of the task's core, and whichever core it comes
from: if that core goes on running its loop and whoever woke it goes on to signal, the
task is run after the wake. -/
theorem woken_task_runs (takesIrq : C → Prop) (τ : Trace (cores (T := T) takesIrq))
    (hboot : (τ.state 0).Boot) (i : C) (t : T) (hcore : τ.WeaklyFair (Step.ByCore i))
    (hpender : τ.WeaklyFair (· = .pender i)) (n : Nat)
    (hwoken : τ.label n = some (.enqueue i t)) : ∃ k, n < k ∧ Runs τ i t k := by
  have hqueued : t ∈ ((τ.state (n + 1)).core i).runQueue := by
    rw [(τ.moves n _ hwoken).2]
    show t ∈ ((enqueue i t (τ.state n)).core i).runQueue
    rw [enqueue_core, set_self]
    exact List.mem_append_right _ (List.mem_singleton_self t)
  exact queued_task_runs hboot hcore hpender t (n + 1) hqueued

end

def atBoot : Cores Nat Unit := ⟨fun _ => ⟨[], false, .init⟩, []⟩

/-- Core 1's task, woken from elsewhere while core 1 is parked. -/
def wakeAndPoll : List (Step Nat Unit) :=
  [.start 1, .poll 1, .wfe 1, .enqueue 1 (), .pender 1, .wfeReturn 1, .poll 1, .runTask 1, .wfe 1]

theorem wakeAndPoll_allowed : (cores fun i : Nat => i = 0).Allowed atBoot wakeAndPoll :=
  ⟨rfl, rfl, rfl, trivial, List.mem_cons_self .., ⟨rfl, rfl⟩, rfl, ⟨(), [], rfl⟩, rfl, trivial⟩

theorem woken_task_runs_on_core1 :
    ∃ k, 3 < k ∧ Runs (.resting _ _ _ wakeAndPoll_allowed) 1 () k := by
  apply woken_task_runs _ _ (fun _ => ⟨rfl, rfl⟩) 1 ()
  · exact Trace.resting_weaklyFair _ fun _ ha => not_offered ⟨rfl, rfl⟩ ha
  · apply Trace.resting_weaklyFair
    rintro _ rfl hin
    exact absurd hin List.not_mem_nil
  · rfl

end RpiHalEmbassy.Executor
