import RpiHalEmbassy.Executor.Cores

/-!
# No lost wake-up

What survives every interleaving: a core that has taken its run queue and finds
work on it again has its event register set, or the wake that made the queue
non-empty has still to call `__pender`.
-/

namespace RpiHalEmbassy.Executor
open Machines

variable {C T : Type} [DecidableEq C]

def Pc.WillPoll : Pc T → Prop
  | .init => True
  | .poll => True
  | _ => False

def Signalled (s : Cores C T) : Prop :=
  ∀ i, (s.core i).runQueue ≠ [] →
    (s.core i).pc.WillPoll ∨ (s.core i).event = true ∨ i ∈ s.signalling

theorem set_self (s : Cores C T) (i : C) (c : Core T) : (s.set i c).core i = c :=
  Function.update_self ..

theorem set_other (s : Cores C T) {i j : C} (c : Core T) (h : j ≠ i) :
    (s.set i c).core j = s.core j :=
  Function.update_of_ne h ..

theorem set_signalled {s : Cores C T} {i : C} {c : Core T} (h : Signalled s)
    (hc : c.runQueue ≠ [] → c.pc.WillPoll ∨ c.event = true ∨ i ∈ s.signalling) :
    Signalled (s.set i c) := by
  intro j hj
  by_cases hij : j = i
  · subst hij
    rw [set_self] at hj ⊢
    exact hc hj
  · rw [set_other s c hij] at hj ⊢
    exact h j hj

theorem enqueue_signalled {s : Cores C T} (h : Signalled s) (i : C) (task : T) :
    Signalled (enqueue i task s) := by
  unfold enqueue
  dsimp only
  split
  · intro j hj
    by_cases hij : j = i
    · exact Or.inr (Or.inr (hij ▸ List.mem_cons_self ..))
    · dsimp only at hj ⊢
      rw [set_other s _ hij] at hj ⊢
      rcases h j hj with hp | he | hs
      · exact Or.inl hp
      · exact Or.inr (Or.inl he)
      · exact Or.inr (Or.inr (List.mem_cons_of_mem _ hs))
  · next hne => exact set_signalled h fun _ => h i hne

theorem step_signalled {takesIrq : C → Prop} {s : Cores C T} (h : Signalled s) (a : Step C T)
    (ha : enabled takesIrq s a) : Signalled (step s a) := by
  cases a with
  | start i => exact set_signalled h fun _ => Or.inl trivial
  | poll i => exact set_signalled h fun hne => absurd rfl hne
  | runTask i =>
    obtain ⟨t, ts, hpc⟩ := ha
    simp only [step, hpc]
    refine set_signalled h fun hne => ?_
    rcases h i hne with hp | hrest
    · rw [hpc] at hp
      exact hp.elim
    · exact Or.inr hrest
  | wfe i =>
    simp only [step]
    split
    · exact set_signalled h fun _ => Or.inl trivial
    · refine set_signalled h fun hne => ?_
      rcases h i hne with hp | hrest
      · rw [show (s.core i).pc = .running [] from ha] at hp
        exact hp.elim
      · exact Or.inr hrest
  | wfeReturn i => exact set_signalled h fun _ => Or.inl trivial
  | interrupt i => exact set_signalled h fun _ => Or.inl trivial
  | enqueue i task => exact enqueue_signalled h i task
  | pender i => exact fun _ _ => Or.inr (Or.inl rfl)

theorem run_signalled {takesIrq : C → Prop} {s t : Cores C T} {as : List (Step C T)}
    (hs : s.Boot) (h : (cores takesIrq).Run s as t) : Signalled t :=
  h.invariant (fun i hi => absurd (hs i).2 hi) fun _ a hu ha => step_signalled hu a ha

def twoCores : Cores (Fin 2) Unit := ⟨fun _ => ⟨[], false, .init⟩, []⟩

/-- Core 1 parks, then core 0 enqueues a task of core 1's: the wake before its signal. -/
def wakeOfParked : List (Step (Fin 2) Unit) := [.start 1, .poll 1, .wfe 1, .enqueue 1 ()]

def wakeOfParkedEnd : Cores (Fin 2) Unit := wakeOfParked.foldl step twoCores

theorem wakeOfParked_run :
    (cores fun i : Fin 2 => i = 0).Run twoCores wakeOfParked wakeOfParkedEnd :=
  .cons rfl (.cons rfl (.cons rfl (.cons trivial .nil)))

/-- A core waits in `wfe` over a non-empty queue only while the wake that filled
it is between its enqueue and its `__pender`, and that `__pender` ends the wait. -/
theorem parked_only_while_signalling (takesIrq : C → Prop) (s t : Cores C T) (hs : s.Boot)
    (as : List (Step C T)) (h : (cores takesIrq).Run s as t) (i : C)
    (hp : (t.core i).Parked) (hq : (t.core i).runQueue ≠ []) :
    i ∈ t.signalling ∧ ∀ j, ¬ ((step t (.pender i)).core j).Parked := by
  refine ⟨?_, fun j hj => Bool.noConfusion hj.2⟩
  rcases run_signalled hs h i hq with hw | he | hin
  · rw [hp.1] at hw
    exact hw.elim
  · rw [hp.2] at he
    cases he
  · exact hin

theorem parked_only_while_signalling_core1 :
    (1 : Fin 2) ∈ wakeOfParkedEnd.signalling :=
  (parked_only_while_signalling (fun i : Fin 2 => i = 0) twoCores wakeOfParkedEnd
    (fun _ => ⟨rfl, rfl⟩) wakeOfParked wakeOfParked_run 1 ⟨rfl, rfl⟩ (List.cons_ne_nil _ _)).1

theorem parked_with_work_before_pender :
    ∃ t : Cores (Fin 2) Unit,
      (cores fun i : Fin 2 => i = 0).Run twoCores [.start 1, .poll 1, .wfe 1, .enqueue 1 ()] t ∧
      twoCores.Boot ∧ (t.core 1).Parked ∧ (t.core 1).runQueue ≠ [] :=
  ⟨wakeOfParkedEnd, wakeOfParked_run, fun _ => ⟨rfl, rfl⟩, ⟨rfl, rfl⟩, List.cons_ne_nil _ _⟩

end RpiHalEmbassy.Executor
