import RpiHalEmbassy.Executor.Progress

/-!
# An executor with nothing to do sleeps

A core polls because its executor has just started, because its event register was
set or because it took an interrupt, and each of these is used up by the poll. Signals
are as scarce: a wake makes one only if it finds the run queue empty, and only a poll
empties it. Not roused any more, a core comes to rest in `wfe` and stays there.
-/

namespace RpiHalEmbassy.Executor
open Machines

variable {C T : Type} [DecidableEq C]

def Step.polls (i : C) : Step C T → Bool
  | .poll j => j = i
  | _ => false

/-- `sev` rouses every core, an interrupt the one that takes it. -/
def Step.rouses (i : C) : Step C T → Bool
  | .pender _ => true
  | .interrupt j => j = i
  | _ => false

def Step.signals (i : C) : Step C T → Bool
  | .pender j => j = i
  | _ => false

def Step.wakes (i : C) : Step C T → Bool
  | .enqueue j _ => j = i
  | _ => false

/-! ### What rouses a core is used up -/

/-- The polls still to come if nothing else rouses the core. -/
def Core.due (c : Core T) : Nat :=
  match c.pc with
  | .init | .poll => c.event.toNat + 1
  | .running _ | .parked => c.event.toNat

theorem Core.due_le (c : Core T) : c.due ≤ 2 := by
  have hevent := Bool.toNat_le c.event
  unfold Core.due
  split <;> omega

theorem polls_of_not_byCore {i : C} {a : Step C T} (h : ¬ a.ByCore i) : a.polls i = false := by
  cases a with
  | poll j => exact decide_eq_false h
  | _ => rfl

theorem CoreMove.due {i : C} {c d : Core T} {a : Step C T} (h : CoreMove i c a d) :
    (a.polls i).toNat + d.due ≤ c.due + (a.rouses i).toNat := by
  cases h with
  | elsewhere _ hcore =>
    rw [polls_of_not_byCore hcore, Bool.toNat_false, Nat.zero_add]
    exact Nat.le_add_right _ _
  | enqueued task => exact Nat.le_of_eq (Nat.zero_add _)
  | signalled j =>
    have hevent := Bool.toNat_le c.event
    simp only [Step.polls, Step.rouses, Core.due]
    cases c.pc <;> simp
  | started h => simp [Step.polls, Step.rouses, Core.due, h]
  | polled h => simp [Step.polls, Step.rouses, Core.due, h]; omega
  | ran t ts h => simp [Step.polls, Step.rouses, Core.due, h]
  | passed h he => simp [Step.polls, Step.rouses, Core.due, h, he]
  | parks h he => simp [Step.polls, Step.rouses, Core.due, h, he]
  | returned h he => simp [Step.polls, Step.rouses, Core.due, h, he]
  | interrupted h => simp [Step.polls, Step.rouses, Core.due, h]

/-- The signals still to come, and the one the next wake makes if there is nothing queued. -/
def Cores.unsent (s : Cores C T) (i : C) : Nat :=
  s.signalling.count i + if (s.core i).runQueue = [] then 1 else 0

theorem enqueue_signalling (s : Cores C T) (j : C) (task : T) :
    (enqueue j task s).signalling =
      if (s.core j).runQueue = [] then j :: s.signalling else s.signalling := by
  unfold enqueue
  dsimp only
  split <;> rfl

theorem step_signalling {takesIrq : C → Prop} {s : Cores C T} {a : Step C T}
    (h : enabled takesIrq s a) (i : C) :
    (a.signals i).toNat + (step s a).signalling.count i ≤
      s.signalling.count i + (a.wakes i).toNat := by
  cases a with
  | enqueue j task =>
    simp only [step]
    rw [enqueue_signalling]
    split
    · simp [Step.signals, Step.wakes, List.count_cons]
      split <;> simp_all
    · exact (Nat.zero_add _).trans_le (Nat.le_add_right _ _)
  | pender j =>
    have hin : j ∈ s.signalling := h
    simp only [step, Step.signals, Step.wakes]
    by_cases hj : j = i
    · subst hj
      have hpos := List.count_pos_iff.mpr hin
      simp [List.count_erase_self]
      omega
    · simp [hj, List.count_erase_of_ne (Ne.symm hj)]
  | runTask j =>
    obtain ⟨t, ts, hpc⟩ := h
    simp [step, hpc, Step.signals, Step.wakes, Cores.set]
  | wfe j =>
    simp only [step]
    split <;> exact Nat.le_of_eq (Nat.zero_add _)
  | _ => exact Nat.le_of_eq (Nat.zero_add _)

theorem CoreMove.runQueue {i : C} {c d : Core T} {a : Step C T} (h : CoreMove i c a d)
    (hwakes : a.wakes i = false) (hpolls : a.polls i = false) : d.runQueue = c.runQueue := by
  cases h with
  | enqueued => exact absurd hwakes (by simp [Step.wakes])
  | polled => exact absurd hpolls (by simp [Step.polls])
  | _ => rfl

/-- Only a poll makes a further signal possible. -/
theorem step_unsent {takesIrq : C → Prop} {s : Cores C T} {a : Step C T}
    (h : enabled takesIrq s a) (i : C) :
    (a.signals i).toNat + (step s a).unsent i ≤ s.unsent i + (a.polls i).toNat := by
  have hsignalling := step_signalling h i
  have hcore := step_core h i
  unfold Cores.unsent
  cases hwakes : a.wakes i with
  | true =>
    cases a with
    | enqueue j task =>
      obtain rfl : j = i := of_decide_eq_true hwakes
      have hqueue : ((step s (.enqueue j task)).core j).runQueue ≠ [] := by
        simp only [step]
        rw [enqueue_core, set_self]
        exact List.append_ne_nil_of_right_ne_nil _ (List.cons_ne_nil _ _)
      rw [if_neg hqueue]
      simp only [step, enqueue_signalling, Step.signals, Step.polls, Bool.toNat_false]
      split
      · rw [List.count_cons_self]
        omega
      · omega
    | _ => cases hwakes
  | false =>
    rw [hwakes, Bool.toNat_false] at hsignalling
    cases hpolls : a.polls i with
    | true =>
      have hroom : (if ((step s a).core i).runQueue = [] then 1 else 0) ≤ 1 := by split <;> omega
      rw [Bool.toNat_true]
      omega
    | false =>
      rw [hcore.runQueue hwakes hpolls, Bool.toNat_false]
      omega

/-- An executor does not spin, however the cores are scheduled and wherever the run is
begun: the polls of a core exceed what rouses it by two at most, and each of its signals
answers to a wake and all but the first to a poll before it. -/
theorem polls_bounded (takesIrq : C → Prop) (s t : Cores C T) (as : List (Step C T))
    (h : (cores takesIrq).Run s as t) (i : C) :
    as.countP (Step.polls i) ≤ 2 + as.countP (Step.rouses i) ∧
      as.countP (Step.signals i) ≤ s.signalling.count i + as.countP (Step.wakes i) ∧
      as.countP (Step.signals i) ≤ s.signalling.count i + 1 + as.countP (Step.polls i) := by
  have hpolls := h.paid (fun u => (u.core i).due) fun u a ha => (step_core ha i).due
  have hwakes := h.paid (fun u => u.signalling.count i) fun u a ha => step_signalling ha i
  have hsignals := h.paid (fun u => u.unsent i) fun u a ha => step_unsent ha i
  have hdue := (s.core i).due_le
  have hunsent : s.unsent i ≤ s.signalling.count i + 1 := by
    unfold Cores.unsent
    split <;> omega
  exact ⟨by omega, by omega, by omega⟩

theorem polls_bounded_of_one_wake :
    ∃ t : Cores Nat Unit, (cores fun i : Nat => i = 0).Run atBoot wakeAndPoll t ∧
      wakeAndPoll.countP (Step.polls 1) = 2 ∧
      wakeAndPoll.countP (Step.polls 1) ≤ 2 + wakeAndPoll.countP (Step.rouses 1) := by
  have hrun := Machine.Run.of_allowed _ _ _ wakeAndPoll_allowed
  exact ⟨_, hrun, by decide, (polls_bounded _ _ _ _ hrun 1).1⟩

/-! ### A core left alone comes to rest -/

/-- Unless it is roused, a core's own steps bring it to its next poll, and each poll leaves
fewer to come. -/
theorem CoreMove.settles {i : C} {c d : Core T} {a : Step C T} (h : CoreMove i c a d)
    (hquiet : a.rouses i = false) :
    d.due < c.due ∨ d.due = c.due ∧ d.rank ≤ c.rank ∧ (a.ByCore i → d.rank < c.rank) := by
  have hdue := h.due
  rw [hquiet, Bool.toNat_false, Nat.add_zero] at hdue
  by_cases hcore : a.ByCore i
  · by_cases hpoll : a = .poll i
    · subst hpoll
      simp only [Step.polls, decide_true, Bool.toNat_true] at hdue
      exact Or.inl (by omega)
    · have hrank := h.rank_lt hcore hpoll
      rcases (Nat.le_of_add_left_le hdue).lt_or_eq with hlt | heq
      · exact Or.inl hlt
      · exact Or.inr ⟨heq, hrank.le, fun _ => hrank⟩
  · refine Or.inr ?_
    cases h with
    | elsewhere | enqueued => exact ⟨rfl, le_rfl, fun hby => absurd hby hcore⟩
    | signalled => cases hquiet
    | interrupted => exact absurd hquiet (by simp [Step.rouses])
    | _ => exact absurd rfl hcore

theorem CoreMove.parked {i : C} {c d : Core T} {a : Step C T} (h : CoreMove i c a d)
    (hc : c.Parked) (hquiet : a.rouses i = false) : d.Parked := by
  obtain ⟨hpc, he⟩ := hc
  cases h with
  | elsewhere | enqueued => exact ⟨hpc, he⟩
  | signalled => cases hquiet
  | interrupted => exact absurd hquiet (by simp [Step.rouses])
  | returned _ hevent => cases he.symm.trans hevent
  | started h | polled h | ran _ _ h | passed h | parks h => cases hpc.symm.trans h

theorem quiet_leadsTo_parked {takesIrq : C → Prop} {τ : Trace (cores (T := T) takesIrq)} {i : C}
    (hcore : τ.WeaklyFair (Step.ByCore i))
    (hquiet : ∀ n a, τ.label n = some a → a.rouses i = false) :
    LeadsTo (fun _ => True) fun n => ((τ.state n).core i).Parked := by
  have hsettles := fun n a (ha : τ.label n = some a) => (trace_core n ha).settles (hquiet n a ha)
  apply LeadsTo.measure fun n => ((τ.state n).core i).due
  intro due
  -- With `due` polls to come, each step of the core's own brings the next of them nearer.
  suffices hpoll : LeadsTo
      (fun n => ((τ.state n).core i).due = due ∧ ¬ ((τ.state n).core i).Parked) fun n =>
      ((τ.state n).core i).Parked ∨ ((τ.state n).core i).due < due by
    intro n hn
    by_cases hparked : ((τ.state n).core i).Parked
    · exact ⟨n, le_rfl, Or.inl hparked⟩
    · obtain ⟨k, hk, hrests | hless⟩ := hpoll n ⟨hn.2, hparked⟩
      · exact ⟨k, hk, Or.inl hrests⟩
      · exact ⟨k, hk, Or.inr ⟨trivial, hless⟩⟩
  apply LeadsTo.measure fun n => ((τ.state n).core i).rank
  intro rank
  apply hcore.descends (P := fun s => (s.core i).due = due ∧ ¬ (s.core i).Parked)
    (f := fun s => (s.core i).rank)
  · exact fun n hn _ => offered hn.2
  · intro n a hn ha
    by_cases hparked : ((τ.state (n + 1)).core i).Parked
    · exact Or.inl (Or.inr (Or.inl hparked))
    · rcases hsettles n a ha with hless | ⟨hsame, hrank, _⟩
      · exact Or.inl (Or.inr (Or.inr (hn.1 ▸ hless)))
      · exact Or.inr ⟨⟨hsame.trans hn.1, hparked⟩, hrank⟩
  · intro n a hby hn _ ha
    by_cases hparked : ((τ.state (n + 1)).core i).Parked
    · exact Or.inl (Or.inr (Or.inl hparked))
    · rcases hsettles n a ha with hless | ⟨hsame, _, hrank⟩
      · exact Or.inl (Or.inr (Or.inr (hn.1 ▸ hless)))
      · exact Or.inr ⟨⟨hsame.trans hn.1, hparked⟩, hrank hby⟩

/-- Once no core signals any more and it takes no interrupt, a core that goes on running
its loop parks, and stays parked whatever is put on its run queue. -/
theorem unroused_core_parks (takesIrq : C → Prop) (τ : Trace (cores (T := T) takesIrq)) (i : C)
    (hcore : τ.WeaklyFair (Step.ByCore i)) (n : Nat)
    (hquiet : ∀ k a, n ≤ k → τ.label k = some a → a.rouses i = false) :
    ∃ k, n ≤ k ∧ ∀ m, k ≤ m → ((τ.state m).core i).Parked := by
  obtain ⟨j, _, hparked⟩ := quiet_leadsTo_parked (hcore.suffix n)
    (fun k a ha => hquiet (n + k) a (Nat.le_add_right n k) ha) 0 trivial
  refine ⟨n + j, Nat.le_add_right n j, τ.holds (P := fun s => (s.core i).Parked) hparked ?_⟩
  intro k a hk hrests ha he
  exact (step_core he i).parked hrests (hquiet k a (Nat.le_of_add_right_le hk) ha)

/-- Core 1 of the run in which its task is woken once. -/
theorem unroused_core_parks_after_its_task :
    ∃ k, 5 ≤ k ∧ ∀ m, k ≤ m →
      (((Trace.resting _ _ _ wakeAndPoll_allowed).state m).core 1).Parked := by
  apply unroused_core_parks _ _ 1
  · exact Trace.resting_weaklyFair _ fun _ ha => not_offered ⟨rfl, rfl⟩ ha
  · intro k a hk ha
    obtain ⟨j, rfl⟩ := Nat.exists_eq_add_of_le hk
    have hlate : (wakeAndPoll.drop 5)[j]? = some a := List.getElem?_drop.trans ha
    have hquiet : ∀ a ∈ wakeAndPoll.drop 5, a.rouses 1 = false := by decide
    exact hquiet a (List.mem_of_getElem? hlate)

end RpiHalEmbassy.Executor
