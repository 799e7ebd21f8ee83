import RpiHalEmbassy.TimeDriver.Deadlines

/-!
# Deadlines scheduled before `init`

The driver is installed by linkage, so `schedule_wake` arms Compare 1 before
`init` has enabled its interrupt. A match then latches with nobody to service
it, and `init` clears it without asking the queue: a deadline that only the
flag still covered is covered by nothing afterwards.
-/

namespace RpiHalEmbassy.TimeDriver
open Machines

variable {W : Type} {Q : Queue W}

/-- Until `init` the interrupt is off, so only the other two events happen. -/
def beforeInit (Q : Queue W) : Machine (Driver Q) (Event W) :=
  (driver Q).restrict fun _ e => e matches .tick | .scheduleWake ..

instance (d : Driver Q) (e : Event W) : Decidable ((beforeInit Q).enabled d e) :=
  inferInstanceAs (Decidable (_ ∧ _))

def SystemTimer.MatchAhead (t : SystemTimer) (e : UInt64) : Prop :=
  ∃ m, t.nowMicros.toNat < m ∧ m ≤ e.toNat ∧ m % 2 ^ 32 = t.c1

/-- No match latched before `init`, or every finite deadline queued by then has
another one ahead of it. -/
def Driver.InitSafe (d : Driver Q) : Prop :=
  d.timer.matched = false ∨
    ∀ w e, (w, e) ∈ Q.entries d.queue → e ≠ u64Max → d.timer.MatchAhead e

theorem covered_of_empty {d : Driver Q} (h : Q.entries d.queue = []) : d.Covered := by
  intro w e he
  rw [h] at he
  cases he

theorem beforeInit_covered {boot d : Driver Q} {es : List (Event W)}
    (hempty : Q.entries boot.queue = []) (h : (beforeInit Q).Run boot es d) : d.Covered :=
  run_covered (covered_of_empty hempty) h.of_restrict

theorem init_covered_iff {d : Driver Q} (hd : d.Covered) : d.init.Covered ↔ d.InitSafe := by
  have hcleared : d.init.timer.matched = false := rfl
  constructor
  · intro h
    apply Or.inr
    intro w e he hfin
    rcases h w e he hfin with hflag | hahead
    · rw [hcleared] at hflag
      cases hflag
    · exact hahead
  · intro h w e he hfin
    apply Or.inr
    rcases h with hflag | hahead
    · -- With the flag clear, what covered the deadline before `init` was the compare itself.
      rcases hd w e he hfin with hmatched | hm
      · rw [hflag] at hmatched
        cases hmatched
      · exact hm
    · exact hahead w e he hfin

theorem deadlines_kept_across_init_iff (boot d : Driver Q) (hempty : Q.entries boot.queue = [])
    (before : List (Event W)) (h : (beforeInit Q).Run boot before d) :
    (∀ after d', (driver Q).Run d.init after d' →
      ∀ w e, (w, e) ∈ Q.entries d'.queue → e ≠ u64Max →
        d'.timer.matched = true ∨
          ∃ t, d'.timer.nowMicros.toNat < t ∧ t ≤ e.toNat ∧ t % 2 ^ 32 = d'.timer.c1) ↔
      d.InitSafe := by
  have hd := beforeInit_covered hempty h
  constructor
  · intro hkept
    exact (init_covered_iff hd).mp fun w e he hfin => hkept [] d.init .nil w e he hfin
  · intro hsafe after d' hafter
    exact run_covered ((init_covered_iff hd).mpr hsafe) hafter

/-- Scheduled for 3 at 0, matched at 3, and then `init`. -/
theorem deadline_lost_in_init :
    ∃ boot d : Driver (listQueue Nat),
      (listQueue Nat).entries boot.queue = [] ∧
      (beforeInit (listQueue Nat)).Run boot
        [.scheduleWake 3 1 [⟨⟨0, 1, 0⟩, 0⟩], .tick, .tick] d ∧
      (1, 3) ∈ (listQueue Nat).entries d.init.queue ∧
      ¬(d.init.timer.matched = true ∨
        ∃ t, d.init.timer.nowMicros.toNat < t ∧ t ≤ 3 ∧ t % 2 ^ 32 = d.init.timer.c1) := by
  have hrun := (Machine.Run.nil (m := beforeInit (listQueue Nat))
    (s := ⟨⟨0, 7, false⟩, [], false, []⟩))
    |>.snoc (.scheduleWake 3 1 [⟨⟨0, 1, 0⟩, 0⟩]) (by decide)
    |>.snoc .tick (by decide)
    |>.snoc .tick (by decide)
  refine ⟨_, _, rfl, hrun, by decide, ?_⟩
  rintro (hflag | ⟨t, hlo, hhi, _⟩)
  · revert hflag
    decide
  · have hnow : (3 : Nat) < t := hlo
    omega

/-- Scheduled for 3 at 0, and `init` at 2: the match of Compare 1 is still to come. -/
theorem deadlines_kept_across_init_iff_before_the_match :
    ∃ d : Driver (listQueue Nat),
      (beforeInit (listQueue Nat)).Run ⟨⟨0, 7, false⟩, [], false, []⟩
        [.scheduleWake 3 1 [⟨⟨0, 1, 0⟩, 0⟩], .tick] d ∧
      d.InitSafe ∧ (1, 3) ∈ (listQueue Nat).entries d.init.queue ∧
      ∀ after d', (driver (listQueue Nat)).Run d.init after d' →
        ∀ w e, (w, e) ∈ (listQueue Nat).entries d'.queue → e ≠ u64Max →
          d'.timer.matched = true ∨
            ∃ t, d'.timer.nowMicros.toNat < t ∧ t ≤ e.toNat ∧ t % 2 ^ 32 = d'.timer.c1 := by
  have hrun := (Machine.Run.nil (m := beforeInit (listQueue Nat))
    (s := ⟨⟨0, 7, false⟩, [], false, []⟩))
    |>.snoc (.scheduleWake 3 1 [⟨⟨0, 1, 0⟩, 0⟩]) (by decide)
    |>.snoc .tick (by decide)
  exact ⟨_, hrun, Or.inl (by decide), by decide,
    (deadlines_kept_across_init_iff _ _ rfl _ hrun).mpr (Or.inl (by decide))⟩

end RpiHalEmbassy.TimeDriver
