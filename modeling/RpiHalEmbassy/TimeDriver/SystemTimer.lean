import Mathlib.Data.Nat.Basic
import Mathlib.Data.UInt

/-!
# The System Timer and Compare 1

The counter is 64 bits wide and free running. Compare 1 is an equality test on
its low 32 bits, and the match flag latches. `rpi_hal::timer::Timer` is not part of
this repository: `setCompare1` is an assumption, what the driver relies on that
type to do. It clamps the deadline to `2^31` ticks past a reading it takes, writes
the low word, and refuses if the counter has reached the deadline by a reading taken
after the write. The crate may leave the register and the flag otherwise after a
refusal; the loop that called it then arms again before it returns.
-/

namespace RpiHalEmbassy.TimeDriver

/-- `micros` counts ticks since reset; the counter register is its low 64 bits. -/
structure SystemTimer where
  micros : Nat
  c1 : Nat
  matched : Bool

namespace SystemTimer

def nowMicros (t : SystemTimer) : UInt64 := UInt64.ofNat t.micros

def tick (t : SystemTimer) : SystemTimer :=
  { t with
    micros := t.micros + 1
    matched := t.matched || (t.micros + 1) % 2 ^ 32 == t.c1 }

def elapse : Nat → SystemTimer → SystemTimer
  | 0, t => t
  | n + 1, t => elapse n t.tick

def clearCompare1Match (t : SystemTimer) : SystemTimer := { t with matched := false }

def maxCompare1DeltaUs : Nat := 2 ^ 31

/-- The ticks that go by before each register access of `set_compare1`. -/
structure ArmTicks where
  read : Nat
  write : Nat
  check : Nat

def setCompare1 (deadline : UInt64) (k : ArmTicks) (t : SystemTimer) : Bool × SystemTimer :=
  let t := t.elapse k.read
  let target := min deadline.toNat (t.nowMicros.toNat + maxCompare1DeltaUs)
  let t := t.elapse k.write
  let t := { t with c1 := target % 2 ^ 32 }
  let t := t.elapse k.check
  (t.nowMicros < deadline, t)

def Covers (t : SystemTimer) (e : UInt64) : Prop :=
  t.matched = true ∨ ∃ m, t.nowMicros.toNat < m ∧ m ≤ e.toNat ∧ m % 2 ^ 32 = t.c1

@[simp] theorem nowMicros_toNat (t : SystemTimer) : t.nowMicros.toNat = t.micros % 2 ^ 64 :=
  UInt64.toNat_ofNat'

@[simp] theorem elapse_micros (n : Nat) (t : SystemTimer) :
    (t.elapse n).micros = t.micros + n := by
  induction n generalizing t with
  | zero => rfl
  | succ n ih =>
    rw [elapse, ih]
    simp only [tick]
    omega

@[simp] theorem elapse_c1 (n : Nat) (t : SystemTimer) : (t.elapse n).c1 = t.c1 := by
  induction n generalizing t with
  | zero => rfl
  | succ n ih => rw [elapse, ih]; rfl

theorem covers_mono {t : SystemTimer} {e f : UInt64} (h : t.Covers e) (hef : e ≤ f) :
    t.Covers f := by
  rcases h with h | ⟨m, hlo, hhi, hm⟩
  · exact Or.inl h
  · exact Or.inr ⟨m, hlo, hhi.trans (UInt64.le_iff_toNat_le.mp hef), hm⟩

theorem tick_covers {t : SystemTimer} {e : UInt64} (h : t.Covers e) : t.tick.Covers e := by
  rcases h with h | ⟨m, hlo, hhi, hm⟩
  · exact Or.inl (by simp [tick, h])
  · have he : e.toNat < 2 ^ 64 := e.toNat_lt
    rw [nowMicros_toNat] at hlo
    by_cases hnext : m = t.micros % 2 ^ 64 + 1
    · refine Or.inl ?_
      have hlow : (t.micros + 1) % 2 ^ 32 = t.c1 := by omega
      simp only [tick, Bool.or_eq_true, beq_iff_eq]
      exact Or.inr hlow
    · refine Or.inr ⟨m, ?_, hhi, hm⟩
      rw [nowMicros_toNat]
      simp only [tick]
      omega

theorem exists_match (now c : Nat) (hc : c < 2 ^ 32) :
    ∃ m, now < m ∧ m ≤ now + 2 ^ 32 ∧ m % 2 ^ 32 = c := by
  refine ⟨now + 1 + (c + 2 ^ 32 - (now + 1) % 2 ^ 32) % 2 ^ 32, ?_, ?_, ?_⟩ <;> omega

/-- What an accepted `set_compare1` promises of a deadline `e` that lay ahead of an
earlier reading of the counter, fewer than `2^31` ticks before its last. -/
theorem setCompare1_covers {t : SystemTimer} {k : ArmTicks} {deadline e : UInt64} {since : Nat}
    (hsince : since ≤ t.micros)
    (hshort : t.micros + k.read + k.write + k.check < since + 2 ^ 31)
    (hahead : since % 2 ^ 64 < e.toNat) (hle : deadline ≤ e)
    (hok : (t.setCompare1 deadline k).1 = true) :
    (t.setCompare1 deadline k).2.Covers e := by
  have he : e.toNat < 2 ^ 64 := e.toNat_lt
  have hle' := UInt64.le_iff_toNat_le.mp hle
  have hcheck : (t.micros + k.read + k.write + k.check) % 2 ^ 64 < deadline.toNat := by
    have h := UInt64.lt_iff_toNat_lt.mp (of_decide_eq_true hok)
    simpa only [nowMicros_toNat, elapse_micros, elapse_c1] using h
  refine Or.inr ?_
  simp only [setCompare1, nowMicros_toNat, elapse_micros, elapse_c1, maxCompare1DeltaUs]
  by_cases hwrap : since % 2 ^ 64 + (t.micros + k.read + k.write + k.check - since) < 2 ^ 64
  · exact ⟨min deadline.toNat ((t.micros + k.read) % 2 ^ 64 + 2 ^ 31),
      by omega, by omega, rfl⟩
  · -- The counter passed zero meanwhile: `e` is then further off than a whole low word.
    obtain ⟨m, hlo, hhi, hm⟩ := exists_match
      ((t.micros + k.read + k.write + k.check) % 2 ^ 64)
      (min deadline.toNat ((t.micros + k.read) % 2 ^ 64 + 2 ^ 31) % 2 ^ 32)
      (Nat.mod_lt _ (Nat.two_pow_pos 32))
    exact ⟨m, hlo, by omega, hm⟩

end SystemTimer

end RpiHalEmbassy.TimeDriver
