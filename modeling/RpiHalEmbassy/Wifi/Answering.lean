import RpiHalEmbassy.Library.Trace
import RpiHalEmbassy.Wifi.Counters

/-!
# A stale answer does not last

A reading that was under way when a request came may be stored over it. The flag the
request sets is still up then: the runner's next turn takes it, reads the chip afresh
and stores, and what is stored behind that is later still.
-/

namespace RpiHalEmbassy.Wifi
open Machines

variable {H : Hal} {R : Type}

/-- A step of `sample_counters`. -/
def ExchangeEvent.OfRunner (e : ExchangeEvent R H) : Prop :=
  e = .swap ∨ (∃ answer, e = .read answer) ∨ e = .store

/-- What is in `COUNTERS`, or about to be, was read after the stamp. -/
structure Exchange.Since (x : Exchange R H) (began : Nat) : Prop where
  now : began < x.now
  held : ∀ reading, x.held = some reading → began < reading.began
  read : ∀ reading, x.sampling = .read reading → began < reading.began

section Trace
variable [DecidableEq R]

theorem step_now {x : Exchange R H} (e : ExchangeEvent R H) : x.now ≤ (x.step e).now := by
  cases e with
  | store =>
    simp only [Exchange.step]
    split <;> exact le_rfl
  | clear r | read answer => exact Nat.le_succ _
  | want r | swap => exact le_rfl

theorem step_since {x : Exchange R H} {began : Nat} (h : x.Since began) {e : ExchangeEvent R H} :
    (x.step e).Since began := by
  have hnow := h.now.trans_le (step_now e)
  cases e with
  | clear r => exact ⟨hnow, (fun _ hheld => by cases hheld), h.read⟩
  | want r => exact ⟨hnow, h.held, h.read⟩
  | swap =>
    refine ⟨hnow, h.held, fun reading hread => ?_⟩
    cases hwanted : x.countersWanted <;> simp [Exchange.step, hwanted] at hread
  | read answer =>
    refine ⟨hnow, h.held, fun reading hread => ?_⟩
    obtain rfl := Progress.read.inj hread
    exact h.now
  | store =>
    cases hsampling : x.sampling with
    | read reading =>
      rw [step_store hsampling]
      refine ⟨h.now, fun other hother => ?_, fun other hother => by cases hother⟩
      obtain rfl := Option.some.inj hother
      exact h.read reading hsampling
    | outside | asked => simpa only [Exchange.step, hsampling] using h

/-- Callers leave the runner where it stands, and the flag up. -/
theorem step_caller {x : Exchange R H} {e : ExchangeEvent R H} (he : ¬ e.OfRunner) :
    (x.step e).sampling = x.sampling ∧
      (x.countersWanted = true → (x.step e).countersWanted = true) := by
  cases e with
  | clear r => exact ⟨rfl, id⟩
  | want r => exact ⟨rfl, fun _ => rfl⟩
  | swap => exact absurd (Or.inl rfl) he
  | read answer => exact absurd (Or.inr (Or.inl ⟨answer, rfl⟩)) he
  | store => exact absurd (Or.inr (Or.inr rfl)) he

variable {τ : Trace (exchange R H)}

/-- The flag is up, and what the chip is read for from now on is read after the stamp. -/
structure Exchange.Asked (x : Exchange R H) (began : Nat) : Prop where
  now : began < x.now
  wanted : x.countersWanted = true

omit [DecidableEq R] in
theorem offered_outside {x : Exchange R H} (h : x.sampling = .outside) :
    ∃ e : ExchangeEvent R H, e.OfRunner ∧ x.enabled e := ⟨.swap, Or.inl rfl, h⟩

omit [DecidableEq R] in
theorem offered_asked {x : Exchange R H} (h : x.sampling = .asked) :
    ∃ e : ExchangeEvent R H, e.OfRunner ∧ x.enabled e :=
  ⟨.read (.error .txBusy), Or.inr (Or.inl ⟨_, rfl⟩), h⟩

omit [DecidableEq R] in
theorem offered_read {x : Exchange R H} {reading : Reading H} (h : x.sampling = .read reading) :
    ∃ e : ExchangeEvent R H, e.OfRunner ∧ x.enabled e :=
  ⟨.store, Or.inr (Or.inr rfl), reading, h⟩

/-- A reading under way is stored first; the flag stays up. -/
theorem overtaken_leadsTo_outside (hrunner : τ.WeaklyFair ExchangeEvent.OfRunner)
    (began : Nat) :
    LeadsTo (fun n => (τ.state n).Asked began ∧ ∃ reading, (τ.state n).sampling = .read reading)
      fun n => (τ.state n).Asked began ∧ (τ.state n).sampling = .outside := by
  apply hrunner.stage (P := fun x => x.Asked began ∧ ∃ reading, x.sampling = .read reading)
    (R := fun x => x.Asked began ∧ x.sampling = .outside)
  · rintro x ⟨_, reading, hread⟩
    exact offered_read hread
  · rintro x e ⟨hasked, reading, hread⟩ he _
    obtain ⟨hsame, hwanted⟩ := step_caller he
    exact ⟨⟨hasked.now.trans_le (step_now e), hwanted hasked.wanted⟩, reading, hsame.trans hread⟩
  · rintro x e ⟨hasked, reading, hread⟩ (rfl | ⟨answer, rfl⟩ | rfl) he
    · cases (he : x.sampling = .outside).symm.trans hread
    · cases (he : x.sampling = .asked).symm.trans hread
    · rw [show (exchange R H).step x .store = _ from step_store hread]
      exact ⟨⟨hasked.now, hasked.wanted⟩, rfl⟩

theorem outside_leadsTo_asked (hrunner : τ.WeaklyFair ExchangeEvent.OfRunner)
    (began : Nat) :
    LeadsTo (fun n => (τ.state n).Asked began ∧ (τ.state n).sampling = .outside)
      fun n => began < (τ.state n).now ∧ (τ.state n).sampling = .asked := by
  apply hrunner.stage (P := fun x => x.Asked began ∧ x.sampling = .outside)
    (R := fun x => began < x.now ∧ x.sampling = .asked)
  · rintro x ⟨_, hout⟩
    exact offered_outside hout
  · rintro x e ⟨hasked, hout⟩ he _
    obtain ⟨hsame, hwanted⟩ := step_caller he
    exact ⟨⟨hasked.now.trans_le (step_now e), hwanted hasked.wanted⟩, hsame.trans hout⟩
  · rintro x e ⟨hasked, hout⟩ (rfl | ⟨answer, rfl⟩ | rfl) he
    · refine ⟨hasked.now, ?_⟩
      simp only [exchange, Exchange.step, hasked.wanted, if_true]
    · cases hout.symm.trans he
    · obtain ⟨reading, hread⟩ := he
      cases hout.symm.trans hread

theorem asked_leadsTo_read (hrunner : τ.WeaklyFair ExchangeEvent.OfRunner)
    (began : Nat) :
    LeadsTo (fun n => began < (τ.state n).now ∧ (τ.state n).sampling = .asked)
      fun n => began < (τ.state n).now ∧
        ∃ reading, (τ.state n).sampling = .read reading ∧ began < reading.began := by
  apply hrunner.stage (P := fun x => began < x.now ∧ x.sampling = .asked)
    (R := fun x => began < x.now ∧ ∃ reading, x.sampling = .read reading ∧ began < reading.began)
  · rintro x ⟨_, hasked⟩
    exact offered_asked hasked
  · rintro x e ⟨hnow, hasked⟩ he _
    exact ⟨hnow.trans_le (step_now e), (step_caller he).1.trans hasked⟩
  · rintro x e ⟨hnow, hasked⟩ (rfl | ⟨answer, rfl⟩ | rfl) he
    · cases hasked.symm.trans he
    · exact ⟨Nat.lt_succ_of_lt hnow, _, rfl, hnow⟩
    · obtain ⟨reading, hread⟩ := he
      cases hasked.symm.trans hread

theorem read_leadsTo_stored (hrunner : τ.WeaklyFair ExchangeEvent.OfRunner)
    (began : Nat) :
    LeadsTo (fun n => began < (τ.state n).now ∧
        ∃ reading, (τ.state n).sampling = .read reading ∧ began < reading.began)
      fun n => (τ.state n).Since began ∧ ∃ reading, (τ.state n).held = some reading := by
  apply hrunner.stage
    (P := fun x => began < x.now ∧
      ∃ reading, x.sampling = .read reading ∧ began < reading.began)
    (R := fun x => x.Since began ∧ ∃ reading, x.held = some reading)
  · rintro x ⟨_, reading, hread, _⟩
    exact offered_read hread
  · rintro x e ⟨hnow, reading, hread, hlater⟩ he _
    exact ⟨hnow.trans_le (step_now e), reading, (step_caller he).1.trans hread, hlater⟩
  · rintro x e ⟨hnow, reading, hread, hlater⟩ (rfl | ⟨answer, rfl⟩ | rfl) he
    · cases (he : x.sampling = .outside).symm.trans hread
    · cases (he : x.sampling = .asked).symm.trans hread
    · rw [show (exchange R H).step x .store = _ from step_store hread]
      refine ⟨⟨hnow, fun other hother => ?_, fun other hother => by cases hother⟩, reading, rfl⟩
      obtain rfl := Option.some.inj hother
      exact hlater

/-- Every stamp a caller holds lies in the past. -/
theorem trace_stamped (hstart : τ.state 0 = .boot R H) (n : Nat) :
    ∀ r began, (τ.state n).asking r = some began → began < (τ.state n).now := by
  refine τ.always (P := fun x => ∀ r began, x.asking r = some began → began < x.now) ?_ ?_ n
  · intro r began hr
    rw [hstart] at hr
    cases hr
  · intro x e hx _ r began hr
    cases e with
    | clear q =>
      by_cases hq : r = q
      · subst hq
        have hstamp : Function.update x.asking r (some x.now) r = some began := hr
        rw [Function.update_self] at hstamp
        obtain rfl := Option.some.inj hstamp
        exact Nat.lt_succ_self _
      · exact Nat.lt_succ_of_lt (hx r began ((Function.update_of_ne hq ..).symm.trans hr))
    | want q =>
      by_cases hq : r = q
      · subst hq
        have hnone : Function.update x.asking r none r = some began := hr
        rw [Function.update_self] at hnone
        cases hnone
      · exact hx r began ((Function.update_of_ne hq ..).symm.trans hr)
    | swap => exact hx r began hr
    | read answer => exact Nat.lt_succ_of_lt (hx r began hr)
    | store =>
      refine (hx r began ?_).trans_le (step_now .store)
      cases hsampling : x.sampling <;> simpa [exchange, Exchange.step, hsampling] using hr

theorem trace_since {n k began : Nat} (h : (τ.state n).Since began) (hnk : n ≤ k) :
    (τ.state k).Since began := by
  exact τ.holds (P := fun x => x.Since began) h (fun _ _ _ ih _ _ => step_since ih) k hnk

/-- However requests, readings and stores overlap: while the runner goes on, behind every
request there comes a moment when `COUNTERS` holds a reading begun after that request, and
from then on it never again holds one begun before. -/
theorem stale_answers_end (τ : Trace (exchange R H)) (hstart : τ.state 0 = .boot R H)
    (hrunner : τ.WeaklyFair ExchangeEvent.OfRunner) (n : Nat) (r : R) (began : Nat)
    (hwant : τ.label n = some (.want r)) (hasking : (τ.state n).asking r = some began) :
    ∃ k, n < k ∧ (∃ answer, counters (τ.state k) = some answer) ∧
      ∀ m, k ≤ m → ∀ reading, (τ.state m).held = some reading → began < reading.began := by
  have hnext : τ.state (n + 1) = (τ.state n).step (.want r) := (τ.moves n _ hwant).2
  have hasked : (τ.state (n + 1)).Asked began := by
    rw [hnext]
    exact ⟨trace_stamped hstart n r began hasking, rfl⟩
  have hread := (asked_leadsTo_read hrunner began).trans (read_leadsTo_stored hrunner began)
  have hswap := (outside_leadsTo_asked hrunner began).trans hread
  obtain ⟨k, hk, hsince, reading, hheld⟩ : ∃ k, n + 1 ≤ k ∧ (τ.state k).Since began ∧
      ∃ reading, (τ.state k).held = some reading := by
    cases hsampling : (τ.state (n + 1)).sampling with
    | outside => exact hswap (n + 1) ⟨hasked, hsampling⟩
    | asked => exact hread (n + 1) ⟨hasked.now, hsampling⟩
    | read old =>
      exact (overtaken_leadsTo_outside hrunner began).trans hswap (n + 1) ⟨hasked, old, hsampling⟩
  refine ⟨k, hk, ⟨reading.answer, congrArg (Option.map Reading.answer) hheld⟩, ?_⟩
  exact fun m hm => (trace_since hsince hm).held

end Trace

/-- The second request's clear is stored over, and its own reading follows. -/
def overlapping (n : Nat) : ExchangeEvent Nat unitHal :=
  ([.clear 0, .want 0, .swap, .read (.ok ()), .clear 1, .want 1, .store, .swap, .read (.ok ()),
    .store][n]?).getD .swap

theorem stale_answers_end_after_an_overlap :
    ∃ τ : Trace (exchange Nat unitHal), τ.state 0 = .boot Nat unitHal ∧
      (τ.state 7).held = some ⟨1, .ok ()⟩ ∧
      ∃ k, 5 < k ∧ (∃ answer, counters (τ.state k) = some answer) ∧
        ∀ m, k ≤ m → ∀ reading, (τ.state m).held = some reading → 2 < reading.began := by
  have hlate : ∀ k, overlapping (10 + k) = .swap := fun k => by
    rw [overlapping, List.getElem?_eq_none (Nat.le_add_right 10 k)]
    rfl
  have hidle : ∀ k, (Trace.drive (exchange Nat unitHal) (.boot Nat unitHal) overlapping
        (10 + k)).sampling = .outside ∧
      (Trace.drive (exchange Nat unitHal) (.boot Nat unitHal) overlapping
        (10 + k)).countersWanted = false := by
    intro k
    induction k with
    | zero => exact ⟨rfl, rfl⟩
    | succ k ih =>
      rw [← Nat.add_assoc, Trace.drive_succ, hlate]
      refine ⟨?_, rfl⟩
      show (if (Trace.drive (exchange Nat unitHal) (.boot Nat unitHal) overlapping
        (10 + k)).countersWanted then Progress.asked else .outside) = Progress.outside
      rw [ih.2]
      rfl
  let τ := Trace.driven (exchange Nat unitHal) (.boot Nat unitHal) overlapping fun n => by
    rcases n with _ | _ | _ | _ | _ | _ | _ | _ | _ | _ | n
    · rfl
    · rfl
    · rfl
    · rfl
    · rfl
    · rfl
    · exact ⟨_, rfl⟩
    · rfl
    · rfl
    · exact ⟨_, rfl⟩
    · rw [show n + 1 + 1 + 1 + 1 + 1 + 1 + 1 + 1 + 1 + 1 = 10 + n by omega, hlate]
      exact (hidle n).1
  have hrunner : τ.WeaklyFair ExchangeEvent.OfRunner := fun n _ =>
    ⟨10 + n, .swap, Nat.le_add_left n 10, Or.inl rfl, congrArg some (hlate n)⟩
  exact ⟨τ, rfl, rfl, stale_answers_end τ rfl hrunner 5 1 2 rfl rfl⟩

end RpiHalEmbassy.Wifi
