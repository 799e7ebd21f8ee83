import RpiHalEmbassy.TimeDriver.AlarmClock
import RpiHalEmbassy.TimeDriver.Deadlines

/-!
# What the re-arm loop costs

A section that re-arms calls `set_compare1` until a deadline is accepted, all with the
lock held, and the counter may overtake every deadline it holds. Over a run the calls
are paid for: a refused deadline has come due by the next reading, so each call but a
section's last goes with a waker woken, and each waker woken was scheduled once for it.
That a refused deadline has come due is what the driver relies on `set_compare1` for.
-/

namespace RpiHalEmbassy.TimeDriver
open Machines

section
variable {W : Type} {Q : Queue W}

theorem exec_micros {d d' : Driver Q} {e : Event W} (h : exec d e = some d') :
    d.timer.micros ≤ d'.timer.micros ∧ d'.timer1IrqEnabled = d.timer1IrqEnabled := by
  cases e with
  | tick =>
    cases Option.some.inj h
    exact ⟨Nat.le_succ _, rfl⟩
  | scheduleWake expiry w turns =>
    simp only [exec, Driver.scheduleWake] at h
    split at h
    · obtain ⟨hle, hirq, _⟩ := rearm_ahead turns _ d' h
      exact ⟨hle, hirq⟩
    · cases Option.some.inj h
      exact ⟨le_rfl, rfl⟩
  | onTimerIrq clear turns =>
    obtain ⟨hle, hirq, _⟩ := onIrq_ahead h
    exact ⟨hle, hirq⟩

/-- The deadlines `set_compare1` is asked for, one a turn. -/
def Driver.asked : List TurnTicks → Driver Q → List UInt64
  | [], _ => []
  | k :: ks, d =>
    let next := d.nextExpiration k.drain
    let armed := next.2.timer.setCompare1 next.1 k.toArmTicks
    next.1 :: if armed.1 then [] else Driver.asked ks { next.2 with timer := armed.2 }

/-- The same for the section of an event that re-arms; the others have none. -/
def rearms (d : Driver Q) : Event W → List (List UInt64)
  | .tick => []
  | .scheduleWake expiry w turns =>
    let r := Q.scheduleWake expiry w d.queue
    if r.1 then [Driver.asked turns { d with queue := r.2 }] else []
  | .onTimerIrq clear turns =>
    [Driver.asked turns { d with timer := (d.timer.elapse clear).clearCompare1Match }]

def Event.isSchedule : Event W → Bool
  | .scheduleWake .. => true
  | _ => false

/-! ### Each call but the last takes an entry out -/

theorem nextExpiration_conserves (d : Driver Q) (n : Nat) :
    (d.nextExpiration n).2.woken.length + (Q.entries (d.nextExpiration n).2.queue).length ≤
      d.woken.length + (Q.entries d.queue).length := by
  have hwoken := (Q.nextExpiration_woken (d.timer.elapse n).nowMicros d.queue).length_eq
  have hkept := (Q.nextExpiration_entries (d.timer.elapse n).nowMicros d.queue).length_le
  have hparts := (due_append_ahead (d.timer.elapse n).nowMicros (Q.entries d.queue)).length_eq
  unfold due ahead at hparts
  rw [List.length_append] at hparts
  rw [List.length_map] at hwoken
  simp only [Driver.nextExpiration, List.length_append]
  omega

theorem rearm_conserves (turns : List TurnTicks) (d d' : Driver Q)
    (h : d.rearm turns = some d') :
    d'.woken.length + (Q.entries d'.queue).length ≤
      d.woken.length + (Q.entries d.queue).length := by
  induction turns generalizing d with
  | nil => cases h
  | cons k ks ih =>
    have hnext := nextExpiration_conserves d k.drain
    simp only [Driver.rearm] at h
    split at h
    · cases Option.some.inj h
      exact hnext
    · exact (ih _ h).trans hnext

def Driver.Overdue (d : Driver Q) : Prop :=
  ∃ w e, (w, e) ∈ Q.entries d.queue ∧ e.toNat ≤ d.timer.micros

theorem nextExpiration_wakes {d : Driver Q} {n : Nat} (hdue : d.Overdue)
    (hwrap : d.timer.micros + n < 2 ^ 64) :
    d.woken.length < (d.nextExpiration n).2.woken.length := by
  obtain ⟨w, e, he, hle⟩ := hdue
  have hpos := List.length_pos_of_mem (drain_wakes he hle hwrap)
  simp only [Driver.nextExpiration, List.length_append]
  omega

theorem overdue_of_refused {d : Driver Q} {k : TurnTicks} :
    let next := d.nextExpiration k.drain
    let armed := next.2.timer.setCompare1 next.1 k.toArmTicks
    armed.1 = false → armed.2.micros < 2 ^ 64 - 1 →
      Driver.Overdue { next.2 with timer := armed.2 } := by
  intro next armed hrefused hwrap
  have hle : next.1 ≤ armed.2.nowMicros := UInt64.not_lt.mp (of_decide_eq_false hrefused)
  rw [UInt64.le_iff_toNat_le, SystemTimer.nowMicros_toNat] at hle
  have hmicros : next.1.toNat ≤ armed.2.micros := hle.trans (Nat.mod_le _ _)
  have hleast : next.1 = leastExpiry (Q.entries next.2.queue) := Q.nextExpiration_least _ _
  have hfin : leastExpiry (Q.entries next.2.queue) ≠ u64Max := by
    intro hmax
    rw [hleast, hmax] at hmicros
    have hlast : u64Max.toNat = 2 ^ 64 - 1 := rfl
    omega
  obtain ⟨w, hw⟩ := leastExpiry_mem hfin
  exact ⟨w, next.1, hleast ▸ hw, hmicros⟩

/-- A section begun with something due pays for its last call too. -/
theorem rearm_pays (turns : List TurnTicks) (d d' : Driver Q) (h : d.rearm turns = some d')
    (hwrap : d'.timer.micros < 2 ^ 64 - 1) :
    (d.asked turns).length + d.woken.length ≤ d'.woken.length + 1 ∧
      (d.Overdue → (d.asked turns).length + d.woken.length ≤ d'.woken.length) := by
  induction turns generalizing d with
  | nil => cases h
  | cons k ks ih =>
    have harm := setCompare1_micros_le (d.nextExpiration k.drain).1 k.toArmTicks
      (d.timer.elapse k.drain)
    rw [SystemTimer.elapse_micros] at harm
    have hmore : d.woken.length ≤ (d.nextExpiration k.drain).2.woken.length := by
      simp only [Driver.nextExpiration, List.length_append]
      omega
    have hfirst : d.timer.micros + k.drain < 2 ^ 64 → d.Overdue →
        d.woken.length < (d.nextExpiration k.drain).2.woken.length :=
      fun hlt hdue => nextExpiration_wakes hdue hlt
    simp only [Driver.rearm] at h
    simp only [Driver.asked]
    split at h
    · next hok =>
      cases Option.some.inj h
      have hnow := harm.trans_lt hwrap
      rw [if_pos hok, List.length_singleton]
      refine ⟨by dsimp only; omega, fun hdue => ?_⟩
      have hwakes := hfirst (by omega) hdue
      dsimp only
      omega
    · next hno =>
      have hnow := (rearm_ahead ks _ d' h).1.trans_lt hwrap
      have hoverdue := overdue_of_refused (Bool.not_eq_true _ ▸ hno) hnow
      have hrest := (ih _ h).2 hoverdue
      have hstart := harm.trans_lt hnow
      rw [if_neg hno, List.length_cons]
      dsimp only at hrest
      refine ⟨by omega, fun hdue => ?_⟩
      have hwakes := hfirst (by omega) hdue
      omega

theorem exec_pays {d d' : Driver Q} {e : Event W} (h : exec d e = some d')
    (hwrap : d'.timer.micros < 2 ^ 64 - 1) :
    (rearms d e).flatten.length + d.woken.length ≤ (rearms d e).length + d'.woken.length := by
  cases e with
  | tick =>
    cases Option.some.inj h
    exact le_rfl
  | scheduleWake expiry w turns =>
    simp only [exec, Driver.scheduleWake] at h
    simp only [rearms]
    split at h
    · next hhead =>
      have hpays := (rearm_pays turns _ d' h hwrap).1
      rw [if_pos hhead, List.flatten_singleton, List.length_singleton]
      exact hpays.trans_eq (Nat.add_comm _ _)
    · next hhead =>
      cases Option.some.inj h
      rw [if_neg hhead]
      exact le_rfl
  | onTimerIrq clear turns =>
    have hpays := (rearm_pays turns _ d' h hwrap).1
    simp only [rearms]
    rw [List.flatten_singleton, List.length_singleton]
    exact hpays.trans_eq (Nat.add_comm _ _)

theorem run_pays {d d' : Driver Q} {es : List (Event W)} (h : (driver Q).Run d es d')
    (hwrap : d'.timer.micros < 2 ^ 64 - 1) :
    ((driver Q).shown rearms d es).flatten.length + d.woken.length ≤
      ((driver Q).shown rearms d es).length + d'.woken.length := by
  refine h.shown_invariant (P := fun l u => u.timer.micros < 2 ^ 64 - 1 →
    l.flatten.length + d.woken.length ≤ l.length + u.woken.length)
    (fun _ => le_rfl) (fun l u e hpaid he hnext => ?_) hwrap
  have hexec := exec_of_enabled he
  have hstep := exec_pays hexec hnext
  have hu := hpaid ((exec_micros hexec).1.trans_lt hnext)
  rw [List.flatten_append, List.length_append, List.length_append]
  omega

end

/-! ### Each waker woken was scheduled for it -/

section
variable {W : Type} [DecidableEq W] {Q : Queue W}

theorem scheduleWake_entries_le (hQ : Q.Merges) (expiry : UInt64) (w : W) (q : Q.State) :
    (Q.entries (Q.scheduleWake expiry w q).2).length ≤ (Q.entries q).length + 1 := by
  have hkeys := congrArg List.length (listSchedule_keys expiry w (Q.entries q))
  rw [List.length_map] at hkeys
  refine (hQ.scheduleWake_entries expiry w q).length_le.trans ?_
  rw [hkeys]
  split
  · rw [List.length_map]
    exact Nat.le_succ _
  · rw [List.length_append, List.length_map, List.length_singleton]

theorem exec_queues (hQ : Q.Merges) {d d' : Driver Q} {e : Event W} (h : exec d e = some d') :
    d'.woken.length + (Q.entries d'.queue).length ≤
      d.woken.length + (Q.entries d.queue).length + e.isSchedule.toNat := by
  cases e with
  | tick =>
    cases Option.some.inj h
    exact le_rfl
  | scheduleWake expiry w turns =>
    have hone := scheduleWake_entries_le hQ expiry w d.queue
    simp only [exec, Driver.scheduleWake] at h
    simp only [Event.isSchedule, Bool.toNat_true]
    split at h
    · have hless := rearm_conserves turns _ d' h
      dsimp only at hless
      omega
    · cases Option.some.inj h
      dsimp only
      omega
  | onTimerIrq clear turns =>
    have hless := rearm_conserves turns _ d' h
    exact hless

/-- Over a run, the calls of `set_compare1` are at most the sections that re-arm and the wakers
woken; and the wakers woken and those still queued, at most those queued at first and the
calls of `schedule_wake`. -/
theorem compare1_writes_paid (hQ : Q.Merges) {d d' : Driver Q} {es : List (Event W)}
    (h : (driver Q).Run d es d') (hwrap : d'.timer.micros < 2 ^ 64 - 1) :
    ((driver Q).shown rearms d es).flatten.length + d.woken.length ≤
        ((driver Q).shown rearms d es).length + d'.woken.length ∧
      d'.woken.length + (Q.entries d'.queue).length ≤
        d.woken.length + (Q.entries d.queue).length + es.countP Event.isSchedule := by
  refine ⟨run_pays h hwrap, ?_⟩
  have hqueues : ∀ u e, (driver Q).enabled u e →
      ((fun _ => false) e).toNat + (((driver Q).step u e).woken.length +
        (Q.entries ((driver Q).step u e).queue).length) ≤
      u.woken.length + (Q.entries u.queue).length + e.isSchedule.toNat := fun u e he => by
    rw [Bool.toNat_false, Nat.zero_add]
    exact exec_queues hQ (exec_of_enabled he)
  simpa using h.paid (fun u => u.woken.length + (Q.entries u.queue).length) hqueues

end

/-- The interrupt finds the first waker due, and the counter overtakes the second while it
is being armed: five calls in four sections, and two wakers woken. -/
theorem compare1_writes_paid_overtaken :
    let boot := Driver.init (Q := listQueue Nat) ⟨⟨0, 7, true⟩, [], false, []⟩
    let es := [.scheduleWake 5 1 [⟨⟨0, 1, 0⟩, 0⟩], .scheduleWake 10 2 [⟨⟨0, 1, 0⟩, 0⟩],
      .scheduleWake 8 2 [⟨⟨0, 1, 0⟩, 0⟩], .tick, .tick,
      .onTimerIrq 1 [⟨⟨0, 4, 0⟩, 0⟩, ⟨⟨0, 1, 0⟩, 0⟩]]
    let d := es.foldl (driver (listQueue Nat)).step boot
    (driver (listQueue Nat)).shown rearms boot es = [[5], [5], [5], [8, u64Max]] ∧
      ((driver (listQueue Nat)).shown rearms boot es).flatten.length + boot.woken.length ≤
        ((driver (listQueue Nat)).shown rearms boot es).length + d.woken.length ∧
      d.woken.length + ((listQueue Nat).entries d.queue).length ≤
        boot.woken.length + ((listQueue Nat).entries boot.queue).length +
          es.countP Event.isSchedule := by
  intro boot es d
  have hrun : (driver (listQueue Nat)).Run boot es d := Machine.Run.of_allowed _ boot es
    ⟨by decide, by decide, by decide, by decide, by decide, by decide, trivial⟩
  exact ⟨by decide, compare1_writes_paid listQueue_merges hrun (by decide)⟩

end RpiHalEmbassy.TimeDriver
