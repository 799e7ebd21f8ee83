import Mathlib.Data.UInt
import RpiHalEmbassy.Ethernet.Fifo

/-!
# Snapshots of the transmit statistics

`tx_stats` loads three atomics one after the other while `transmit_forever` may be
counting. A reader is a program counter over the three loads; any number of them move
between the steps of the loops.
-/

namespace RpiHalEmbassy.Ethernet
open Machines Net

variable {Q : Channel} {R : Type}

structure TxStats where
  frames : UInt32
  failures : UInt32
  lastError : Option TransferError

/-- What `tx_stats` returns when nothing comes between its loads. -/
def txStats (s : Statics) : TxStats where
  frames := s.txFrames
  failures := s.txFailures
  lastError := errorFromCode s.txLastError

structure TxStats.Consistent (stats : TxStats) : Prop where
  failures_le : stats.failures ≤ stats.frames
  lastError_none : stats.failures = 0 → stats.lastError = none

inductive Reader where
  | idle
  | loadedFrames (frames : UInt32)
  | loadedFailures (frames failures : UInt32)
  | returned (stats : TxStats)

/-- The next load of a call, the first one of a new call if there is none. -/
def Reader.load (s : Statics) : Reader → Reader
  | .idle => .loadedFrames s.txFrames
  | .loadedFrames frames => .loadedFailures frames s.txFailures
  | .loadedFailures frames failures =>
    .returned ⟨frames, failures, errorFromCode s.txLastError⟩
  | .returned _ => .loadedFrames s.txFrames

example (s : Statics) : ((Reader.idle.load s).load s).load s = .returned (txStats s) := rfl

/-- What a call has returned, or would if the rest of its loads came at once. -/
def Reader.snapshot (s : Statics) : Reader → Option TxStats
  | .idle => none
  | .loadedFrames frames => some { txStats s with frames := frames }
  | .loadedFailures frames failures =>
    some { txStats s with frames := frames, failures := failures }
  | .returned stats => some stats

structure Watched (Q : Channel) (R : Type) where
  world : World Q
  readers : R → Reader

inductive WatchedEvent (R : Type) where
  | loop (e : Event)
  | load (r : R)

def Watched.load [DecidableEq R] (r : R) (s : Watched Q R) : Watched Q R :=
  { s with
    readers := fun r' => if r' = r then (s.readers r).load s.world.statics else s.readers r' }

def Watched.step [DecidableEq R] (s : Watched Q R) : WatchedEvent R → Watched Q R
  | .loop e => { s with world := Ethernet.step s.world e }
  | .load r => s.load r

def Watched.start (Q : Channel) (R : Type) : Watched Q R := ⟨Ethernet.start Q, fun _ => .idle⟩

/-- Fewer than `2 ^ 32` frames are sent in a run. -/
def watched (Q : Channel) (R : Type) [DecidableEq R] : Machine (Watched Q R) (WatchedEvent R) where
  enabled s e := match e with
    | .loop e => enabled s.world e ∧ (sends (Ethernet.step s.world e).calls).length < 2 ^ 32
    | .load _ => True
  step := Watched.step

/-! ### The transmit side -/

structure TxSide where
  tx : Tx
  frames : UInt32
  failures : UInt32
  lastError : UInt8
  sent : Nat

@[simps]
def World.txSide (w : World Q) : TxSide where
  tx := w.tx
  frames := w.statics.txFrames
  failures := w.statics.txFailures
  lastError := w.statics.txLastError
  sent := (sends w.calls).length

theorem recordGap_tx (gap : UInt64) (s : Statics) :
    (recordGap gap s).txFrames = s.txFrames ∧ (recordGap gap s).txFailures = s.txFailures ∧
      (recordGap gap s).txLastError = s.txLastError := by
  unfold recordGap
  by_cases hwide : gapLongUs ≤ gap
  · simp [hwide]
  · simp [hwide]

theorem issue_txSide (now : UInt64) (w : World Q) : (issue now w).txSide = w.txSide := by
  unfold issue
  split
  · simp [World.txSide]
  · simp [World.txSide, recordGap_tx]

theorem finish_txSide (n : UInt32) (w : World Q) : (finish n w).txSide = w.txSide := by
  unfold finish
  split
  · rfl
  · split <;> rfl

theorem step_txSide {P : TxSide → Prop} {w : World Q} {e : Event} (he : enabled w e)
    (hw : P w.txSide)
    (hsubmit : ∀ frame, e = .submit → w.tx = .idle → P (submit frame w).txSide)
    (hanswer : ∀ outcome, w.tx = .sending → P (answer outcome w).txSide)
    (hadvance : e = .advance → P (advance w).txSide) : P (step w e).txSide := by
  cases e with
  | issue now => exact (issue_txSide now w).symm ▸ hw
  | complete transfer now => cases transfer <;> simpa [step, complete, World.txSide] using hw
  | deliver =>
    obtain ⟨⟨frame, rest, n, hrx⟩, _⟩ := he
    simp only [step, hrx]
    simpa [deliver, World.txSide] using hw
  | finish =>
    obtain ⟨n, hrx⟩ := he
    simp only [step, hrx]
    exact (finish_txSide n w).symm ▸ hw
  | submit =>
    obtain ⟨htx, frame, hhead⟩ := he
    simp only [step, hhead]
    exact hsubmit frame rfl htx
  | answer outcome => exact hanswer outcome he
  | advance => exact hadvance rfl
  | stackReceive =>
    simp only [step]
    split
    · exact hw
    · exact hw
  | stackTransmit frame =>
    simp only [step]
    split
    · exact hw
    · exact hw

/-! ### What the counters stand for -/

def Tx.uncounted : Tx → Nat
  | .sending => 1
  | .sent _ => 1
  | _ => 0

def Tx.refused : Tx → Nat
  | .failing _ => 1
  | _ => 0

/-- `n` frames and `k` failures are counted, and a kept error is one of these. -/
structure Tallied (r : TxSide) (n k : Nat) : Prop where
  frames : r.frames = UInt32.ofNat n
  failures : r.failures = UInt32.ofNat k
  sent : n + r.tx.uncounted = r.sent
  failures_le : k + r.tx.refused ≤ n
  storing : ∀ error, r.tx = .storing error → 0 < k
  lastError : k = 0 → errorFromCode r.lastError = none

theorem Tallied.frames_toNat {r : TxSide} {n k : Nat} (h : Tallied r n k)
    (hfew : r.sent < 2 ^ 32) : r.frames.toNat = n := by
  have hsent := h.sent
  rw [h.frames, UInt32.toNat_ofNat']
  omega

theorem Tallied.failures_toNat {r : TxSide} {n k : Nat} (h : Tallied r n k)
    (hfew : r.sent < 2 ^ 32) : r.failures.toNat = k := by
  have hsent := h.sent
  have hle := h.failures_le
  rw [h.failures, UInt32.toNat_ofNat']
  omega

def Tally (r : TxSide) : Prop := r.sent < 2 ^ 32 ∧ ∃ n k, Tallied r n k

theorem start_tally (Q : Channel) : Tally (start Q).txSide := by
  have hsent : (start Q).txSide.sent = 0 := rfl
  refine ⟨by omega, 0, 0, rfl, rfl, rfl, Nat.le_refl 0, fun _ => Tx.noConfusion, fun _ => rfl⟩

theorem advance_tallied {w : World Q} {n k : Nat} (h : Tallied w.txSide n k) :
    ∃ n k, Tallied (advance w).txSide n k := by
  obtain ⟨hframes, hfailures, hsent, hle, hstoring, hlast⟩ := h
  unfold advance
  split
  · next outcome htx =>
    simp only [World.txSide_tx, htx, Tx.uncounted, Tx.refused] at hsent hle
    have hcounted : w.statics.txFrames + 1 = UInt32.ofNat (n + 1) := by
      rw [UInt32.ofNat_add, ← show w.statics.txFrames = _ from hframes]
      rfl
    cases outcome with
    | ok _ =>
      exact ⟨n + 1, k, hcounted, hfailures, hsent, Nat.le_succ_of_le hle,
        fun _ => Tx.noConfusion, hlast⟩
    | error error =>
      exact ⟨n + 1, k, hcounted, hfailures, hsent, Nat.succ_le_succ hle,
        fun _ => Tx.noConfusion, hlast⟩
  · next error htx =>
    simp only [World.txSide_tx, htx, Tx.uncounted, Tx.refused] at hsent hle
    have hcounted : w.statics.txFailures + 1 = UInt32.ofNat (k + 1) := by
      rw [UInt32.ofNat_add, ← show w.statics.txFailures = _ from hfailures]
      rfl
    exact ⟨n, k + 1, hframes, hcounted, hsent, hle, fun _ _ => Nat.succ_pos k, fun h => by cases h⟩
  · next error htx =>
    have hpos := hstoring error htx
    simp only [World.txSide_tx, htx, Tx.uncounted, Tx.refused] at hsent hle
    exact ⟨n, k, hframes, hfailures, hsent, hle, fun _ => Tx.noConfusion, fun hzero => by omega⟩
  · next htx =>
    simp only [World.txSide_tx, htx, Tx.uncounted, Tx.refused] at hsent hle
    exact ⟨n, k, hframes, hfailures, by simpa [Tx.uncounted] using hsent, hle,
      fun _ => Tx.noConfusion, hlast⟩
  · exact ⟨n, k, hframes, hfailures, hsent, hle, hstoring, hlast⟩

theorem step_tally {w : World Q} {e : Event} (hw : Tally w.txSide) (he : enabled w e)
    (hfew : (sends (step w e).calls).length < 2 ^ 32) : Tally (step w e).txSide := by
  refine ⟨hfew, ?_⟩
  obtain ⟨_, n, k, htally⟩ := hw
  apply step_txSide he (P := fun r => ∃ n k, Tallied r n k) ⟨n, k, htally⟩
  · intro frame _ htx
    obtain ⟨hframes, hfailures, hsent, hle, _, hlast⟩ := htally
    simp only [World.txSide_tx, World.txSide_sent, htx, Tx.uncounted, Tx.refused] at hsent hle
    refine ⟨n, k, hframes, hfailures, ?_, hle, fun _ => Tx.noConfusion, hlast⟩
    simpa [submit, Tx.uncounted] using hsent
  · intro outcome htx
    obtain ⟨hframes, hfailures, hsent, hle, _, hlast⟩ := htally
    simp only [World.txSide_tx, World.txSide_sent, htx, Tx.uncounted, Tx.refused] at hsent hle
    refine ⟨n, k, hframes, hfailures, ?_, hle, fun _ => Tx.noConfusion, hlast⟩
    simpa [answer, Tx.uncounted] using hsent
  · intro _
    exact advance_tallied htally

/-! ### Which steps spoil a snapshot -/

/-- No snapshot is contradictory, nor would be if it were finished at once. -/
def Sound (s : Watched Q R) : Prop :=
  ∀ r stats, (s.readers r).snapshot s.world.statics = some stats → stats.Consistent

/-- A failure is counted while every call between its first two loads has loaded more
frames than there are failures, and an error is stored while no call that has loaded no
failures has yet to load it. -/
def Undisturbed (s : Watched Q R) : WatchedEvent R → Prop
  | .loop .advance =>
    (∀ error, s.world.tx = .failing error → ∀ r frames,
      s.readers r = .loadedFrames frames → s.world.statics.txFailures < frames) ∧
    ∀ error, s.world.tx = .storing error → ∀ r frames,
      s.readers r ≠ .loadedFailures frames 0
  | _ => True

theorem snapshot_congr {s t : Statics} (hfailures : t.txFailures = s.txFailures)
    (hlast : t.txLastError = s.txLastError) (r : Reader) : r.snapshot t = r.snapshot s := by
  cases r <;> simp [Reader.snapshot, txStats, hfailures, hlast]

theorem load_snapshot {s : Statics} (hs : (txStats s).Consistent) {r : Reader}
    (hr : ∀ stats, r.snapshot s = some stats → stats.Consistent) (stats : TxStats)
    (h : (r.load s).snapshot s = some stats) : stats.Consistent := by
  cases r with
  | idle =>
    obtain rfl := Option.some.inj h
    exact hs
  | loadedFrames frames => exact hr stats h
  | loadedFailures frames failures => exact hr stats h
  | returned _ =>
    obtain rfl := Option.some.inj h
    exact hs

theorem Tally.consistent {w : World Q} (h : Tally w.txSide) : (txStats w.statics).Consistent := by
  obtain ⟨hfew, n, k, h⟩ := h
  have hframes : w.statics.txFrames.toNat = n := h.frames_toNat hfew
  have hfailures : w.statics.txFailures.toNat = k := h.failures_toNat hfew
  have hle := h.failures_le
  constructor
  · show w.statics.txFailures ≤ w.statics.txFrames
    rw [UInt32.le_iff_toNat_le]
    omega
  · intro hzero
    have hzero : w.statics.txFailures.toNat = 0 := congrArg UInt32.toNat hzero
    exact h.lastError (by omega)

theorem step_failures_of_ne {w : World Q} {e : Event} (he : enabled w e) (hne : e ≠ .advance) :
    (step w e).statics.txFailures = w.statics.txFailures ∧
      (step w e).statics.txLastError = w.statics.txLastError := by
  have hside := step_txSide he (P := fun r => r.failures = w.statics.txFailures ∧
    r.lastError = w.statics.txLastError) ⟨rfl, rfl⟩ (fun _ _ _ => ⟨rfl, rfl⟩)
    (fun _ _ => ⟨rfl, rfl⟩) fun h => absurd h hne
  exact hside

/-- A failure counted, whatever else changes, spoils the snapshots that have loaded no
more frames than there were failures. -/
theorem sound_failing_iff {s : Watched Q R} {error : TransferError}
    (htally : Tally s.world.txSide) (hs : Sound s) (htx : s.world.tx = .failing error) :
    Sound { s with world := advance s.world } ↔
      ∀ r frames, s.readers r = .loadedFrames frames →
        s.world.statics.txFailures < frames := by
  obtain ⟨hfew, n, k, htally⟩ := htally
  have hfailures : s.world.statics.txFailures.toNat = k := htally.failures_toNat hfew
  have hsent := htally.sent
  have hle := htally.failures_le
  simp only [World.txSide_tx, htx, Tx.uncounted, Tx.refused] at hsent hle
  have hcount : (s.world.statics.txFailures + 1).toNat = s.world.statics.txFailures.toNat + 1 := by
    rw [UInt32.toNat_add, show (1 : UInt32).toNat = 1 from rfl]
    omega
  have hworld : (advance s.world).statics =
      { s.world.statics with txFailures := s.world.statics.txFailures + 1 } := by
    simp only [advance, htx]
  constructor
  · intro hsound r frames hr
    have hstats := (hsound r { txStats (advance s.world).statics with frames := frames }
      (by simp only [hr, Reader.snapshot])).failures_le
    have hle : s.world.statics.txFailures + 1 ≤ frames := by simpa [hworld, txStats] using hstats
    rw [UInt32.le_iff_toNat_le, hcount] at hle
    rw [UInt32.lt_iff_toNat_lt]
    omega
  · intro hahead r stats hstats
    have hbefore := hs r
    simp only [hworld] at hstats
    cases hr : s.readers r with
    | idle => rw [hr] at hstats; cases hstats
    | loadedFrames frames =>
      rw [hr] at hstats
      obtain rfl := Option.some.inj hstats
      have hlt := hahead r frames hr
      constructor
      · show s.world.statics.txFailures + 1 ≤ frames
        rw [UInt32.lt_iff_toNat_lt] at hlt
        rw [UInt32.le_iff_toNat_le, hcount]
        omega
      · intro hzero
        have hzero : (s.world.statics.txFailures + 1).toNat = 0 := congrArg UInt32.toNat hzero
        omega
    | loadedFailures frames failures =>
      rw [hr] at hstats hbefore
      exact hbefore stats hstats
    | returned stats' =>
      rw [hr] at hstats hbefore
      exact hbefore stats hstats

/-- An error stored spoils the snapshots that have loaded no failures, and only these:
the failure itself is counted before. -/
theorem sound_storing_iff {s : Watched Q R} {error : TransferError}
    (htally : Tally s.world.txSide) (hs : Sound s) (htx : s.world.tx = .storing error) :
    Sound { s with world := advance s.world } ↔
      ∀ r frames, s.readers r ≠ .loadedFailures frames 0 := by
  obtain ⟨hfew, n, k, htally⟩ := htally
  have hfailures : s.world.statics.txFailures.toNat = k := htally.failures_toNat hfew
  have hpos := htally.storing error htx
  have hcounted : s.world.statics.txFailures ≠ 0 := by
    intro hzero
    have hzero : s.world.statics.txFailures.toNat = 0 := congrArg UInt32.toNat hzero
    omega
  have hworld : (advance s.world).statics =
      { s.world.statics with txLastError := errorCode error } := by
    simp only [advance, htx]
  constructor
  · intro hsound r frames hr
    have hsnapshot := hsound r
      { txStats (advance s.world).statics with frames := frames, failures := 0 }
      (by simp only [hr, Reader.snapshot])
    have hnone := hsnapshot.lastError_none rfl
    rw [hworld] at hnone
    simp [txStats, errorFromCode_errorCode] at hnone
  · intro hsome r stats hstats
    have hbefore := hs r
    simp only [hworld] at hstats
    cases hr : s.readers r with
    | idle => rw [hr] at hstats; cases hstats
    | loadedFrames frames =>
      rw [hr] at hstats hbefore
      obtain rfl := Option.some.inj hstats
      exact ⟨(hbefore _ rfl).failures_le, fun hzero => absurd hzero hcounted⟩
    | loadedFailures frames failures =>
      rw [hr] at hstats hbefore
      obtain rfl := Option.some.inj hstats
      refine ⟨(hbefore _ rfl).failures_le, fun hzero => ?_⟩
      obtain rfl : failures = 0 := hzero
      exact absurd hr (hsome r frames)
    | returned stats' =>
      rw [hr] at hstats hbefore
      exact hbefore stats hstats

theorem loop_sound_of_same {s : Watched Q R} (hs : Sound s) {w : World Q}
    (hfailures : w.statics.txFailures = s.world.statics.txFailures)
    (hlast : w.statics.txLastError = s.world.statics.txLastError) :
    Sound { s with world := w } := by
  intro r stats hstats
  exact hs r stats ((snapshot_congr hfailures hlast _).symm.trans hstats)

theorem undisturbed_of_ne {s : Watched Q R} (hfailing : ∀ error, s.world.tx ≠ .failing error)
    (hstoring : ∀ error, s.world.tx ≠ .storing error) : Undisturbed s (.loop .advance) :=
  ⟨fun error h => absurd h (hfailing error), fun error h => absurd h (hstoring error)⟩

section
variable [DecidableEq R]

theorem load_sound {s : Watched Q R} (htally : Tally s.world.txSide) (hs : Sound s) (r : R) :
    Sound (s.load r) := by
  intro r' stats hstats
  by_cases hr : r' = r
  · subst hr
    simp only [Watched.load, if_true] at hstats
    exact load_snapshot htally.consistent (hs r') stats hstats
  · simp only [Watched.load, if_neg hr] at hstats
    exact hs r' stats hstats

theorem sound_step_iff {s : Watched Q R} {e : WatchedEvent R} (htally : Tally s.world.txSide)
    (hs : Sound s) (he : (watched Q R).enabled s e) : Sound (s.step e) ↔ Undisturbed s e := by
  cases e with
  | load r => exact ⟨fun _ => trivial, fun _ => load_sound htally hs r⟩
  | loop e =>
    by_cases hadvance : e = .advance
    · subst hadvance
      show Sound { s with world := advance s.world } ↔ _
      cases htx : s.world.tx with
      | idle => exact absurd htx he.1.1
      | sending => exact absurd htx he.1.2
      | failing error =>
        rw [sound_failing_iff htally hs htx]
        exact ⟨fun h => ⟨fun _ _ => h, by simp [htx]⟩, fun h => h.1 error htx⟩
      | storing error =>
        rw [sound_storing_iff htally hs htx]
        exact ⟨fun h => ⟨by simp [htx], fun _ _ => h⟩, fun h => h.2 error htx⟩
      | sent outcome =>
        have hsound : Sound { s with world := advance s.world } :=
          loop_sound_of_same hs (by simp only [advance, htx]) (by simp only [advance, htx])
        exact ⟨fun _ => undisturbed_of_ne (by simp [htx]) (by simp [htx]), fun _ => hsound⟩
      | done =>
        have hsound : Sound { s with world := advance s.world } :=
          loop_sound_of_same hs (by simp [advance, htx]) (by simp [advance, htx])
        exact ⟨fun _ => undisturbed_of_ne (by simp [htx]) (by simp [htx]), fun _ => hsound⟩
    · have hquiet : Undisturbed s (.loop e) := by
        unfold Undisturbed
        split
        · next heq => exact absurd (WatchedEvent.loop.inj heq) hadvance
        · trivial
      obtain ⟨hfailures, hlast⟩ := step_failures_of_ne he.1 hadvance
      exact ⟨fun _ => hquiet, fun _ => loop_sound_of_same hs hfailures hlast⟩

theorem step_watched_tally {s : Watched Q R} {e : WatchedEvent R} (hs : Tally s.world.txSide)
    (he : (watched Q R).enabled s e) : Tally ((watched Q R).step s e).world.txSide := by
  cases e with
  | loop e => exact step_tally hs he.1 he.2
  | load r => exact hs

theorem load_run {s t : Watched Q R} {es : List (WatchedEvent R)}
    (h : (watched Q R).Run s es t) (r : R) :
    (watched Q R).Run s (es ++ [.load r]) (t.load r) :=
  h.snoc (.load r) (show (watched Q R).enabled t (.load r) from trivial)

theorem loads_sound {s t : Watched Q R} {es : List (WatchedEvent R)}
    (h : (watched Q R).Run s es t) (hloads : ∀ e ∈ es, ∃ r, e = .load r)
    (htally : Tally s.world.txSide) (hs : Sound s) : Tally t.world.txSide ∧ Sound t := by
  induction h with
  | nil => exact ⟨htally, hs⟩
  | snoc e _ _ ih =>
    obtain ⟨hu, hsound⟩ := ih fun e he => hloads e (List.mem_append_left _ he)
    obtain ⟨r, rfl⟩ := hloads e (List.mem_append_right _ (List.mem_singleton_self e))
    exact ⟨hu, load_sound hu hsound r⟩

/-- The snapshots of a state are those its calls return when they finish at once. -/
theorem sound_iff_finished {s : Watched Q R} (htally : Tally s.world.txSide) :
    Sound s ↔ ∀ (rs : List R) t, (watched Q R).Run s (rs.map .load) t →
      ∀ r stats, t.readers r = .returned stats → stats.Consistent := by
  constructor
  · intro hs rs t ht r stats hr
    have hloads : ∀ e ∈ rs.map WatchedEvent.load, ∃ r, e = .load r := by simp
    exact (loads_sound ht hloads htally hs).2 r stats (by rw [hr]; rfl)
  · intro hfinished r stats hstats
    cases hr : s.readers r with
    | idle => rw [hr] at hstats; cases hstats
    | returned stats' =>
      rw [hr] at hstats
      obtain rfl := Option.some.inj hstats
      exact hfinished [] s .nil r _ hr
    | loadedFailures frames failures =>
      rw [hr] at hstats
      obtain rfl := Option.some.inj hstats
      exact hfinished [r] _ (load_run .nil r) r _ (by simp [Watched.load, hr, Reader.load, txStats])
    | loadedFrames frames =>
      rw [hr] at hstats
      obtain rfl := Option.some.inj hstats
      exact hfinished [r, r] _ (load_run (load_run .nil r) r) r _
        (by simp [Watched.load, hr, Reader.load, txStats])

/-- A run none of whose snapshots is contradictory, the calls still under way being
finished at any point of it, is a run that never disturbs a call. -/
theorem snapshots_consistent_iff (es : List (WatchedEvent R)) (s : Watched Q R)
    (h : (watched Q R).Run (.start Q R) es s) :
    (∀ fs t, fs <+: es → (watched Q R).Run (.start Q R) fs t →
      ∀ (rs : List R) u, (watched Q R).Run t (rs.map .load) u →
        ∀ r stats, u.readers r = .returned stats →
          stats.failures ≤ stats.frames ∧ (stats.failures = 0 → stats.lastError = none)) ↔
      ((watched Q R).restrict Undisturbed).Run (.start Q R) es s := by
  have hstart : Tally (Watched.start Q R).world.txSide := start_tally Q
  have hsound : Sound (Watched.start Q R) := fun r stats hstats => by cases hstats
  rw [← h.good_iff_restrict (P := fun s => Tally s.world.txSide) hstart
    (fun u e hu he => step_watched_tally hu he) hsound
    fun u e htally hu he => sound_step_iff htally hu he]
  have htally : ∀ fs t, (watched Q R).Run (.start Q R) fs t → Tally t.world.txSide :=
    fun fs t ht => ht.invariant (P := fun s => Tally s.world.txSide) hstart
      fun u e hu he => step_watched_tally hu he
  constructor
  · intro hall fs t hfs ht
    rw [sound_iff_finished (htally fs t ht)]
    intro rs u hu r stats hr
    obtain ⟨hle, hnone⟩ := hall fs t hfs ht rs u hu r stats hr
    exact ⟨hle, hnone⟩
  · intro hall fs t hfs ht rs u hu r stats hr
    obtain ⟨hle, hnone⟩ :=
      (sound_iff_finished (htally fs t ht)).mp (hall fs t hfs ht) rs u hu r stats hr
    exact ⟨hle, hnone⟩

theorem loop_run {s t : Watched Q R} {es : List (WatchedEvent R)}
    (h : (watched Q R).Run s es t) (e : Event) (he : enabled t.world e)
    (hfew : (sends (step t.world e).calls).length < 2 ^ 32) :
    (watched Q R).Run s (es ++ [.loop e]) (t.step (.loop e)) :=
  h.snoc (.loop e) (show (watched Q R).enabled t (.loop e) from ⟨he, hfew⟩)

end

/-- One send refused: between a call's first two loads for `true`, its last two for
`false`. -/
theorem snapshot_contradicts_itself :
    ∃ s : Watched (fifoChannel mtu 1 1) Bool, (watched _ Bool).Run (.start _ Bool)
        [.loop (.stackTransmit [7]), .load true, .load false, .load false, .loop .submit,
          .loop (.answer (.error .timeout)), .loop .advance, .loop .advance, .load true,
          .load true, .loop .advance, .load false] s ∧
      s.readers true = .returned ⟨0, 1, none⟩ ∧
      s.readers false = .returned ⟨0, 0, some .timeout⟩ ∧
      ¬(1 : UInt32) ≤ 0 := by
  have hqueued := loop_run (.nil (s := .start (fifoChannel mtu 1 1) Bool)) (.stackTransmit [7])
    trivial (by decide)
  have hfirst := load_run (load_run (load_run hqueued true) false) false
  have hsending := loop_run hfirst .submit ⟨rfl, _, rfl⟩ (by decide)
  have hrefused := loop_run hsending (.answer (.error .timeout)) rfl (by decide)
  have hcounted := loop_run hrefused .advance ⟨nofun, nofun⟩ (by decide)
  have hfailed := loop_run hcounted .advance ⟨nofun, nofun⟩ (by decide)
  have hreturned := load_run (load_run hfailed true) true
  have hstored := loop_run hreturned .advance ⟨nofun, nofun⟩ (by decide)
  exact ⟨_, load_run hstored false, rfl, rfl, by decide⟩

/-- The call begins between the two counts of a refused frame, with the first one made. -/
theorem snapshots_consistent_iff_counted_first :
    let es := [.loop (.stackTransmit [7]), .loop .submit, .loop (.answer (.error .timeout)),
      .loop .advance, .load (), .loop .advance, .load (), .load ()]
    ∃ s : Watched (fifoChannel mtu 1 1) Unit,
      ((watched _ Unit).restrict Undisturbed).Run (.start _ Unit) es s ∧
      s.readers () = .returned ⟨1, 1, none⟩ ∧
      ∀ fs t, fs <+: es → (watched _ Unit).Run (.start (fifoChannel mtu 1 1) Unit) fs t →
        ∀ (rs : List Unit) u, (watched _ Unit).Run t (rs.map .load) u →
          ∀ r stats, u.readers r = .returned stats →
            stats.failures ≤ stats.frames ∧ (stats.failures = 0 → stats.lastError = none) := by
  intro es
  have hrun := Machine.Run.of_allowed ((watched (fifoChannel mtu 1 1) Unit).restrict Undisturbed)
    (.start _ Unit) es
    ⟨⟨⟨trivial, by decide⟩, trivial⟩, ⟨⟨⟨rfl, _, rfl⟩, by decide⟩, trivial⟩,
      ⟨⟨rfl, by decide⟩, trivial⟩, ⟨⟨⟨nofun, nofun⟩, by decide⟩, nofun, nofun⟩,
      ⟨trivial, trivial⟩, ⟨⟨⟨nofun, nofun⟩, by decide⟩, ?_, nofun⟩, ⟨trivial, trivial⟩,
      ⟨trivial, trivial⟩, trivial⟩
  · exact ⟨_, hrun, rfl, (snapshots_consistent_iff _ _ hrun.of_restrict).mpr hrun⟩
  · intro error _ r frames hframes
    cases hframes
    decide

end RpiHalEmbassy.Ethernet
