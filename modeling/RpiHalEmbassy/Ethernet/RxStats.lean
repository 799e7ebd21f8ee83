import Mathlib.Data.List.Induction
import Mathlib.Data.UInt
import RpiHalEmbassy.Ethernet.Receiving

/-!
# The receive statistics are an account

At each transfer about to be issued, the loop's own calls are the turns it has made,
and the seven statics are functions of these turns. The unusable and batched counters
go by the loop's `delivered`, which is itself a `u32`.
-/

namespace RpiHalEmbassy.Ethernet
open Machines Net

variable {Q : Channel}

/-- A transfer, the reading at its completion and the one before the next is issued. -/
structure RxTurn where
  transfer : Transfer
  completed : UInt64
  issued : UInt64

def rxDones (Q : Channel) (frames : List Bytes) : List Call :=
  frames.map fun frame => .rxDone (fitted Q frame)

def RxTurn.calls (Q : Channel) (t : RxTurn) : List Call :=
  .received t.transfer :: .now t.completed :: rxDones Q t.transfer.frames ++
    [.now t.issued, .receiveFrames]

def RxTurn.gap (t : RxTurn) : Nat := t.issued.toNat - t.completed.toNat

def history (Q : Channel) (turns : List RxTurn) : List Call :=
  .receiveFrames :: turns.flatMap (RxTurn.calls Q)

def Transfer.error? : Transfer → Option TransferError
  | .ok _ => none
  | .error error => some error

def Transfer.failed (t : Transfer) : Bool := t.error?.isSome
def Transfer.delivered (t : Transfer) : UInt32 := UInt32.ofNat t.frames.length
def Transfer.unusable (t : Transfer) : Bool := !t.failed && t.delivered == 0
def Transfer.batched (t : Transfer) : Bool := 1 < t.delivered

/-- `stats` accounts for these transfers and gaps. -/
structure Account (stats : RxStats) (ts : List Transfer) (gaps : List UInt64) : Prop where
  frames : stats.frames = UInt32.ofNat (ts.flatMap Transfer.frames).length
  unusable : stats.unusable = UInt32.ofNat (ts.countP Transfer.unusable)
  batched : stats.batched = UInt32.ofNat (ts.countP Transfer.batched)
  failures : stats.failures = UInt32.ofNat (ts.countP Transfer.failed)
  lastError : stats.lastError = (ts.filterMap Transfer.error?).getLast?
  gapMaxUs : stats.gapMaxUs.toNat = min ((gaps.map UInt64.toNat).foldl max 0) (2 ^ 32 - 1)
  gapsLong : stats.gapsLong = UInt32.ofNat (gaps.countP fun gap => gapLongUs ≤ gap)

theorem account_boot : Account (rxStats Statics.boot) [] [] := by
  constructor <;> rfl

section
variable {s : Statics} {ts : List Transfer} {gaps : List UInt64}

def saturated (gap : UInt64) : UInt32 := if gap ≤ 4294967295 then gap.toUInt32 else 4294967295

theorem saturated_toNat (gap : UInt64) : (saturated gap).toNat = min gap.toNat (2 ^ 32 - 1) := by
  unfold saturated
  by_cases hle : gap ≤ 4294967295
  · rw [if_pos hle, UInt64.toNat_toUInt32]
    have hle : gap.toNat ≤ 4294967295 := UInt64.le_iff_toNat_le.mp hle
    omega
  · rw [if_neg hle]
    have hlt : 4294967295 < gap.toNat := UInt64.lt_iff_toNat_lt.mp (UInt64.not_le.mp hle)
    show 4294967295 = _
    omega

theorem recordGap_eq (gap : UInt64) (s : Statics) :
    recordGap gap s = { s with
      gapMaxUs := max s.gapMaxUs (saturated gap)
      gapLong := s.gapLong + UInt32.ofNat (if gapLongUs ≤ gap then 1 else 0) } := by
  unfold recordGap saturated
  by_cases hwide : gapLongUs ≤ gap
  · simp only [if_pos hwide]
    rfl
  · simp only [if_neg hwide]
    rw [show UInt32.ofNat 0 = 0 from rfl, UInt32.add_zero]

theorem max_toNat (a b : UInt32) : (max a b).toNat = max a.toNat b.toNat := by
  show (if a ≤ b then b else a).toNat = _
  by_cases hle : a ≤ b
  · rw [if_pos hle, Nat.max_eq_right (UInt32.le_iff_toNat_le.mp hle)]
  · have hlt := UInt32.lt_iff_toNat_lt.mp (UInt32.not_le.mp hle)
    rw [if_neg hle, Nat.max_eq_left (Nat.le_of_lt hlt)]

theorem recordGap_account (h : Account (rxStats s) ts gaps) (gap : UInt64) :
    Account (rxStats (recordGap gap s)) ts (gaps ++ [gap]) := by
  have hmax : s.gapMaxUs.toNat = _ := h.gapMaxUs
  have hlong : s.gapLong = _ := h.gapsLong
  rw [recordGap_eq]
  refine ⟨h.frames, h.unusable, h.batched, h.failures, h.lastError, ?_, ?_⟩
  · simp only [rxStats, max_toNat, saturated_toNat, hmax, List.map_append, List.map_singleton,
      List.foldl_append, List.foldl_cons, List.foldl_nil]
    omega
  · rw [List.countP_append, List.countP_singleton, UInt32.ofNat_add, ← hlong]
    simp [rxStats]

/-- What one more transfer does to the statistics. -/
def RxStats.count (t : Transfer) (stats : RxStats) : RxStats :=
  { stats with
    frames := stats.frames + t.delivered
    unusable := stats.unusable + UInt32.ofNat (if t.unusable then 1 else 0)
    batched := stats.batched + UInt32.ofNat (if t.batched then 1 else 0)
    failures := stats.failures + UInt32.ofNat (if t.failed then 1 else 0)
    lastError := t.error?.or stats.lastError }

theorem Account.count {stats : RxStats} (h : Account stats ts gaps) (t : Transfer) :
    Account (stats.count t) (ts ++ [t]) gaps where
  frames := by
    rw [List.flatMap_append, List.length_append, UInt32.ofNat_add, ← h.frames]
    simp [RxStats.count, Transfer.delivered]
  unusable := by
    rw [List.countP_append, List.countP_singleton, UInt32.ofNat_add, ← h.unusable]
    rfl
  batched := by
    rw [List.countP_append, List.countP_singleton, UInt32.ofNat_add, ← h.batched]
    rfl
  failures := by
    rw [List.countP_append, List.countP_singleton, UInt32.ofNat_add, ← h.failures]
    rfl
  lastError := by
    rw [List.filterMap_append, List.getLast?_append, ← h.lastError]
    cases herror : t.error? <;> simp [RxStats.count, herror]
  gapMaxUs := h.gapMaxUs
  gapsLong := h.gapsLong

theorem failed_rxStats (s : Statics) (error : TransferError) :
    rxStats { s with
      rxFailures := s.rxFailures + 1
      rxLastError := errorCode error } = (rxStats s).count (.error error) := by
  have hframes : s.rxFrames + 0 = s.rxFrames := UInt32.add_zero _
  have hunusable : s.rxUnusable + 0 = s.rxUnusable := UInt32.add_zero _
  have hbatched : s.rxBatched + 0 = s.rxBatched := UInt32.add_zero _
  have hcount : (rxStats s).count (.error error) =
      { rxStats s with
        frames := s.rxFrames + 0
        unusable := s.rxUnusable + 0
        batched := s.rxBatched + 0
        failures := s.rxFailures + 1
        lastError := some error } := rfl
  rw [hcount, hframes, hunusable, hbatched]
  simp [rxStats, errorFromCode_errorCode]

theorem finish_rxStats (frames : List Bytes) (w : World Q) :
    rxStats (finish (UInt32.ofNat frames.length) w).statics =
      (rxStats w.statics).count (.ok frames) := by
  have hcount : (rxStats w.statics).count (.ok frames) =
      { rxStats w.statics with
        frames := w.statics.rxFrames + UInt32.ofNat frames.length
        unusable := w.statics.rxUnusable +
          UInt32.ofNat (if UInt32.ofNat frames.length == 0 then 1 else 0)
        batched := w.statics.rxBatched +
          UInt32.ofNat (if decide (1 < UInt32.ofNat frames.length) then 1 else 0)
        failures := w.statics.rxFailures + 0 } := rfl
  rw [hcount]
  generalize UInt32.ofNat frames.length = delivered
  unfold finish
  by_cases hzero : delivered = 0
  · simp [hzero, rxStats]
  · by_cases hmore : 1 < delivered
    · simp [hzero, hmore, rxStats]
    · simp [hzero, hmore, rxStats]

end

/-! ### Where the loop stands -/

/-- What a loop that has made `turns` finds: nothing under way, transfer `t` completed at
`c` and drained, or `done` of it committed. -/
def Counted (Q : Channel) (r : RxSide) : Prop :=
  match r.rx with
  | .receiving => ∃ turns, r.calls = history Q turns ∧
      Account r.stats (turns.map RxTurn.transfer) (turns.map fun t => t.issued - t.completed)
  | .next => (r.calls = [] ∧ r.completedAt = none ∧ Account r.stats [] []) ∨
      ∃ turns t c, r.calls =
          history Q turns ++ .received t :: .now c :: rxDones Q t.frames ∧
        r.completedAt = some c ∧
        Account r.stats (turns.map RxTurn.transfer ++ [t])
          (turns.map fun t => t.issued - t.completed)
  | .delivering rest n => ∃ turns done c, r.calls =
        history Q turns ++ .received (.ok (done ++ rest)) :: .now c :: rxDones Q done ∧
      r.completedAt = some c ∧ n = UInt32.ofNat done.length ∧
      Account r.stats (turns.map RxTurn.transfer) (turns.map fun t => t.issued - t.completed)

theorem history_snoc (turns : List RxTurn) (t : RxTurn) :
    history Q (turns ++ [t]) = history Q turns ++ t.calls Q := by
  simp [history]

theorem issue_counted {w : World Q} (hw : Counted Q w.rxSide) (now : UInt64)
    (hrx : w.rx = .next) : Counted Q (issue now w).rxSide := by
  simp only [Counted, World.rxSide, hrx] at hw
  rcases hw with ⟨hcalls, hfirst, haccount⟩ | ⟨turns, t, c, hcalls, hcompleted, haccount⟩
  · simp only [issue, hfirst]
    exact ⟨[], by simp [hcalls, history], haccount⟩
  · simp only [issue, hcompleted]
    refine ⟨turns ++ [⟨t, c, now⟩], ?_, ?_⟩
    · simp only [World.rxSide_calls, World.call_calls, rxCalls_append, rxCalls_cons, rxCalls_nil,
        Call.byReceive, if_true, hcalls, history_snoc, RxTurn.calls, List.append_assoc,
        List.cons_append, List.nil_append]
    · rw [List.map_append, List.map_append]
      exact recordGap_account haccount (now - c)

theorem complete_counted {w : World Q} (hw : Counted Q w.rxSide) (transfer : Transfer)
    (now : UInt64) (hrx : w.rx = .receiving) : Counted Q (complete transfer now w).rxSide := by
  simp only [Counted, World.rxSide, hrx] at hw
  obtain ⟨turns, hcalls, haccount⟩ := hw
  cases transfer with
  | ok frames => exact ⟨turns, [], now, by simp [complete, hcalls, rxDones], rfl, rfl, haccount⟩
  | error error =>
    refine Or.inr ⟨turns, .error error, now, by simp [complete, hcalls, rxDones], rfl, ?_⟩
    have hcount := haccount.count (.error error)
    rw [← failed_rxStats] at hcount
    exact hcount

theorem deliver_counted {w : World Q} (hw : Counted Q w.rxSide) {frame : Bytes}
    {rest : List Bytes} {n : UInt32} (hrx : w.rx = .delivering (frame :: rest) n) :
    Counted Q (deliver frame rest n w).rxSide := by
  simp only [Counted, World.rxSide, hrx] at hw
  obtain ⟨turns, done, c, hcalls, hcompleted, hn, haccount⟩ := hw
  refine ⟨turns, done ++ [frame], c, ?_, hcompleted, ?_, haccount⟩
  · simp [deliver, hcalls, rxDones, fitted]
  · rw [hn, List.length_append, UInt32.ofNat_add]
    rfl

theorem finish_counted {w : World Q} (hw : Counted Q w.rxSide) {n : UInt32}
    (hrx : w.rx = .delivering [] n) : Counted Q (finish n w).rxSide := by
  simp only [Counted, World.rxSide, hrx] at hw
  obtain ⟨turns, done, c, hcalls, hcompleted, rfl, haccount⟩ := hw
  rw [List.append_nil] at hcalls
  have hside : (finish (UInt32.ofNat done.length) w).rxSide =
      ⟨.next, w.completedAt, (rxStats w.statics).count (.ok done), rxCalls w.calls⟩ := by
    rw [← finish_rxStats]
    unfold finish
    split
    · rfl
    · split <;> rfl
  rw [hside]
  exact Or.inr ⟨turns, .ok done, c, hcalls, hcompleted, haccount.count (.ok done)⟩

theorem run_counted {es : List Event} {w : World Q} (h : (ethernet Q).Run (start Q) es w) :
    Counted Q w.rxSide := by
  have hstart : Counted Q (start Q).rxSide := Or.inl ⟨rfl, rfl, account_boot⟩
  exact h.invariant (P := fun w => Counted Q w.rxSide) hstart fun _ _ hu he =>
    step_rxSide he hu (issue_counted hu) (complete_counted hu) (fun _ _ _ => deliver_counted hu)
      fun _ => finish_counted hu

/-! ### Reading the history -/

@[simp]
def Call.now? : Call → Option UInt64
  | .now reading => some reading
  | _ => none

abbrev readings (calls : List Call) : List UInt64 := calls.filterMap Call.now?

theorem readings_rxCalls (calls : List Call) : readings (rxCalls calls) = readings calls := by
  rw [readings, rxCalls, List.filterMap_filter]
  apply List.filterMap_congr
  intro call _
  cases call <;> rfl

@[simp] theorem transfers_rxDones (frames : List Bytes) : transfers (rxDones Q frames) = [] := by
  induction frames with
  | nil => rfl
  | cons frame frames ih => exact ih

@[simp] theorem commits_rxDones (frames : List Bytes) :
    commits (rxDones Q frames) = frames.map (fitted Q) := by
  induction frames with
  | nil => rfl
  | cons frame frames ih => exact congrArg (fitted Q frame :: ·) ih

@[simp] theorem readings_rxDones (frames : List Bytes) : readings (rxDones Q frames) = [] := by
  induction frames with
  | nil => rfl
  | cons frame frames ih => exact ih

theorem transfers_history (turns : List RxTurn) :
    transfers (history Q turns) = turns.map RxTurn.transfer := by
  induction turns using List.reverseRecOn with
  | nil => rfl
  | append_singleton turns t ih =>
    rw [history_snoc, List.map_append, ← ih]
    simp [RxTurn.calls]

theorem commits_history (turns : List RxTurn) : commits (history Q turns) =
    ((turns.map RxTurn.transfer).flatMap Transfer.frames).map (fitted Q) := by
  induction turns using List.reverseRecOn with
  | nil => rfl
  | append_singleton turns t ih =>
    rw [history_snoc, List.map_append, List.flatMap_append, List.map_append, ← ih]
    simp only [RxTurn.calls, List.cons_append, List.filterMap_append, Logs.filterMap_cons_toList,
      Call.rxDone?, Option.toList_none, List.nil_append, commits_rxDones, List.filterMap_nil,
      List.append_nil, List.map_singleton, List.flatMap_cons, List.flatMap_nil]

theorem completed_le_issued {turns : List RxTurn}
    (hclock : (readings (history Q turns)).Pairwise (· ≤ ·)) {t : RxTurn} (ht : t ∈ turns) :
    t.completed ≤ t.issued := by
  have hsub : (t.calls Q).Sublist (history Q turns) := by
    unfold history
    rw [List.flatMap_def]
    exact (List.sublist_flatten_of_mem (List.mem_map_of_mem ht)).trans (List.sublist_cons_self ..)
  have hpair : (readings (t.calls Q)).Pairwise (· ≤ ·) := hclock.sublist (hsub.filterMap _)
  have hreadings : readings (t.calls Q) = [t.completed, t.issued] := by
    simp [RxTurn.calls, -Transfer.frames]
  rw [hreadings] at hpair
  exact List.pairwise_pair.mp hpair

/-! ### Transfers by what they committed -/

def Transfer.empty (t : Transfer) : Bool := !t.failed && t.frames.isEmpty
def Transfer.carried (t : Transfer) : Bool := !t.frames.isEmpty
def Transfer.several (t : Transfer) : Bool := 1 < t.frames.length

theorem delivered_toNat {t : Transfer} (h : t.frames.length < 2 ^ 32) :
    t.delivered.toNat = t.frames.length := by
  rw [Transfer.delivered, UInt32.toNat_ofNat']
  omega

theorem unusable_eq_empty {t : Transfer} (h : t.frames.length < 2 ^ 32) :
    t.unusable = t.empty := by
  have hzero : (t.delivered == 0) = t.frames.isEmpty := by
    rw [Bool.eq_iff_iff, beq_iff_eq, List.isEmpty_iff, ← List.length_eq_zero_iff,
      ← delivered_toNat h, ← UInt32.toNat_inj]
    rfl
  rw [Transfer.unusable, hzero, Transfer.empty]

theorem batched_eq_several {t : Transfer} (h : t.frames.length < 2 ^ 32) :
    t.batched = t.several := by
  rw [Transfer.batched, Transfer.several, Bool.eq_iff_iff, decide_eq_true_iff,
    decide_eq_true_iff, UInt32.lt_iff_toNat_lt, delivered_toNat h]
  rfl

/-- Every transfer is one of the three. -/
theorem failed_empty_carried (ts : List Transfer) :
    ts.length = ts.countP Transfer.failed + ts.countP Transfer.empty +
      ts.countP Transfer.carried := by
  induction ts with
  | nil => rfl
  | cons t ts ih =>
    rw [List.length_cons, ih, List.countP_cons, List.countP_cons, List.countP_cons]
    rcases t with error | _ | ⟨frame, frames⟩
    · simp [Transfer.failed, Transfer.empty, Transfer.carried, Transfer.error?]
      omega
    · simp [Transfer.failed, Transfer.empty, Transfer.carried, Transfer.error?]
      omega
    · simp [Transfer.failed, Transfer.empty, Transfer.carried, Transfer.error?]
      omega

section
variable {turns : List RxTurn}

theorem gaps_toNat (hclock : (readings (history Q turns)).Pairwise (· ≤ ·)) :
    (turns.map fun t => t.issued - t.completed).map UInt64.toNat = turns.map RxTurn.gap := by
  rw [List.map_map]
  apply List.map_congr_left
  intro t ht
  exact UInt64.toNat_sub_of_le _ _ (completed_le_issued hclock ht)

theorem countP_long (hclock : (readings (history Q turns)).Pairwise (· ≤ ·)) :
    (turns.map fun t => t.issued - t.completed).countP (fun gap => gapLongUs ≤ gap) =
      turns.countP fun t => gapLongUs.toNat ≤ t.gap := by
  rw [List.countP_map]
  apply List.countP_congr
  intro t ht
  have hgap : (t.issued - t.completed).toNat = t.gap :=
    UInt64.toNat_sub_of_le _ _ (completed_le_issued hclock ht)
  simp only [Function.comp_apply, decide_eq_true_iff, UInt64.le_iff_toNat_le, hgap]

end

theorem receiving_account {w : World Q} (hw : Counted Q w.rxSide) (hrx : w.rx = .receiving) :
    ∃ turns, rxCalls w.calls = history Q turns ∧
      transfers w.calls = turns.map RxTurn.transfer ∧
      Account (rxStats w.statics) (transfers w.calls)
        (turns.map fun t => t.issued - t.completed) := by
  simp only [Counted, World.rxSide, hrx] at hw
  obtain ⟨turns, hcalls, haccount⟩ := hw
  have htransfers : transfers w.calls = turns.map RxTurn.transfer := by
    rw [← transfers_rxCalls, hcalls, transfers_history]
  exact ⟨turns, hcalls, htransfers, htransfers ▸ haccount⟩

/-- At a transfer about to be issued. The split by what a transfer committed supposes it
carried fewer than `2 ^ 32` frames, which is as far as `delivered` counts; the rest
supposes nothing. Within a delivery, the statistics are those before the transfer. -/
theorem rx_stats_account (es : List Event) (w : World Q) (h : (ethernet Q).Run (start Q) es w)
    (hclock : (readings w.calls).Pairwise (· ≤ ·)) :
    (w.rx = .receiving →
      (rxStats w.statics).frames.toNat = (commits w.calls).length % 2 ^ 32 ∧
      (rxStats w.statics).failures.toNat =
        (transfers w.calls).countP Transfer.failed % 2 ^ 32 ∧
      (rxStats w.statics).lastError =
        ((transfers w.calls).filterMap Transfer.error?).getLast? ∧
      (∃ turns, rxCalls w.calls = history Q turns ∧
        (rxStats w.statics).gapMaxUs.toNat =
          min ((turns.map RxTurn.gap).foldl max 0) (2 ^ 32 - 1) ∧
        (rxStats w.statics).gapsLong.toNat =
          turns.countP (fun t => gapLongUs.toNat ≤ t.gap) % 2 ^ 32) ∧
      ((∀ t ∈ transfers w.calls, t.frames.length < 2 ^ 32) →
        (rxStats w.statics).unusable.toNat =
          (transfers w.calls).countP Transfer.empty % 2 ^ 32 ∧
        (rxStats w.statics).batched.toNat =
          (transfers w.calls).countP Transfer.several % 2 ^ 32 ∧
        (transfers w.calls).length % 2 ^ 32 =
          ((rxStats w.statics).failures.toNat + (rxStats w.statics).unusable.toNat +
            (transfers w.calls).countP Transfer.carried) % 2 ^ 32)) ∧
    ∀ rest n, w.rx = .delivering rest n → ∃ before done,
      transfers w.calls = before ++ [.ok (done ++ rest)] ∧
      done.length ≤ (commits w.calls).length ∧
      (rxStats w.statics).frames.toNat =
        ((commits w.calls).length - done.length) % 2 ^ 32 := by
  have hw := run_counted h
  rw [← readings_rxCalls] at hclock
  constructor
  · intro hrx
    obtain ⟨turns, hcalls, htransfers, haccount⟩ := receiving_account hw hrx
    rw [hcalls] at hclock
    have hcommits : (commits w.calls).length =
        ((transfers w.calls).flatMap Transfer.frames).length := by
      rw [← commits_rxCalls, hcalls, commits_history, List.length_map, htransfers]
    have hfailures : (rxStats w.statics).failures.toNat = _ :=
      congrArg UInt32.toNat haccount.failures
    rw [UInt32.toNat_ofNat'] at hfailures
    refine ⟨?_, hfailures, haccount.lastError, ⟨turns, hcalls, ?_, ?_⟩, fun hfew => ?_⟩
    · rw [haccount.frames, UInt32.toNat_ofNat', hcommits]
    · rw [haccount.gapMaxUs, gaps_toNat hclock]
    · rw [haccount.gapsLong, UInt32.toNat_ofNat', countP_long hclock]
    · have hunusable : (rxStats w.statics).unusable.toNat =
          (transfers w.calls).countP Transfer.empty % 2 ^ 32 := by
        rw [haccount.unusable, UInt32.toNat_ofNat',
          List.countP_congr fun t ht => by rw [unusable_eq_empty (hfew t ht)]]
      refine ⟨hunusable, ?_, ?_⟩
      · rw [haccount.batched, UInt32.toNat_ofNat',
          List.countP_congr fun t ht => by rw [batched_eq_several (hfew t ht)]]
      · have hsplit := failed_empty_carried (transfers w.calls)
        omega
  · intro rest n hrx
    simp only [Counted, World.rxSide, hrx] at hw
    obtain ⟨turns, done, c, hcalls, _, _, haccount⟩ := hw
    have hcommits : (commits w.calls).length =
        ((turns.map RxTurn.transfer).flatMap Transfer.frames).length + done.length := by
      rw [← commits_rxCalls, hcalls]
      simp [commits_history, -Transfer.frames]
    refine ⟨turns.map RxTurn.transfer, done, ?_, by omega, ?_⟩
    · rw [← transfers_rxCalls, hcalls]
      simp [transfers_history, -Transfer.frames]
    · rw [haccount.frames, UInt32.toNat_ofNat', hcommits, Nat.add_sub_cancel]

/-! ### A transfer of more frames than `delivered` counts -/

/-- With room for all of them, the frames of a transfer go out one after the other. -/
theorem deliver_all {w : World Q} {frames : List Bytes} {n : UInt32}
    (hrx : w.rx = .delivering frames n)
    (hroom : (Q.rxQueue w.queues).length + frames.length ≤ Q.depthRx) :
    ∃ es v, (ethernet Q).Run w es v ∧ v.rx = .delivering [] (n + UInt32.ofNat frames.length) ∧
      v.completedAt = w.completedAt ∧ transfers v.calls = transfers w.calls ∧
      readings v.calls = readings w.calls := by
  induction frames generalizing w n with
  | nil =>
    refine ⟨[], w, .nil, ?_, rfl, rfl, rfl⟩
    rw [hrx, List.length_nil, show UInt32.ofNat 0 = 0 from rfl, UInt32.add_zero]
  | cons frame frames ih =>
    rw [List.length_cons] at hroom
    have hslot : Q.tryRxBuf w.queues = true := by
      rw [Q.tryRxBuf_iff]
      omega
    have hstep : (ethernet Q).step w .deliver = deliver frame frames n w := by
      simp only [ethernet, step, hrx]
    have hrun := Machine.Run.single (m := ethernet Q) (i := .deliver)
      (show (ethernet Q).enabled w .deliver from ⟨⟨frame, frames, n, hrx⟩, hslot⟩)
    rw [hstep] at hrun
    obtain ⟨es, v, hrest, hleft, hcompleted, htransfers, hreadings⟩ :=
      ih (w := deliver frame frames n w) (n := n + 1) rfl (by
        simp only [deliver, Q.rxQueue_rxDone _ _ _ hslot, List.length_append,
          List.length_singleton]
        omega)
    refine ⟨_, v, hrun.append hrest, ?_, hcompleted, ?_, ?_⟩
    · rw [hleft, List.length_cons, Nat.add_comm, UInt32.ofNat_add, UInt32.add_assoc]
      rfl
    · rw [htransfers]
      simp [deliver]
    · rw [hreadings]
      simp [deliver]

theorem ethernet_step {v w : World Q} {es : List Event} (h : (ethernet Q).Run v es w)
    (e : Event) (he : enabled w e) : (ethernet Q).Run v (es ++ [e]) (step w e) :=
  h.snoc e he

/-- `delivered` is back at 0 after `2 ^ 32` frames: they are counted as nothing usable. -/
theorem rx_stats_miscount_a_full_transfer :
    ∃ (es : List Event) (w : World (fifoChannel mtu (2 ^ 32) 1)),
      (ethernet _).Run (start _) es w ∧ w.rx = .receiving ∧
      (readings w.calls).Pairwise (· ≤ ·) ∧
      transfers w.calls = [.ok (List.replicate (2 ^ 32) [0])] ∧
      ¬(transfers w.calls).length % 2 ^ 32 =
        ((rxStats w.statics).failures.toNat + (rxStats w.statics).unusable.toNat +
          (transfers w.calls).countP Transfer.carried) % 2 ^ 32 := by
  generalize hframes : List.replicate (2 ^ 32) [(0 : UInt8)] = frames
  have hlen : frames.length = 2 ^ 32 := by rw [← hframes, List.length_replicate]
  have hissued := ethernet_step (.nil (s := start (fifoChannel mtu (2 ^ 32) 1))) (.issue 0) rfl
  have hcompleted := ethernet_step hissued (.complete (.ok frames) 0) rfl
  obtain ⟨es, w, hrun, hleft, hcompletedAt, htransfers, hreadings⟩ :=
    deliver_all (w := step (step (start (fifoChannel mtu (2 ^ 32) 1)) (.issue 0))
      (.complete (.ok frames) 0)) rfl (Nat.le_of_eq (by rw [hlen]; rfl))
  have hzero : w.rx = .delivering [] 0 := by
    rw [hleft, hlen]
    rfl
  have hfinished := ethernet_step (hcompleted.append hrun) .finish ⟨0, hzero⟩
  have hworld : step w .finish =
      { w with rx := .next, statics.rxUnusable := w.statics.rxUnusable + 1 } := by
    simp only [step, hzero]
    rfl
  rw [hworld] at hfinished
  have hagain := ethernet_step hfinished (.issue 0) rfl
  have hcalls : (issue 0 { w with
      rx := .next
      statics.rxUnusable := w.statics.rxUnusable + 1 }).calls =
        w.calls ++ [.now 0] ++ [.receiveFrames] := by
    simp only [issue, hcompletedAt]
    rfl
  have hreadings : readings w.calls = [0] := hreadings
  have htransfers : transfers (issue 0 { w with
      rx := .next
      statics.rxUnusable := w.statics.rxUnusable + 1 }).calls = [.ok frames] := by
    have htransfers : transfers w.calls = [.ok frames] := htransfers
    rw [hcalls]
    simp [htransfers]
  refine ⟨_, _, hagain, rfl, ?_, htransfers, ?_⟩
  · show (readings (issue 0 _).calls).Pairwise _
    rw [hcalls]
    simp [hreadings]
  · obtain ⟨turns, _, _, haccount⟩ := receiving_account (run_counted hagain) rfl
    have hnone : Transfer.unusable (.ok frames) = true := by
      simp [Transfer.unusable, Transfer.failed, Transfer.error?, Transfer.delivered, hlen]
    have hcarried : Transfer.carried (.ok frames) = true := by
      cases frames with
      | nil => cases hlen
      | cons => rfl
    rw [show transfers (step _ (.issue 0)).calls = _ from htransfers] at haccount ⊢
    rw [haccount.failures, haccount.unusable, List.countP_singleton, List.countP_singleton,
      List.countP_singleton, if_pos hnone, if_pos hcarried, List.length_singleton,
      show Transfer.failed (.ok frames) = false from rfl]
    decide

/-- A failed transfer, then one of two frames that waits for a slot between them. -/
theorem rx_stats_account_while_parked :
    ∃ w : World (fifoChannel mtu 1 2), (ethernet _).Run (start _)
        [.issue 0, .complete (.error .timeout) 5, .issue 10, .complete (.ok [[1], [2]]) 20,
          .deliver, .stackReceive, .deliver, .finish, .issue 200] w ∧
      (rxStats w.statics).lastError = some .timeout ∧
      (rxStats w.statics).frames.toNat = (commits w.calls).length % 2 ^ 32 ∧
      ∃ turns, rxCalls w.calls = history (fifoChannel mtu 1 2) turns ∧
        (rxStats w.statics).gapMaxUs.toNat =
          min ((turns.map RxTurn.gap).foldl max 0) (2 ^ 32 - 1) ∧
        (rxStats w.statics).gapsLong.toNat =
          turns.countP (fun t => gapLongUs.toNat ≤ t.gap) % 2 ^ 32 := by
  have hissued := ethernet_step (.nil (s := start (fifoChannel mtu 1 2))) (.issue 0) rfl
  have hfailed := ethernet_step hissued (.complete (.error .timeout) 5) rfl
  have hagain := ethernet_step hfailed (.issue 10) rfl
  have hreceived := ethernet_step hagain (.complete (.ok [[1], [2]]) 20) rfl
  have hparked := ethernet_step hreceived .deliver ⟨⟨_, _, _, rfl⟩, rfl⟩
  have htaken := ethernet_step hparked .stackReceive trivial
  have hdrained := ethernet_step htaken .deliver ⟨⟨_, _, _, rfl⟩, rfl⟩
  have hfinished := ethernet_step hdrained .finish ⟨_, rfl⟩
  have hrun := ethernet_step hfinished (.issue 200) rfl
  have hw := (rx_stats_account _ _ hrun (by decide)).1 rfl
  exact ⟨_, hrun, rfl, hw.1, hw.2.2.2.1⟩

end RpiHalEmbassy.Ethernet
