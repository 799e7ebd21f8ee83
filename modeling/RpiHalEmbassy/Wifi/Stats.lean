import RpiHalEmbassy.Wifi.Pass

/-!
# What the runner reports

`rx_stats`, `tx_stats`, `link_stats`, `link`, `associated` and `passes`, read between
two passes. `observe` is what somebody watching the calls to the chip and to the stack
would note down, and the runner reports no more and no less than that.
-/

namespace RpiHalEmbassy.Wifi
open Machines Net

variable {H : Hal} {Q : Channel}

structure RxStats (H : Hal) where
  frames : UInt32
  errors : UInt32
  lastError : Option (Error H)

structure TxStats (H : Hal) where
  frames : UInt32
  busyPasses : UInt32
  failures : UInt32
  lastError : Option (Error H)

structure LinkStats where
  drops : UInt32
  joins : UInt32

def rxStats (s : Statics H) : RxStats H := ⟨s.rxFrames, s.rxErrors, s.rxLastError⟩

def txStats (s : Statics H) : TxStats H :=
  ⟨s.txFrames, s.txBusyPasses, s.txFailures, s.txLastError⟩

def linkStats (s : Statics H) : LinkStats := ⟨s.drops, s.joins⟩

/-- `rssi` is the first half of a link sample whose second has not been read yet. -/
structure Observed (H : Hal) where
  passes : UInt32
  rx : RxStats H
  tx : TxStats H
  linkStats : LinkStats
  associated : Bool
  link : Option Link
  rssi : Option (Result H Int32)

def Observed.boot (H : Hal) : Observed H :=
  ⟨0, ⟨0, 0, none⟩, ⟨0, 0, 0, none⟩, ⟨0, 0⟩, false, none, none⟩

def sampleOf {H : Hal} : Option (Result H Int32) → Result H UInt32 → Option Link
  | some (.ok rssiDbm), .ok rateKbps => some ⟨rssiDbm, rateKbps⟩
  | _, _ => none

def observe (o : Observed H) : Call H → Observed H
  | .recvEthernet (.ok (some _)) _ => { o with rx.frames := o.rx.frames + 1 }
  | .recvEthernet (.error error) _ =>
    { o with rx.errors := o.rx.errors + 1, rx.lastError := some error }
  | .sendEthernet _ (.ok ()) => { o with tx.frames := o.tx.frames + 1 }
  | .sendEthernet _ (.error .txBusy) => { o with tx.busyPasses := o.tx.busyPasses + 1 }
  | .sendEthernet _ (.error error) =>
    { o with tx.failures := o.tx.failures + 1, tx.lastError := some error }
  | .rssiDbm answer => { o with rssi := some answer }
  | .linkRateKbps answer => { o with link := sampleOf o.rssi answer }
  | .startJoin _ _ _ => { o with linkStats.joins := o.linkStats.joins + 1 }
  | .setLinkState .up => { o with associated := true }
  | .setLinkState .down =>
    { o with linkStats.drops := o.linkStats.drops + 1, associated := false, link := none }
  | _ => o

def observePass (o : Observed H) (r : Record H) : Observed H :=
  r.calls.foldl observe { o with passes := o.passes + 1 }

def World.observed (w : World H Q) : Observed H :=
  w.records.foldl observePass (w.opening.foldl observe (Observed.boot H))

structure Reports (s : Statics H) (o : Observed H) : Prop where
  passes : s.passes = o.passes
  rx : rxStats s = o.rx
  tx : txStats s = o.tx
  linkStats : linkStats s = o.linkStats
  associated : s.associated = o.associated
  link : s.link = o.link

/-- The statics report what `o` and the calls since the last cut add up to. -/
def Tracks (o : Observed H) (s : Runner H Q) : Prop := Reports s.statics (s.calls.foldl observe o)

theorem Tracks.cut {o : Observed H} {s : Runner H Q} (h : Tracks o s) :
    Tracks (s.calls.foldl observe o) s.cut := h

/-- One more call, and what goes with it in the statics. -/
theorem Tracks.step {o : Observed H} {s t : Runner H Q} {k : Call H} (h : Tracks o s)
    (hcalls : t.calls = s.calls ++ [k])
    (hstep : ∀ p, Reports s.statics p → Reports t.statics (observe p k)) : Tracks o t := by
  unfold Tracks at h ⊢
  rw [hcalls, List.foldl_append]
  exact hstep _ h

theorem Tracks.call {o : Observed H} {s : Runner H Q} {k : Call H} (h : Tracks o s)
    (hstep : ∀ p : Observed H, observe p k = p) : Tracks o (s.call k) :=
  h.step rfl fun p hp => (hstep p).symm ▸ hp

theorem deliver_tracks {o : Observed H} {s : Runner H Q} (buffer : Bytes) (len : Nat)
    (h : Tracks o s) :
    Tracks o ((s.call (.recvEthernet (.ok (some len)) buffer)).deliver buffer len) :=
  h.step rfl fun _ hp => ⟨hp.passes,
    congrArg (fun r => { r with frames := r.frames + 1 }) hp.rx, hp.tx,
    hp.linkStats, hp.associated, hp.link⟩

theorem receiveFailed_tracks {o : Observed H} {s : Runner H Q} (buffer : Bytes) (error : Error H)
    (h : Tracks o s) :
    Tracks o ((s.call (.recvEthernet (.error error) buffer)).receiveFailed error) :=
  h.step rfl fun _ hp =>
    ⟨hp.passes,
      congrArg (fun r => { r with errors := r.errors + 1, lastError := some error }) hp.rx, hp.tx,
      hp.linkStats, hp.associated, hp.link⟩

theorem receive_tracks {o : Observed H} {s : Runner H Q} (a : Answers H) (h : Tracks o s) :
    Tracks o (receive a s).2 :=
  receive_keeps (P := fun _ t => Tracks o t) h (fun _ _ _ ht _ => ht.call fun _ => rfl)
    (fun _ _ buffer len ht _ => deliver_tracks buffer len ht)
    (fun _ _ buffer error ht _ => receiveFailed_tracks buffer error ht)

/-- `TxBusy` is counted by the pass and never becomes the last error. -/
theorem transmit_tracks {o : Observed H} {s : Runner H Q} (a : Answers H) (h : Tracks o s) :
    Tracks o (transmit a s).2 := by
  have ht := transmit_step a s
  generalize transmit a s = r at ht ⊢
  cases ht with
  | nothing => exact h
  | sent =>
    exact h.step rfl fun _ hp => ⟨hp.passes, hp.rx,
      congrArg (fun r => { r with frames := r.frames + 1 }) hp.tx,
      hp.linkStats, hp.associated, hp.link⟩
  | busy =>
    exact h.step rfl fun _ hp => ⟨hp.passes, hp.rx,
      congrArg (fun r => { r with busyPasses := r.busyPasses + 1 }) hp.tx,
      hp.linkStats, hp.associated, hp.link⟩
  | failed frame fault =>
    exact h.step rfl fun _ hp => ⟨hp.passes, hp.rx,
      congrArg (fun r => { r with
        failures := r.failures + 1, lastError := some (.other fault) }) hp.tx,
      hp.linkStats, hp.associated, hp.link⟩

theorem noteTraffic_tracks {o : Observed H} {s : Runner H Q} (c : Clock) (received sent : Bool)
    (h : Tracks o s) : Tracks o (noteTraffic c received sent s) := by
  cases received with
  | true => exact h.step (k := .now c.heard) rfl fun _ hp => hp
  | false => exact h

/-- A sample is its two readings, or nothing if either failed. -/
theorem sampleLink_tracks {o : Observed H} {s : Runner H Q} (a : Answers H) (c : Clock)
    (h : Tracks o s) : Tracks o (sampleLink a c s) := by
  unfold sampleLink
  split
  · exact h
  · have hgate : Tracks o (s.call (.now c.sampleGate)) := h.call fun _ => rfl
    dsimp only
    split
    · exact hgate
    · have hdue := hgate.call (k := .now c.sampleDue) fun _ => rfl
      unfold Tracks at hdue ⊢
      simp only [Runner.call_calls, List.foldl_append, List.foldl_cons, List.foldl_nil] at hdue ⊢
      refine ⟨hdue.passes, hdue.rx, hdue.tx, hdue.linkStats, hdue.associated, ?_⟩
      cases a.rssiDbm <;> cases a.linkRateKbps <;> rfl

theorem sampleCounters_tracks {o : Observed H} {s : Runner H Q} (a : Answers H)
    (h : Tracks o s) : Tracks o (sampleCounters a s) := by
  have hc := sampleCounters_step a s
  generalize sampleCounters a s = t at hc ⊢
  cases hc with
  | unasked => exact ⟨h.passes, h.rx, h.tx, h.linkStats, h.associated, h.link⟩
  | asked =>
    exact h.step rfl fun _ hp => ⟨hp.passes, hp.rx, hp.tx, hp.linkStats, hp.associated, hp.link⟩

/-! ### The watch -/

theorem join_tracks {o : Observed H} {s : Runner H Q} (a : Answers H) (c : Clock)
    (h : Tracks o s) : Tracks o (join a c s) := by
  have hcount : ∀ (answer : Result H Unit) (ssid passphrase : String),
      Tracks o (s.countJoin.call (.startJoin ssid passphrase answer)) :=
    fun _ _ _ => h.step rfl fun _ hp => ⟨hp.passes, hp.rx, hp.tx,
      congrArg (fun r => { r with joins := r.joins + 1 }) hp.linkStats, hp.associated, hp.link⟩
  have hj := join_step a c s
  generalize join a c s = t at hj ⊢
  cases hj with
  | nothing => exact h.step (k := .now c.joinWatchDue) rfl fun _ hp => hp
  | issued reconnect =>
    have hissued := hcount (.ok ()) reconnect.ssid reconnect.passphrase
    have hdeadline := hissued.call (k := .now c.joinDeadline) fun _ => rfl
    exact hdeadline.step (k := .now c.joinDue) rfl fun _ hp => hp
  | refused reconnect error =>
    have hrefused := hcount (.error error) reconnect.ssid reconnect.passphrase
    exact hrefused.step (k := .now c.joinRetryDue) rfl fun _ hp => hp

theorem restore_tracks {o : Observed H} {s : Runner H Q} (a : Answers H) (h : Tracks o s) :
    Tracks o (restore a s) := by
  unfold restore
  cases s.watch.reconnect with
  | none => exact h
  | some reconnect =>
    have hpower := h.call (k := .setPowerManagement reconnect.powerManagement
      a.setPowerManagement) fun _ => rfl
    exact hpower.call fun _ => rfl

theorem associate_tracks {o : Observed H} {s : Runner H Q} (a : Answers H) (c : Clock)
    (h : Tracks o s) : Tracks o (associate a c s) := by
  have hup : Tracks o ((Runner.setLinkState
      ({ restore a s with statics.associated := true } : Runner H Q) .up).setState .up) :=
    (restore_tracks a h).step rfl fun _ hp => ⟨hp.passes, hp.rx, hp.tx, hp.linkStats, rfl, hp.link⟩
  exact hup.step (k := .now c.associateDue) rfl fun _ hp => hp

theorem lose_tracks {o : Observed H} {s : Runner H Q} (h : Tracks o s) : Tracks o (lose s) :=
  h.step rfl fun _ hp => ⟨hp.passes, hp.rx, hp.tx,
    congrArg (fun r => { r with drops := r.drops + 1 }) hp.linkStats, rfl, rfl⟩

theorem watchPass_tracks {o : Observed H} {s : Runner H Q} (a : Answers H) (c : Clock)
    (h : Tracks o s) : Tracks o (watchPass a c s) := by
  have hgate : Tracks o (s.call (.now c.watchGate)) := h.call fun _ => rfl
  have hsilence : Tracks o ((s.call (.now c.watchGate)).call (.now c.silenceGate)) :=
    hgate.call fun _ => rfl
  have hprobed : Tracks o (probed a c s) := hgate.call fun _ => rfl
  have hprobedUp : Tracks o (probedUp a c s) :=
    Tracks.call (hsilence.step (k := .now c.probeDue) rfl fun _ hp => hp) fun _ => rfl
  have hpolled : Tracks o (polled a c s) :=
    Tracks.call (hprobed.step (k := .now c.pollDue) rfl fun _ hp => hp) fun _ => rfl
  have hw := watchPass_step a c s
  generalize watchPass a c s = t at hw ⊢
  cases hw with
  | early => exact hgate
  | carrying => exact hsilence
  | present => exact hprobedUp
  | lost => exact join_tracks a c (lose_tracks hprobedUp)
  | landed => exact associate_tracks a c hprobed
  | waiting => exact hpolled
  | expired => exact hpolled.step (k := .now c.retryDue) rfl fun _ hp => hp
  | asked => exact join_tracks a c hprobed

/-! ### A pass, and a run -/

theorem pass_reports {o : Observed H} {s : Runner H Q} (a : Answers H) (c : Clock)
    (h : Reports s.statics o) :
    Reports (pass a c s).1.statics (observePass o (pass a c s).2) := by
  have hstart : Tracks { o with passes := o.passes + 1 } s.countPass.cut :=
    ⟨congrArg (· + 1) h.passes, h.rx, h.tx, h.linkStats, h.associated, h.link⟩
  have hdrained := (receive_tracks a hstart).cut
  have hemitted := (transmit_tracks a hdrained).cut
  have hmoved := (noteTraffic_tracks c (drained a s).1 (emitted a s).1 hemitted).cut
  have hsampled := (sampleLink_tracks a c hmoved).cut
  have hwatched := (watchPass_tracks a c hsampled).cut
  have hcounted := sampleCounters_tracks a hwatched
  simp only [observePass, Record.calls, List.foldl_append]
  exact hcounted

theorem start_reports (reconnect : Option (Reconnect H)) (o : Opening) :
    Reports (start Q reconnect o).runner.statics (start Q reconnect o).observed := by
  constructor <;> rfl

theorem step_reports {w : World H Q} (hw : Reports w.runner.statics w.observed) (e : Event H) :
    Reports (step w e).runner.statics (step w e).observed := by
  cases e with
  | stackReceive | stackTransmit =>
    simp only [step]
    split
    · exact hw
    · exact hw
  | requestCounters => exact ⟨hw.passes, hw.rx, hw.tx, hw.linkStats, hw.associated, hw.link⟩
  | pass a c =>
    have hobserved : (step w (.pass a c)).observed =
        observePass w.observed (pass a c w.runner).2 := by
      simp only [World.observed, step, List.foldl_append, List.foldl_cons, List.foldl_nil]
    rw [hobserved]
    exact pass_reports a c hw

theorem observe_passes (calls : List (Call H)) (o : Observed H) :
    (calls.foldl observe o).passes = o.passes := by
  induction calls generalizing o with
  | nil => rfl
  | cons call calls ih =>
    rw [List.foldl_cons, ih]
    unfold observe
    split <;> rfl

/-- `passes` counts the passes, modulo `2^32`. -/
theorem observed_passes (rs : List (Record H)) (o : Observed H) :
    (rs.foldl observePass o).passes = o.passes + UInt32.ofNat rs.length := by
  induction rs generalizing o with
  | nil => exact (UInt32.add_zero _).symm
  | cons r rs ih =>
    rw [List.foldl_cons, ih, observePass, observe_passes, List.length_cons, UInt32.ofNat_add,
      UInt32.add_assoc, UInt32.add_comm 1]
    rfl

/-- Between any two passes the statistics are what the trace of the calls adds up to: each
frame and each error counted once, `TxBusy` by the pass and never as an error; the last error
of each direction; the drops told and the joins issued; the link as last sampled, and no
longer there if the sample failed or the association is lost. -/
theorem stats_tell_the_trace (reconnect : Option (Reconnect H)) (o : Opening)
    (es : List (Event H)) (w : World H Q) (h : (wifi H Q).Run (start Q reconnect o) es w) :
    rxStats w.runner.statics = w.observed.rx ∧ txStats w.runner.statics = w.observed.tx ∧
      linkStats w.runner.statics = w.observed.linkStats ∧
      w.runner.statics.associated = w.observed.associated ∧
      w.runner.statics.link = w.observed.link ∧
      w.runner.statics.passes = UInt32.ofNat w.records.length := by
  have hw : Reports w.runner.statics w.observed :=
    h.invariant (P := fun w => Reports w.runner.statics w.observed) (start_reports reconnect o)
      fun _ e hu _ => step_reports hu e
  refine ⟨hw.rx, hw.tx, hw.linkStats, hw.associated, hw.link, ?_⟩
  rw [hw.passes, World.observed, observed_passes, observe_passes]
  exact UInt32.zero_add _

def telling : List (Event unitHal) :=
  [.pass hearing (.still (fromSecs 1)), .stackReceive, .stackTransmit [7],
    .pass { deadChip with sendEthernet := .error .txBusy } (.still (fromSecs 2)),
    .pass deadChip (.still (fromSecs 3)), .pass offNetwork (.still (fromSecs 30))]

/-- A frame heard, another that waits for credit and is then refused, and a drop. -/
theorem stats_tell_the_trace_of_a_drop :
    ∃ w : World unitHal (fifoChannel 1514 1 1),
      (wifi unitHal (fifoChannel 1514 1 1)).Run (powerOn none) telling w ∧
      rxStats w.runner.statics = ⟨1, 2, some (.other ())⟩ ∧
      txStats w.runner.statics = ⟨0, 1, 1, some (.other ())⟩ ∧
      linkStats w.runner.statics = ⟨1, 0⟩ ∧ w.runner.statics.passes = 4 := by
  have h := Machine.Run.of_allowed (wifi unitHal (fifoChannel 1514 1 1)) (powerOn none) telling
    ⟨Clock.still_inOrder (by decide), trivial, trivial, Clock.still_inOrder (by decide),
      Clock.still_inOrder (by decide), Clock.still_inOrder (by decide), trivial⟩
  have hw := stats_tell_the_trace none _ telling _ h
  exact ⟨_, h, hw.1.trans rfl, hw.2.1.trans rfl, hw.2.2.1.trans rfl, hw.2.2.2.2.2⟩

end RpiHalEmbassy.Wifi
