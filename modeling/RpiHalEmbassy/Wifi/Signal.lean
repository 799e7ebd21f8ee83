import RpiHalEmbassy.Wifi.Silence

/-!
# The link sample and the association

The watch clears the sample when it records a loss. Nothing stops `sample_link`
from publishing the next one before the association is back.
-/

namespace RpiHalEmbassy.Wifi
open Machines Net

variable {H : Hal} {Q : Channel}

def Idle (s : Runner H Q) (a : Answers H) : Prop :=
  (Q.tryRxBuf s.queues = false ∨ (a.recvEthernet 0).answer = .ok none) ∧ Q.txQueue s.queues = []

theorem idle_iff (a : Answers H) (c : Clock) (s : Runner H Q) :
    ((pass a c s).2.received || (pass a c s).2.sent) = false ↔ Idle s a := by
  have hreceived : (pass a c s).2.received = (receive a s.countPass.cut).1 := rfl
  have hsent : (pass a c s).2.sent = (transmit a (receive a s.countPass.cut).2.cut).1 := rfl
  rw [Bool.or_eq_false_iff, hreceived, hsent, receive_false_iff, transmit_false_iff]
  have htx : Q.txQueue (receive a s.countPass.cut).2.cut.queues = Q.txQueue s.queues :=
    receive_txQueue a s.countPass.cut
  rw [htx]
  rfl

/-- The pass publishes a sample: the radio has been quiet, the sample is due and
the chip answers both questions. -/
def Publishes (s : Runner H Q) (a : Answers H) (c : Clock) : Prop :=
  Idle s a ∧ linkQuietPasses ≤ saturatingIncr s.quiet ∧ s.due ≤ c.sampleGate ∧
    (∃ rssiDbm, a.rssiDbm = .ok rssiDbm) ∧ ∃ rateKbps, a.linkRateKbps = .ok rateKbps

def Finds (s : Runner H Q) (a : Answers H) (c : Clock) : Prop :=
  s.watch.due ≤ c.watchGate ∧ found a.bssid = true

def SignalStands (w : World H Q) : Event H → Prop
  | .pass a c => w.runner.statics.associated = false → Publishes w.runner a c → Finds w.runner a c
  | _ => True

def NoSignalDown (w : World H Q) : Prop :=
  w.runner.statics.associated = false → w.runner.statics.link = none

theorem quiet_iff {a : Answers H} {c : Clock} {s t : Runner H Q}
    (h : Moved c s (pass a c s).2 t) :
    linkQuietPasses ≤ t.quiet ↔ Idle s a ∧ linkQuietPasses ≤ saturatingIncr s.quiet := by
  rw [h.quiet, ← idle_iff a c s]
  cases (pass a c s).2.received || (pass a c s).2.sent with
  | true =>
    rw [if_pos rfl]
    exact iff_of_false (by decide) fun h => Bool.noConfusion h.1
  | false => exact ⟨fun h => ⟨rfl, h⟩, fun h => h.2⟩

theorem sampled_link {a : Answers H} {c : Clock} {s : Runner H Q} (h : s.statics.link = none) :
    (sampled a c s).statics.link = none ↔ ¬ Publishes s a c := by
  have hm := moved_spec a c s
  have hquiet := quiet_iff hm
  have hstep := sampleLink_step a c (moved a c s).cut
  unfold sampled
  generalize moved a c s = m at hm hquiet hstep ⊢
  generalize sampleLink a c m.cut = t at hstep ⊢
  cases hstep with
  | busy hbusy =>
    refine iff_of_true (hm.link.trans h) fun hp => ?_
    exact absurd (hquiet.mpr ⟨hp.1, hp.2.1⟩) (UInt32.not_le.mpr hbusy)
  | early hq hd =>
    refine iff_of_true (hm.link.trans h) fun hp => ?_
    exact absurd (hm.due ▸ hp.2.2.1) (Nat.not_le_of_lt hd)
  | taken hq hd sample hsample =>
    obtain ⟨hidle, hlong⟩ := hquiet.mp hq
    constructor
    · intro hnone hp
      have hsome := hsample.mpr hp.2.2.2
      rw [show sample = none from hnone] at hsome
      cases hsome
    · intro hp
      refine Option.not_isSome_iff_eq_none.mp fun hsome => hp ?_
      exact ⟨hidle, hlong, hm.due ▸ hd, hsample.mp hsome⟩

theorem finds_iff {a : Answers H} {c : Clock} {s : Runner H Q} (was : s.watch.state ≠ .up) :
    (watchPass a c s.cut).watch.state = .up ↔ Finds s a c := by
  constructor
  · intro hup
    cases watch_upAfter a c s hup with
    | landed _ h hf => exact ⟨h, hf⟩
    | early was' | carrying was' | present was' => exact absurd was' was
  · rintro ⟨hdue, hf⟩
    have h := watchPass_step a c s.cut
    generalize watchPass a c s.cut = t at h ⊢
    cases h with
    | early h => exact absurd hdue (Nat.not_le_of_lt h)
    | carrying _ hs | present _ hs | lost _ hs => exact absurd hs was
    | landed => rfl
    | waiting _ _ _ hf' | expired _ _ _ hf' | asked _ _ hf' => cases hf.symm.trans hf'

theorem pass_noSignalDown_iff {reconnect : Option (Reconnect H)} {w : World H Q}
    (hw : Agrees reconnect w) (hgood : NoSignalDown w) (a : Answers H) (c : Clock) :
    NoSignalDown (step w (.pass a c)) ↔ SignalStands w (.pass a c) := by
  have hs := sampled_same a c w.runner
  have hstate := (pass_agrees hw a c).inStep.state
  have hfinds : (sampled a c w.runner).watch.state ≠ .up →
      ((step w (.pass a c)).runner.watch.state = .up ↔ Finds w.runner a c) := fun was => by
    rw [step_watch]
    refine (finds_iff was).trans ?_
    unfold Finds
    rw [hs.watch]
  cases pass_told a c w.runner with
  | nothing told state associated drops link =>
    cases hup : w.runner.statics.associated with
    | true =>
      refine iff_of_true (fun hdown => ?_) fun hdown => ?_
      · cases hdown.symm.trans ((associated.trans hs.associated).trans hup)
      · cases hdown.symm.trans hup
    | false =>
      have was : (sampled a c w.runner).watch.state ≠ .up := fun was => by
        cases hup.symm.trans (hw.inStep.state.mp (hs.watch ▸ was))
      have hdown : (step w (.pass a c)).runner.statics.associated = false :=
        (associated.trans hs.associated).trans hup
      have hlost : ¬ Finds w.runner a c := mt (hfinds was).mpr (mt state.mp was)
      calc NoSignalDown (step w (.pass a c))
          ↔ (sampled a c w.runner).statics.link = none :=
            ⟨fun h => link.symm.trans (h hdown), fun h _ => link.trans h⟩
        _ ↔ ¬ Publishes w.runner a c := sampled_link (hgood hup)
        _ ↔ SignalStands w (.pass a c) :=
            ⟨fun h _ hp => absurd hp h, fun h hp => hlost (h hup hp)⟩
  | lost told was probed absent state associated drops link =>
    refine iff_of_true (fun _ => link) fun hdown => ?_
    rw [hw.inStep.state.mp (hs.watch ▸ was)] at hdown
    cases hdown
  | back told was probed present restored state associated drops link =>
    refine iff_of_true (fun hdown => ?_) fun _ _ => (hfinds was).mp state
    cases hdown.symm.trans associated

theorem step_noSignalDown_iff {reconnect : Option (Reconnect H)} {w : World H Q}
    (hw : Agrees reconnect w) (hgood : NoSignalDown w) (e : Event H) :
    NoSignalDown (step w e) ↔ SignalStands w e := by
  rcases step_frame w e with ⟨a, c, rfl⟩ | h
  · exact pass_noSignalDown_iff hw hgood a c
  · have hkept : NoSignalDown (step w e) := by
      unfold NoSignalDown
      rw [h.associated, h.link]
      exact hgood
    cases e with
    | pass a c => exact pass_noSignalDown_iff hw hgood a c
    | _ => exact iff_of_true hkept trivial

/-- The runs in which no signal reading stands while the association is down are
the ones in which no sample is published before it is back. -/
theorem no_signal_down_iff (reconnect : Option (Reconnect H)) (o : Opening) (es : List (Event H))
    (w : World H Q) (h : (wifi H Q).Run (start Q reconnect o) es w) :
    (∀ fs v, fs <+: es → (wifi H Q).Run (start Q reconnect o) fs v →
        v.runner.statics.associated = false → v.runner.statics.link = none) ↔
      ((wifi H Q).restrict SignalStands).Run (start Q reconnect o) es w :=
  h.good_iff_restrict (P := Agrees reconnect) (start_agrees reconnect o)
    (fun _ e hu _ => step_agrees hu e) (fun hdown => by cases hdown)
    (fun _ e hu hgood _ => step_noSignalDown_iff hu hgood e)

theorem no_signal_down_after_a_drop :
    ∃ w : World unitHal (fifoChannel 1514 1 1),
      (wifi unitHal (fifoChannel 1514 1 1)).Run (powerOn none)
        [.pass offNetwork (.still (fromSecs 11))] w ∧
      w.runner.statics.associated = false ∧ w.runner.statics.link = none := by
  have hrun := run_event (.nil (s := powerOn none)) (.pass offNetwork (.still (fromSecs 11)))
    (Clock.still_inOrder (by decide))
  have hcond : ((wifi unitHal (fifoChannel 1514 1 1)).restrict SignalStands).Run
      (powerOn none) [.pass offNetwork (.still (fromSecs 11))] _ :=
    Machine.Run.single ⟨Clock.still_inOrder (by decide), fun hdown => by cases hdown⟩
  have hdown : (step (powerOn none)
      (.pass offNetwork (.still (fromSecs 11)))).runner.statics.associated = false := by
    decide +kernel
  exact ⟨_, hrun, hdown,
    (no_signal_down_iff none _ _ _ hrun).mpr hcond _ _ List.prefix_rfl hrun hdown⟩

/-- A tenth of a second of quiet after a drop, and a reading of the lost network. -/
theorem signal_stands_down :
    ∃ w : World unitHal (fifoChannel 1514 1 1),
      (wifi unitHal (fifoChannel 1514 1 1)).Run (powerOn none)
        (.replicate 100 (.pass offNetwork (.still (fromSecs 11)))) w ∧
      w.runner.statics.associated = false ∧
      w.runner.statics.link = some ⟨-40, 65000⟩ :=
  ⟨_, run_replicate offNetwork 100 (by decide), by decide +kernel, by decide +kernel⟩

end RpiHalEmbassy.Wifi
