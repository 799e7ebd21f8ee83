import RpiHalEmbassy.Wifi.Control
import RpiHalEmbassy.Wifi.Signal

/-!
# A full receive queue

`receive` stops where the stack has no slot left, and the frames it has not asked for
wait in the chip. Before the first of them that looks like an idle radio: after enough
such passes the gates of the control commands open, and a control command throws away
what waits in the chip.
-/

namespace RpiHalEmbassy.Wifi
open Machines Net

variable {H : Hal} {Q : Channel}

/-- Whether the receive loop, with `n` turns left, stops because `try_rx_buf` finds no slot. -/
def stopsFull (a : Answers H) : Nat → Runner H Q → Bool
  | 0, _ => false
  | n + 1, s =>
    if Q.tryRxBuf s.queues then
      let r := a.recvEthernet (rxBurst - (n + 1))
      let s := s.call (.recvEthernet r.answer r.buffer)
      match r.answer with
      | .ok none => false
      | .ok (some len) => stopsFull a n (s.deliver r.buffer len)
      | .error _ => false
    else true

def StoppedFull (a : Answers H) (s : Runner H Q) : Prop :=
  stopsFull a rxBurst s.countPass.cut = true

instance (a : Answers H) (s : Runner H Q) : Decidable (StoppedFull a s) :=
  inferInstanceAs (Decidable (_ = _))

/-- A pass that leaves frames in the chip for want of a slot leaves the chip alone. -/
def LeavesAlone (w : World H Q) : Event H → Prop
  | .pass a c => StoppedFull a w.runner →
      ¬ (pass a c w.runner).2.Samples ∧
        (w.runner.watch.state = .up → ¬ (pass a c w.runner).2.Probes)
  | _ => True

/-- Full from the start, nothing to send, and it has been like that for a hundred passes. -/
def LooksQuiet (s : Runner H Q) (c : Clock) : Prop :=
  Q.tryRxBuf s.queues = false ∧ Q.txQueue s.queues = [] ∧
    linkQuietPasses ≤ saturatingIncr s.quiet ∧ s.due ≤ c.sampleGate

/-- Nothing heard for `rxSilence` before the watch asks the clock, unless this pass
delivered a frame. -/
def LooksSilent (s : Runner H Q) (c : Clock) : Prop :=
  s.watch.due ≤ c.watchGate ∧
    (if Q.tryRxBuf s.queues then c.heard else s.heard) + rxSilence ≤ c.silenceGate

instance (s : Runner H Q) (c : Clock) : Decidable (LooksQuiet s c) :=
  inferInstanceAs (Decidable (_ ∧ _ ∧ _ ∧ _))

instance (s : Runner H Q) (c : Clock) : Decidable (LooksSilent s c) :=
  inferInstanceAs (Decidable (_ ∧ _))

def LooksBusy (w : World H Q) : Event H → Prop
  | .pass a c => StoppedFull a w.runner →
      ¬ LooksQuiet w.runner c ∧ (w.runner.watch.state = .up → ¬ LooksSilent w.runner c)
  | _ => True

instance (w : World H Q) (a : Answers H) (c : Clock) : Decidable (LooksBusy w (.pass a c)) :=
  inferInstanceAs (Decidable (_ → _ ∧ (_ → _)))

theorem stoppedFull_first {a : Answers H} {s : Runner H Q} (h : StoppedFull a s)
    (hfree : Q.tryRxBuf s.queues = true) : (a.recvEthernet 0).answer ≠ .ok none := by
  intro hnone
  have hfree' : Q.tryRxBuf s.countPass.cut.queues = true := hfree
  unfold StoppedFull rxBurst stopsFull at h
  rw [if_pos hfree'] at h
  dsimp only at h
  rw [show rxBurst - 8 = 0 from rfl, hnone] at h
  cases h

theorem stoppedFull_received {a : Answers H} {s : Runner H Q} (h : StoppedFull a s) (c : Clock) :
    (pass a c s).2.received = Q.tryRxBuf s.queues := by
  have hreceived : (pass a c s).2.received = (receive a s.countPass.cut).1 := rfl
  rw [hreceived]
  cases hfree : Q.tryRxBuf s.queues with
  | false =>
    have hfull : Q.tryRxBuf s.countPass.cut.queues = false := hfree
    exact congrArg Prod.fst (receive_full a hfull)
  | true =>
    apply Bool.eq_true_of_not_eq_false
    intro hfalse
    rcases (receive_false_iff a s.countPass.cut).mp hfalse with hfull | hnone
    · cases hfree.symm.trans hfull
    · exact stoppedFull_first h hfree hnone

theorem stoppedFull_idle {a : Answers H} {s : Runner H Q} (h : StoppedFull a s) :
    Idle s a ↔ Q.tryRxBuf s.queues = false ∧ Q.txQueue s.queues = [] := by
  refine and_congr_left fun _ => or_iff_left_of_imp fun hnone => ?_
  exact Bool.eq_false_of_not_eq_true fun hfree => stoppedFull_first h hfree hnone

/-! ### What opens the gates -/

theorem samples_iff (a : Answers H) (c : Clock) (s : Runner H Q) :
    (pass a c s).2.Samples ↔ linkQuietPasses ≤ (moved a c s).quiet ∧ s.due ≤ c.sampleGate := by
  have hdue := (moved_spec a c s).due
  have hquiet : (sampled a c s).quiet = (moved a c s).quiet :=
    (sampled_quiet a c s).trans (moved_spec a c s).quiet.symm
  constructor
  · intro hsamples
    cases pass_sampling a c s with
    | unmade hcalls => exact (samples_made hsamples hcalls).elim
    | made hq hgate => exact ⟨hquiet ▸ hq, hgate⟩
  · rintro ⟨hq, hgate⟩
    have hpart : (sampled a c s).calls ⊆ (pass a c s).2.calls := fun call hc =>
      Record.mem_calls.mpr ⟨.sample, hc⟩
    have h := sampleLink_step a c (moved a c s).cut
    have hsample : .rssiDbm a.rssiDbm ∈ (sampled a c s).calls := by
      unfold sampled
      generalize moved a c s = m at h hdue hq ⊢
      generalize sampleLink a c m.cut = t at h ⊢
      cases h with
      | busy hbusy => exact absurd hq (UInt32.not_le.mpr hbusy)
      | early _ hd => exact absurd (hdue ▸ hgate) (Nat.not_le_of_lt hd)
      | taken => simp
    exact ⟨_, hpart hsample, rfl⟩

theorem watchPass_probes {a : Answers H} {c : Clock} {s : Runner H Q}
    (was : s.watch.state = .up) (hdue : s.watch.due ≤ c.watchGate)
    (hgate : s.heard + rxSilence ≤ c.silenceGate) :
    .bssid a.bssid ∈ (watchPass a c s.cut).calls := by
  have h := watchPass_step a c s.cut
  generalize watchPass a c s.cut = t at h ⊢
  cases h with
  | early h => exact absurd hdue (Nat.not_le_of_lt h)
  | carrying _ _ hg => exact absurd hgate (Nat.not_le_of_lt hg)
  | present => simp [probedUp]
  | lost =>
    apply (join_calls a c (lose (probedUp a c s.cut))).subset
    simp [lose, probedUp]
  | landed _ hs => exact absurd was hs
  | waiting _ _ hs | expired _ _ hs | asked _ hs => cases was.symm.trans hs

theorem probes_iff {a : Answers H} {c : Clock} {s : Runner H Q} (was : s.watch.state = .up) :
    (pass a c s).2.Probes ↔
      s.watch.due ≤ c.watchGate ∧ (sampled a c s).heard + rxSilence ≤ c.silenceGate := by
  have hs := (sampled_same a c s).watch
  have hup : (sampled a c s).watch.state = .up := hs ▸ was
  constructor
  · intro hprobes
    cases pass_probing a c s with
    | unasked hcalls => exact (watching_made hprobes.watching hcalls).elim
    | carrying _ hdue hgate => exact ⟨hs ▸ hdue, hgate⟩
    | gone hdown => exact absurd hup hdown
  · rintro ⟨hdue, hgate⟩
    exact ⟨a.bssid, watched_mem_pass (watchPass_probes hup (hs ▸ hdue) hgate)⟩

/-! ### With the queue full -/

theorem stoppedFull_samples {a : Answers H} {s : Runner H Q} (h : StoppedFull a s) (c : Clock) :
    (pass a c s).2.Samples ↔ LooksQuiet s c := by
  rw [samples_iff, quiet_iff (moved_spec a c s), stoppedFull_idle h]
  exact ⟨fun ⟨⟨⟨hfull, htx⟩, hquiet⟩, hdue⟩ => ⟨hfull, htx, hquiet, hdue⟩,
    fun ⟨hfull, htx, hquiet, hdue⟩ => ⟨⟨⟨hfull, htx⟩, hquiet⟩, hdue⟩⟩

theorem stoppedFull_probes {a : Answers H} {s : Runner H Q} (h : StoppedFull a s) (c : Clock)
    (was : s.watch.state = .up) : (pass a c s).2.Probes ↔ LooksSilent s c := by
  rw [probes_iff was, sampled_heard, stoppedFull_received h c]
  rfl

theorem leavesAlone_iff (w : World H Q) (e : Event H) : LeavesAlone w e ↔ LooksBusy w e := by
  cases e with
  | pass a c =>
    refine forall_congr' fun h => and_congr (not_congr (stoppedFull_samples h c)) ?_
    exact forall_congr' fun was => not_congr (stoppedFull_probes h c was)
  | _ => exact Iff.rfl

/-- The runs in which no pass that stopped at a full queue samples the link or probes
a live association are the ones in which none of them looks quiet or silent. -/
theorem backpressure_leaves_alone_iff (reconnect : Option (Reconnect H)) (o : Opening)
    (es : List (Event H)) (w : World H Q) (h : (wifi H Q).Run (start Q reconnect o) es w) :
    (∀ fs e v, fs ++ [e] <+: es → (wifi H Q).Run (start Q reconnect o) fs v →
        LeavesAlone v e) ↔
      ((wifi H Q).restrict LooksBusy).Run (start Q reconnect o) es w :=
  h.each_iff_restrict fun u e _ => leavesAlone_iff u e

/-- The queue fills in the first pass and the stack takes nothing. At eleven seconds the
runner probes over the frames in the chip, and a hundred passes on it samples over them. -/
theorem full_queue_probed_and_sampled :
    (∃ v : World unitHal (fifoChannel 1514 1 1),
      (wifi unitHal (fifoChannel 1514 1 1)).Run (powerOn none) [.pass hearing (.still 1000)] v ∧
      StoppedFull hearing v.runner ∧ v.runner.watch.state = .up ∧
      (pass hearing (.still (fromSecs 11)) v.runner).2.Probes) ∧
    ∃ v : World unitHal (fifoChannel 1514 1 1),
      (wifi unitHal (fifoChannel 1514 1 1)).Run (powerOn none)
        ([.pass hearing (.still 1000)] ++ .replicate 99 (.pass hearing (.still (fromSecs 11)))) v ∧
      StoppedFull hearing v.runner ∧ (pass hearing (.still (fromSecs 11)) v.runner).2.Samples := by
  have hrun := run_event (.nil (s := powerOn none)) (.pass hearing (.still 1000))
    (Clock.still_inOrder (by decide))
  constructor
  · refine ⟨_, hrun, by decide +kernel, by decide +kernel, ?_⟩
    exact (probes_iff (by decide +kernel)).mpr (by decide +kernel)
  · refine ⟨_, hrun.append (run_replicate hearing 99 (by decide)), by decide +kernel, ?_⟩
    exact (samples_iff ..).mpr (by decide +kernel)

/-- The stack takes its frame, and the runner the next one, before anything looks quiet. -/
theorem backpressure_leaves_alone_iff_while_drained :
    let es := [.pass hearing (.still 1000), .pass hearing (.still 2000), .stackReceive,
      .pass hearing (.still 3000)]
    ∃ w : World unitHal (fifoChannel 1514 1 1),
      ((wifi unitHal (fifoChannel 1514 1 1)).restrict LooksBusy).Run (powerOn none) es w ∧
      w.runner.statics.rxFrames = 2 ∧
      ∀ fs e v, fs ++ [e] <+: es →
        (wifi unitHal (fifoChannel 1514 1 1)).Run (powerOn none) fs v → LeavesAlone v e := by
  intro es
  have hrun := Machine.Run.of_allowed ((wifi unitHal (fifoChannel 1514 1 1)).restrict LooksBusy)
    (powerOn none) es
    ⟨⟨Clock.still_inOrder (by decide), by decide +kernel⟩,
      ⟨Clock.still_inOrder (by decide), by decide +kernel⟩, ⟨trivial, trivial⟩,
      ⟨Clock.still_inOrder (by decide), by decide +kernel⟩, trivial⟩
  exact ⟨_, hrun, by decide +kernel,
    (backpressure_leaves_alone_iff _ _ _ _ hrun.of_restrict).mpr hrun⟩

end RpiHalEmbassy.Wifi
