import RpiHalEmbassy.Wifi.Silence

/-!
# A chip that has stopped answering

`receive` returns `true` for a failed `recv_ethernet`, so the loop takes the
failure for a frame heard. A pass that finds a free receive slot starts the
silence over, and the watch is held at its gate for as long as such passes come
less than `rxSilence` before it looks.
-/

namespace RpiHalEmbassy.Wifi
open Machines Net

variable {H : Hal} {Q : Channel}

def failed {ε α : Type} : Except ε α → Bool
  | .error _ => true
  | .ok _ => false

def Call.Failing : Call H → Prop
  | .now _ => True
  | .setLinkState _ => True
  | .recvEthernet answer _ => failed answer = true
  | .sendEthernet _ answer => failed answer = true
  | .rssiDbm answer => failed answer = true
  | .linkRateKbps answer => failed answer = true
  | .bssid answer => failed answer = true
  | .startJoin _ _ answer => failed answer = true
  | .setPowerManagement _ answer => failed answer = true
  | .setAllMulticast _ answer => failed answer = true
  | .counters answer => failed answer = true

instance : DecidablePred (Call.Failing (H := H))
  | .now _ | .setLinkState _ => .isTrue trivial
  | .recvEthernet answer _ => inferInstanceAs (Decidable (failed answer = true))
  | .sendEthernet _ answer => inferInstanceAs (Decidable (failed answer = true))
  | .rssiDbm answer => inferInstanceAs (Decidable (failed answer = true))
  | .linkRateKbps answer => inferInstanceAs (Decidable (failed answer = true))
  | .bssid answer => inferInstanceAs (Decidable (failed answer = true))
  | .startJoin _ _ answer => inferInstanceAs (Decidable (failed answer = true))
  | .setPowerManagement _ answer => inferInstanceAs (Decidable (failed answer = true))
  | .setAllMulticast _ answer => inferInstanceAs (Decidable (failed answer = true))
  | .counters answer => inferInstanceAs (Decidable (failed answer = true))

theorem not_found_of_failed {answer : Result H (Option Bytes)} (h : failed answer = true) :
    found answer = false := by
  cases answer with
  | ok _ => cases h
  | error _ => rfl

theorem drained_failing {a : Answers H} {s : Runner H Q}
    (h : ∀ call ∈ (drained a s).2.calls, call.Failing) :
    (drained a s).1 = Q.tryRxBuf s.queues := by
  cases hfree : Q.tryRxBuf s.queues with
  | false => exact congrArg Prod.fst (receive_full a (s := s.countPass.cut) hfree)
  | true =>
    have hfirst := h _ (receive_first a (s := s.countPass.cut) hfree)
    cases ha : (a.recvEthernet 0).answer with
    | ok len =>
      rw [ha] at hfirst
      cases hfirst
    | error error => exact receive_error a hfree ha

/-- What `heard` is at the watch of a pass whose calls all fail. -/
def heardFailing (w : World H Q) (c : Clock) : Nat :=
  if Q.tryRxBuf w.runner.queues then c.heard else w.runner.heard

/-- A pass whose watch, due and at its gate `rxSilence` after `T0`, is also
`rxSilence` behind the last failure that counted as heard. -/
def ReachesProbe (T0 : Nat) (w : World H Q) : Event H → Prop
  | .pass _ c => w.runner.watch.state = .up → w.runner.watch.due ≤ c.watchGate →
      T0 + rxSilence ≤ c.silenceGate → heardFailing w c + rxSilence ≤ c.silenceGate
  | _ => True

theorem sampled_failing {w : World H Q} {a : Answers H} {c : Clock}
    (h : ∀ call ∈ (pass a c w.runner).2.calls, call.Failing) :
    (sampled a c w.runner).heard = heardFailing w c := by
  rw [sampled_heard, show (pass a c w.runner).2.received = (drained a w.runner).1 from rfl,
    drained_failing fun call hc => h call (drained_mem_pass hc)]
  rfl

def FailingUnnoticed (T0 : Nat) (w0 w : World H Q) : Prop :=
  ∃ rs, w.records = w0.records ++ rs ∧
    ((∀ r ∈ rs, ∀ call ∈ r.calls, call.Failing) → Unnoticed T0 rs w)

theorem pass_failingUnnoticed {T0 : Nat} {w0 w : World H Q} (hw : FailingUnnoticed T0 w0 w)
    {a : Answers H} {c : Clock} (hc : c.InOrder w.clock) (hprobe : ReachesProbe T0 w (.pass a c)) :
    FailingUnnoticed T0 w0 (step w (.pass a c)) := by
  obtain ⟨rs, hrs, hw⟩ := hw
  refine ⟨_, records_pass hrs a c, fun hfailing => ?_⟩
  obtain ⟨hbefore, hpass⟩ := forall_records_snoc hfailing
  refine pass_unnoticed (hw hbefore) hc ?_ ?_
  · exact fun hcall => not_found_of_failed (hpass _ (watched_mem_pass hcall))
  · intro was hdue hg
    rw [sampled_failing hpass] at hg
    exact Nat.lt_of_not_le fun hle => Nat.not_le_of_lt hg (hprobe was hdue hle)

theorem step_failingUnnoticed {T0 : Nat} {w0 w : World H Q} (hw : FailingUnnoticed T0 w0 w)
    (e : Event H) (he : enabled w e) (hprobe : ReachesProbe T0 w e) :
    FailingUnnoticed T0 w0 (step w e) := by
  rcases step_frame w e with ⟨a, c, rfl⟩ | h
  · exact pass_failingUnnoticed hw he hprobe
  · obtain ⟨rs, hrs, hw⟩ := hw
    exact ⟨rs, h.records.trans hrs, fun hfailing => (hw hfailing).frame h⟩

theorem watchPass_carrying (a : Answers H) {c : Clock} {s : Runner H Q}
    (was : s.watch.state = .up) (hdue : s.watch.due ≤ c.watchGate)
    (hg : c.silenceGate < s.heard + rxSilence) :
    watchPass a c s = (s.call (.now c.watchGate)).call (.now c.silenceGate) := by
  have h := watchPass_step a c s
  generalize watchPass a c s = t at h ⊢
  cases h with
  | early h => omega
  | carrying => rfl
  | present _ _ hg' => omega
  | lost _ _ hg' => omega
  | landed _ hs => exact absurd was hs
  | waiting _ deadline hs => cases hs.symm.trans was
  | expired _ deadline hs => cases hs.symm.trans was
  | asked _ hs => cases hs.symm.trans was

/-- Outside that condition a failing chip goes unnoticed: the watch reads the clock
`rxSilence` after `T0` and leaves the runner `Up`. -/
theorem pass_ignores_failing {T0 : Nat} {w : World H Q} {a : Answers H} {c : Clock}
    (hfailing : ∀ call ∈ (pass a c w.runner).2.calls, call.Failing)
    (hprobe : ¬ ReachesProbe T0 w (.pass a c)) :
    (step w (.pass a c)).runner.watch.state = .up ∧
      ∃ t ∈ readings (pass a c w.runner).2.watch, T0 + rxSilence ≤ t := by
  simp only [ReachesProbe, Classical.not_imp] at hprobe
  obtain ⟨was, hdue, hlate, hg⟩ := hprobe
  have hs : (sampled a c w.runner).cut.watch = w.runner.watch := (sampled_same a c w.runner).watch
  have hheard : (sampled a c w.runner).cut.heard = heardFailing w c := sampled_failing hfailing
  have hw : watched a c w.runner = _ :=
    watchPass_carrying a (hs ▸ was) (hs ▸ hdue) (hheard ▸ Nat.lt_of_not_le hg)
  refine ⟨?_, c.silenceGate, ?_, hlate⟩
  · rw [step_watch, hw]
    exact hs ▸ was
  · rw [show (pass a c w.runner).2.watch = (watched a c w.runner).calls from rfl, hw]
    simp

/-! ### Over a run -/

theorem run_failingUnnoticed {T0 : Nat} {w0 w : World H Q} {fs : List (Event H)}
    (h0 : Paced w0) (hT0 : w0.clock ≤ T0)
    (h : ((wifi H Q).restrict (ReachesProbe T0)).Run w0 fs w) : FailingUnnoticed T0 w0 w :=
  h.invariant ⟨[], (List.append_nil _).symm, fun _ => h0.unnoticed hT0⟩
    fun _ e hu he => step_failingUnnoticed hu e he.1 he.2

theorem run_records {v w : World H Q} {es : List (Event H)} (h : (wifi H Q).Run v es w) :
    v.records <+: w.records := by
  refine h.invariant (P := fun w => v.records <+: w.records) List.prefix_rfl fun u e hu _ => ?_
  rcases step_frame u e with ⟨a, c, rfl⟩ | he
  · exact hu.trans (List.prefix_append _ _)
  · exact he.records ▸ hu

def Noticed (T0 : Nat) (w0 v : World H Q) : Prop :=
  ∀ rs, v.records = w0.records ++ rs →
    (∃ r ∈ rs, ∃ t ∈ readings r.watch, T0 + rxSilence ≤ t) →
    v.runner.statics.associated = false ∧ (linkStates v.calls).getLast? = some .down

theorem reachesProbe_of_noticed {reconnect : Option (Reconnect H)} {T0 : Nat}
    {w0 v : World H Q} {e : Event H} (hagrees : Agrees reconnect v) {rs : List (Record H)}
    (hrs : (step v e).records = w0.records ++ rs)
    (hfailing : ∀ r ∈ rs, ∀ call ∈ r.calls, call.Failing) (hv : w0.records <+: v.records)
    (hnoticed : Noticed T0 w0 (step v e)) : ReachesProbe T0 v e := by
  cases e with
  | pass a c =>
    obtain ⟨qs, hqs⟩ := hv
    have hpass := records_pass hqs.symm a c
    obtain rfl := List.append_cancel_left (hrs.symm.trans hpass)
    by_contra hprobe
    obtain ⟨hup, hread⟩ := pass_ignores_failing (forall_records_snoc hfailing).2 hprobe
    obtain ⟨hdown, _⟩ := hnoticed _ hpass
      ⟨_, List.mem_append_right _ (List.mem_singleton_self _), hread⟩
    have hassociated := (pass_agrees hagrees a c).inStep.state.mp hup
    rw [hdown] at hassociated
    cases hassociated
  | _ => trivial

theorem restricted_of_noticed {reconnect : Option (Reconnect H)} {o : Opening}
    {es : List (Event H)} {w0 : World H Q} (h0 : (wifi H Q).Run (start Q reconnect o) es w0)
    {T0 : Nat} {fs : List (Event H)} {w : World H Q} (h : (wifi H Q).Run w0 fs w)
    (hfailing : ∀ rs, w.records = w0.records ++ rs → ∀ r ∈ rs, ∀ call ∈ r.calls, call.Failing)
    (hnoticed : ∀ gs v, gs <+: fs → (wifi H Q).Run w0 gs v → Noticed T0 w0 v) :
    ((wifi H Q).restrict (ReachesProbe T0)).Run w0 fs w := by
  induction h with
  | nil => exact .nil
  | @snoc gs v e h he ih =>
    have hrecords := run_records (Machine.Run.single he)
    have hbefore : ∀ rs, v.records = w0.records ++ rs →
        ∀ r ∈ rs, ∀ call ∈ r.calls, call.Failing := by
      intro rs hrs
      obtain ⟨qs, hqs⟩ := hrecords
      intro r hr
      refine hfailing (rs ++ qs) ?_ r (List.mem_append_left _ hr)
      rw [← List.append_assoc, ← hrs]
      exact hqs.symm
    have hv := run_records h
    obtain ⟨rs, hrs⟩ := hv.trans hrecords
    refine (ih hbefore fun ks v hks => hnoticed ks v (hks.trans (List.prefix_append _ _))).snoc e
      ⟨he, ?_⟩
    exact reachesProbe_of_noticed (run_agrees (h0.append h)) hrs.symm (hfailing rs hrs.symm) hv
      (hnoticed _ _ List.prefix_rfl (h.snoc e he))

/-- Every call failing from `T0` on, the drop is told by the first step of the watch
to read the clock at `T0 + rxSilence` or later in exactly the runs whose passes all
meet the condition. -/
theorem failing_chip_noticed_iff (reconnect : Option (Reconnect H)) (o : Opening)
    (es : List (Event H)) (w0 : World H Q) (h0 : (wifi H Q).Run (start Q reconnect o) es w0)
    (T0 : Nat) (hT0 : w0.clock ≤ T0) (fs : List (Event H)) (w : World H Q)
    (h : (wifi H Q).Run w0 fs w) (rs : List (Record H)) (hrs : w.records = w0.records ++ rs)
    (hfailing : ∀ r ∈ rs, ∀ call ∈ r.calls, call.Failing) :
    (∀ gs v, gs <+: fs → (wifi H Q).Run w0 gs v → Noticed T0 w0 v) ↔
      ((wifi H Q).restrict (ReachesProbe T0)).Run w0 fs w := by
  have hall : ∀ qs, w.records = w0.records ++ qs →
      ∀ r ∈ qs, ∀ call ∈ r.calls, call.Failing := fun qs hqs => by
    obtain rfl := List.append_cancel_left (hrs.symm.trans hqs)
    exact hfailing
  refine ⟨restricted_of_noticed h0 h hall, fun hprobe gs v hgs hv qs hqs hread => ?_⟩
  obtain ⟨u, ks, hu, huw⟩ := hprobe.stop hgs
  obtain rfl := hv.deterministic hu.of_restrict
  obtain ⟨ps, hps⟩ := run_records huw.of_restrict
  obtain ⟨js, hjs, hunnoticed⟩ := run_failingUnnoticed (run_paced h0) hT0 hu
  obtain rfl := List.append_cancel_left (hqs.symm.trans hjs)
  have hbefore : ∀ r ∈ qs, ∀ call ∈ r.calls, call.Failing := fun r hr =>
    hall (qs ++ ps) (by rw [← List.append_assoc, ← hqs, hps]) r (List.mem_append_left _ hr)
  exact (noticed (run_agrees (h0.append hv)) (hunnoticed hbefore) hread).2

/-- A pass that reads the clock for `heard` ten seconds before its watch does. -/
def slowPass : Clock := { Clock.still (fromSecs 11) with heard := fromSecs 1 }

theorem failing_chip_noticed_in_a_slow_pass :
    ∃ w : World unitHal (fifoChannel 1514 1 1),
      (wifi unitHal (fifoChannel 1514 1 1)).Run (powerOn none) [.pass deadChip slowPass] w ∧
      w.runner.statics.associated = false ∧ (linkStates w.calls).getLast? = some .down := by
  have horder : enabled (powerOn none) (.pass deadChip slowPass) :=
    ⟨by decide, by decide, le_rfl, le_rfl, le_rfl, le_rfl, le_rfl, le_rfl, le_rfl, le_rfl, le_rfl,
      le_rfl, le_rfl, le_rfl⟩
  have hcond : ReachesProbe 0 (powerOn none) (.pass deadChip slowPass) := fun _ _ _ => by decide
  have hrun := run_event (.nil (s := powerOn none)) (.pass deadChip slowPass) horder
  have hprobe : ((wifi unitHal (fifoChannel 1514 1 1)).restrict (ReachesProbe 0)).Run
      (powerOn none) [.pass deadChip slowPass] _ :=
    Machine.Run.single ⟨horder, hcond⟩
  have hnoticed := (failing_chip_noticed_iff none _ _ _ (.nil (s := powerOn none)) 0 le_rfl _ _ hrun
    _ rfl (by decide +kernel)).mpr hprobe
  exact ⟨_, hrun, hnoticed _ _ List.prefix_rfl hrun _ rfl (by decide +kernel)⟩

theorem failing_chip_unnoticed :
    ∃ w : World unitHal (fifoChannel 1514 1 1),
      (wifi unitHal (fifoChannel 1514 1 1)).Run (powerOn none)
        [.pass deadChip (.still (fromSecs 4)), .pass deadChip (.still (fromSecs 8)),
          .pass deadChip (.still (fromSecs 12))] w ∧
      (powerOn none).clock = 0 ∧
      (∀ r ∈ w.records, ∀ call ∈ r.calls, call.Failing) ∧
      (∃ r ∈ w.records, ∃ t ∈ readings r.watch, 0 + rxSilence ≤ t) ∧
      w.runner.statics.associated = true ∧ (linkStates w.calls).getLast? = some .up := by
  have h1 := run_event (.nil (s := powerOn none)) (.pass deadChip (.still (fromSecs 4)))
    (Clock.still_inOrder (by decide))
  have h2 := run_event h1 (.pass deadChip (.still (fromSecs 8))) (Clock.still_inOrder (by decide))
  have h3 := run_event h2 (.pass deadChip (.still (fromSecs 12))) (Clock.still_inOrder (by decide))
  exact ⟨_, h3, rfl, by decide +kernel, by decide +kernel, by decide +kernel, by decide +kernel⟩

end RpiHalEmbassy.Wifi
