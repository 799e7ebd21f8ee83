import RpiHalEmbassy.Wifi.Association

/-!
# A vanished network

Up, the watch puts its next probe at most `probeInterval` ahead of the clock, and
the last receive is behind it. Both bounds stand still while nothing is heard, so
a step that reads the clock `rxSilence` later cannot end in either early return.
-/

namespace RpiHalEmbassy.Wifi
open Machines Net

variable {H : Hal} {Q : Channel}

inductive UpAfter (a : Answers H) (c : Clock) (s t : Runner H Q) : Prop
  | early (was : s.watch.state = .up) (h : c.watchGate < s.watch.due)
      (due : t.watch.due = s.watch.due) (calls : t.calls = [.now c.watchGate])
  | carrying (was : s.watch.state = .up) (h : s.watch.due ≤ c.watchGate)
      (hg : c.silenceGate < s.heard + rxSilence) (due : t.watch.due = s.watch.due)
      (calls : t.calls = [.now c.watchGate, .now c.silenceGate])
  | present (was : s.watch.state = .up) (h : s.watch.due ≤ c.watchGate)
      (hg : s.heard + rxSilence ≤ c.silenceGate) (hf : found a.bssid = true)
      (due : t.watch.due = c.probeDue + probeInterval) (calls : .bssid a.bssid ∈ t.calls)
  | landed (was : s.watch.state ≠ .up) (h : s.watch.due ≤ c.watchGate)
      (hf : found a.bssid = true) (due : t.watch.due = c.associateDue + probeInterval)
      (calls : .bssid a.bssid ∈ t.calls)

theorem probed_mem_associate (a : Answers H) (c : Clock) (s : Runner H Q) :
    .bssid a.bssid ∈ (associate a c (probed a c s)).calls := by
  unfold associate restore
  cases (probed a c s).watch.reconnect <;> simp [probed]

theorem watch_upAfter (a : Answers H) (c : Clock) (s : Runner H Q)
    (hup : (watchPass a c s.cut).watch.state = .up) :
    UpAfter a c s (watchPass a c s.cut) := by
  have h := watchPass_step a c s.cut
  generalize watchPass a c s.cut = t at h hup ⊢
  cases h with
  | early h => exact .early hup h rfl rfl
  | carrying h hs hg => exact .carrying hs h hg rfl rfl
  | present h hs hg hf => exact .present hs h hg hf rfl (by simp [probedUp])
  | lost h hs hg hf =>
    exact absurd hup ((join_joined a c (lose (probedUp a c s.cut))).notUp Association.noConfusion)
  | landed h hs hf => exact .landed hs h hf rfl (probed_mem_associate a c s.cut)
  | waiting h deadline hs hf hd =>
    rw [show (polled a c s.cut).watch.state = .joining deadline from hs] at hup
    cases hup
  | expired h deadline hs hf hd => cases hup
  | asked h hs hf =>
    have hdown : (probed a c s.cut).watch.state ≠ .up := by
      rw [show (probed a c s.cut).watch.state = .down from hs]
      exact Association.noConfusion
    exact absurd hup ((join_joined a c (probed a c s.cut)).notUp hdown)

theorem pass_upAfter {a : Answers H} {c : Clock} {s : Runner H Q}
    (hup : (pass a c s).1.watch.state = .up) : UpAfter a c (sampled a c s) (watched a c s) :=
  watch_upAfter a c (sampled a c s) ((congrArg Watch.state (pass_same a c s).watch).symm.trans hup)

/-! ### The timers of a run -/

structure Paced (w : World H Q) : Prop where
  heard : w.runner.heard ≤ w.clock
  due : w.runner.watch.state = .up → w.runner.watch.due ≤ w.clock + probeInterval

theorem start_paced (reconnect : Option (Reconnect H)) (o : Opening) :
    Paced (start Q reconnect o) :=
  ⟨le_rfl, fun _ => Nat.add_le_add_right (o.watch_le.trans o.due_le) _⟩

theorem pass_paced {w : World H Q} (hw : Paced w) {a : Answers H} {c : Clock}
    (hc : c.InOrder w.clock) : Paced (step w (.pass a c)) := by
  have hheard : (step w (.pass a c)).runner.heard = (sampled a c w.runner).heard :=
    (pass_gates a c w.runner).heard
  have hdue := step_watch w a c
  have hclock : (step w (.pass a c)).clock = c.last := rfl
  have hs := (sampled_same a c w.runner).watch
  have hlast := hc.since_le_last
  have hpast := hc.heard_le_watchGate.trans hc.watchGate_le_last
  have hprobe := hc.probeDue_le_last
  have hassociate := hc.associateDue_le_last
  have hwas := hw.heard
  refine ⟨?_, fun hup => ?_⟩
  · rw [hheard, hclock, sampled_heard]
    split <;> omega
  · rw [hdue, hclock]
    cases pass_upAfter hup with
    | early was h due =>
      rw [hs] at was due
      have := hw.due was
      omega
    | carrying was h hg due =>
      rw [hs] at was due
      have := hw.due was
      omega
    | present was h hg hf due => omega
    | landed was h hf due => omega

theorem step_paced {w : World H Q} (hw : Paced w) (e : Event H) (he : enabled w e) :
    Paced (step w e) := by
  rcases step_frame w e with ⟨a, c, rfl⟩ | h
  · exact pass_paced hw he
  · exact ⟨by rw [h.heard, h.clock]; exact hw.heard, by rw [h.watch, h.clock]; exact hw.due⟩

theorem run_paced {reconnect : Option (Reconnect H)} {o : Opening} {es : List (Event H)}
    {w : World H Q} (h : (wifi H Q).Run (start Q reconnect o) es w) : Paced w :=
  h.invariant (start_paced reconnect o) fun _ e hu he => step_paced hu e he

/-! ### No network found since `T0` -/

/-- Still `Up`, so no step of the watch has read the clock at `T0 + rxSilence` or
later in the passes `rs` made since, and the next one to do so asks. -/
structure Unnoticed (T0 : Nat) (rs : List (Record H)) (w : World H Q) : Prop where
  due : w.runner.watch.state = .up → w.runner.watch.due ≤ T0 + probeInterval
  reads : w.runner.watch.state = .up → ∀ r ∈ rs, ∀ t ∈ readings r.watch, t < T0 + rxSilence

theorem Paced.unnoticed {w : World H Q} (hw : Paced w) {T0 : Nat} (hT0 : w.clock ≤ T0) :
    Unnoticed T0 [] w :=
  ⟨fun hup => (hw.due hup).trans (Nat.add_le_add_right hT0 _),
    fun _ _ hr => absurd hr List.not_mem_nil⟩

theorem Unnoticed.frame {T0 : Nat} {rs : List (Record H)} {v w : World H Q}
    (hv : Unnoticed T0 rs v) (h : Frame v w) : Unnoticed T0 rs w :=
  ⟨by rw [h.watch]; exact hv.due, by rw [h.watch]; exact hv.reads⟩

/-- A pass that finds no network stays `Up` only through one of the two early
returns; `hgate` says why the second is behind by `T0 + rxSilence`. -/
theorem pass_unnoticed {T0 : Nat} {rs : List (Record H)} {w : World H Q}
    (hw : Unnoticed T0 rs w) {a : Answers H} {c : Clock} (hc : c.InOrder w.clock)
    (habsent : .bssid a.bssid ∈ (watched a c w.runner).calls → found a.bssid = false)
    (hgate : w.runner.watch.state = .up → w.runner.watch.due ≤ c.watchGate →
      c.silenceGate < (sampled a c w.runner).heard + rxSilence → c.silenceGate < T0 + rxSilence) :
    Unnoticed T0 (rs ++ [(pass a c w.runner).2]) (step w (.pass a c)) := by
  have hs := (sampled_same a c w.runner).watch
  have hdue := step_watch w a c
  have hwatch : (pass a c w.runner).2.watch = (watched a c w.runner).calls := rfl
  have hreads : w.runner.watch.state = .up →
      (∀ t ∈ readings (watched a c w.runner).calls, t < T0 + rxSilence) →
      ∀ r ∈ rs ++ [(pass a c w.runner).2], ∀ t ∈ readings r.watch, t < T0 + rxSilence := by
    intro was hlast r hr
    rcases List.mem_append.mp hr with hr | hr
    · exact hw.reads was r hr
    · rw [List.mem_singleton.mp hr, hwatch]
      exact hlast
  refine ⟨fun hup => ?_, fun hup => ?_⟩
  · rw [hdue]
    cases pass_upAfter hup with
    | early was h due => exact due.trans_le (hs ▸ hw.due (hs ▸ was))
    | carrying was h hg due => exact due.trans_le (hs ▸ hw.due (hs ▸ was))
    | present was h hg hf due calls => exact absurd hf (Bool.eq_false_iff.mp (habsent calls))
    | landed was h hf due calls => exact absurd hf (Bool.eq_false_iff.mp (habsent calls))
  · cases pass_upAfter hup with
    | early was h due calls =>
      rw [hs] at was h
      refine hreads was fun t ht => ?_
      rw [calls] at ht
      obtain rfl : t = c.watchGate := by simpa using ht
      have hbound := hw.due was
      simp only [probeInterval, rxSilence, fromSecs] at hbound ⊢
      omega
    | carrying was h hg due calls =>
      rw [hs] at was h
      have hg := hgate was h hg
      have hgates := hc.silenceGate
      refine hreads was fun t ht => ?_
      rw [calls] at ht
      rcases List.mem_pair.mp ht with rfl | rfl <;> omega
    | present was h hg hf due calls => exact absurd hf (Bool.eq_false_iff.mp (habsent calls))
    | landed was h hf due calls => exact absurd hf (Bool.eq_false_iff.mp (habsent calls))

theorem records_pass {w0 w : World H Q} {rs : List (Record H)} (h : w.records = w0.records ++ rs)
    (a : Answers H) (c : Clock) :
    (step w (.pass a c)).records = w0.records ++ (rs ++ [(pass a c w.runner).2]) := by
  rw [← List.append_assoc, ← h]
  rfl

theorem forall_records_snoc {ok : Call H → Prop} {rs : List (Record H)} {r : Record H}
    (h : ∀ q ∈ rs ++ [r], ∀ call ∈ q.calls, ok call) :
    (∀ q ∈ rs, ∀ call ∈ q.calls, ok call) ∧ ∀ call ∈ r.calls, ok call :=
  ⟨fun q hq => h q (List.mem_append_left _ hq),
    h r (List.mem_append_right _ (List.mem_singleton_self _))⟩

theorem not_up_told_down {reconnect : Option (Reconnect H)} {w : World H Q}
    (hw : Agrees reconnect w) (hdown : w.runner.watch.state ≠ .up) :
    w.runner.statics.associated = false ∧ (linkStates w.calls).getLast? = some .down := by
  have hassociated : ¬ w.runner.statics.associated = true := mt hw.inStep.state.mpr hdown
  have hlast := mt (told_last hw.inStep hw.told).mpr hassociated
  refine ⟨Bool.eq_false_iff.mpr hassociated, ?_⟩
  rw [List.getLast?_eq_some_getLast hw.told] at hlast ⊢
  cases h : (linkStates w.calls).getLast hw.told with
  | down => rfl
  | up => exact absurd (congrArg some h) hlast

theorem noticed {reconnect : Option (Reconnect H)} {T0 : Nat} {rs : List (Record H)}
    {w : World H Q} (hagrees : Agrees reconnect w) (hw : Unnoticed T0 rs w)
    (hread : ∃ r ∈ rs, ∃ t ∈ readings r.watch, T0 + rxSilence ≤ t) :
    w.runner.watch.state ≠ .up ∧ w.runner.statics.associated = false ∧
      (linkStates w.calls).getLast? = some .down := by
  have hdown : w.runner.watch.state ≠ .up := fun hup => by
    obtain ⟨r, hr, t, ht, hle⟩ := hread
    exact absurd hle (Nat.not_le_of_lt (hw.reads hup r hr t ht))
  exact ⟨hdown, not_up_told_down hagrees hdown⟩

/-! ### Nothing heard -/

/-- A call that tells nothing of a network: `recv_ethernet` has no frame, the
probe finds no access point. -/
def Call.Silent : Call H → Prop
  | .recvEthernet answer _ => answer = .ok none
  | .bssid answer => found answer = false
  | _ => True

instance : DecidablePred (Call.Silent (H := H))
  | .recvEthernet (.ok none) _ => .isTrue rfl
  | .recvEthernet (.ok (some _)) _ => .isFalse fun h => by cases h
  | .recvEthernet (.error _) _ => .isFalse fun h => by cases h
  | .bssid answer => inferInstanceAs (Decidable (found answer = false))
  | .now _ | .sendEthernet _ _ | .rssiDbm _ | .linkRateKbps _ | .startJoin _ _ _
  | .setPowerManagement _ _ | .setAllMulticast _ _ | .counters _ | .setLinkState _ =>
    .isTrue trivial

theorem drained_silent {a : Answers H} {s : Runner H Q}
    (h : ∀ call ∈ (drained a s).2.calls, call.Silent) : (drained a s).1 = false := by
  have hreceive := receive_keeps (a := a) (s := s.countPass.cut)
    (P := fun received t => received = true → ∃ call ∈ t.calls, ¬ call.Silent)
    (fun h => Bool.noConfusion h)
    (fun received t buffer ht _ h => by
      obtain ⟨call, hc, hns⟩ := ht h
      exact ⟨call, List.mem_append_left _ hc, hns⟩)
    (fun received t buffer len _ _ _ =>
      ⟨_, List.mem_append_right _ (List.mem_singleton_self _), fun h => by cases h⟩)
    (fun received t buffer error _ _ _ =>
      ⟨_, List.mem_append_right _ (List.mem_singleton_self _), fun h => by cases h⟩)
  refine Bool.eq_false_iff.mpr fun htrue => ?_
  obtain ⟨call, hc, hns⟩ := hreceive htrue
  exact hns (h call hc)

theorem drained_mem_pass {a : Answers H} {c : Clock} {s : Runner H Q} {call : Call H}
    (h : call ∈ (drained a s).2.calls) : call ∈ (pass a c s).2.calls := by
  rw [pass_eq]
  simp only [Record.calls, List.mem_append]
  exact Or.inl (Or.inl (Or.inl (Or.inl (Or.inl h))))

theorem watched_mem_pass {a : Answers H} {c : Clock} {s : Runner H Q} {call : Call H}
    (h : call ∈ (watched a c s).calls) : call ∈ (pass a c s).2.calls :=
  (watched_within a c s).subset h

def Unheard (T0 : Nat) (w0 w : World H Q) : Prop :=
  ∃ rs, w.records = w0.records ++ rs ∧
    ((∀ r ∈ rs, ∀ call ∈ r.calls, call.Silent) → w.runner.heard ≤ T0 ∧ Unnoticed T0 rs w)

theorem pass_unheard {T0 : Nat} {w0 w : World H Q} (hw : Unheard T0 w0 w)
    (a : Answers H) {c : Clock} (hc : c.InOrder w.clock) : Unheard T0 w0 (step w (.pass a c)) := by
  obtain ⟨rs, hrs, hw⟩ := hw
  refine ⟨_, records_pass hrs a c, fun hsilent => ?_⟩
  obtain ⟨hbefore, hpass⟩ := forall_records_snoc hsilent
  obtain ⟨hheard, hunnoticed⟩ := hw hbefore
  have hnone : (pass a c w.runner).2.received = false :=
    drained_silent fun call hc => hpass call (drained_mem_pass hc)
  have hsampled : (sampled a c w.runner).heard ≤ T0 := by
    rw [sampled_heard, hnone]
    exact hheard
  refine ⟨(pass_gates a c w.runner).heard.trans_le hsampled, pass_unnoticed hunnoticed hc ?_ ?_⟩
  · exact fun hcall => hpass _ (watched_mem_pass hcall)
  · intro _ _ hg
    omega

theorem step_unheard {T0 : Nat} {w0 w : World H Q} (hw : Unheard T0 w0 w) (e : Event H)
    (he : enabled w e) : Unheard T0 w0 (step w e) := by
  rcases step_frame w e with ⟨a, c, rfl⟩ | h
  · exact pass_unheard hw a he
  · obtain ⟨rs, hrs, hw⟩ := hw
    refine ⟨rs, h.records.trans hrs, fun hsilent => ?_⟩
    exact ⟨h.heard.trans_le (hw hsilent).1, (hw hsilent).2.frame h⟩

/-- Nothing heard and nothing found from `T0` on: behind every step of the watch
that has read the clock at `T0 + rxSilence` or later, the stack has been told. -/
theorem vanished_network_noticed (reconnect : Option (Reconnect H)) (o : Opening)
    (es : List (Event H)) (w0 : World H Q) (h0 : (wifi H Q).Run (start Q reconnect o) es w0)
    (T0 : Nat) (hT0 : w0.clock ≤ T0) (fs : List (Event H)) (w : World H Q)
    (h : (wifi H Q).Run w0 fs w) (rs : List (Record H)) (hrs : w.records = w0.records ++ rs)
    (hsilent : ∀ r ∈ rs, ∀ call ∈ r.calls, call.Silent)
    (hread : ∃ r ∈ rs, ∃ t ∈ readings r.watch, T0 + rxSilence ≤ t) :
    w.runner.watch.state ≠ .up ∧ w.runner.statics.associated = false ∧
      (linkStates w.calls).getLast? = some .down := by
  have hpaced := run_paced h0
  have hstart : Unheard T0 w0 w0 :=
    ⟨[], (List.append_nil _).symm, fun _ => ⟨hpaced.heard.trans hT0, hpaced.unnoticed hT0⟩⟩
  obtain ⟨qs, hqs, hw⟩ := h.invariant hstart fun _ e hu he => step_unheard hu e he
  obtain rfl : rs = qs := List.append_cancel_left (hrs.symm.trans hqs)
  exact noticed (run_agrees (h0.append h)) (hw hsilent).2 hread

theorem vanished_network_noticed_while_sending :
    ∃ w : World unitHal (fifoChannel 1514 1 1),
      (wifi unitHal (fifoChannel 1514 1 1)).Run (powerOn none)
        ([.pass onNetwork (.still 1000)] ++
          [.stackTransmit [1, 2, 3], .pass offNetwork (.still (fromSecs 11))]) w ∧
      w.runner.statics.txFrames = 1 ∧ w.runner.statics.associated = false ∧
      (linkStates w.calls).getLast? = some .down := by
  have h0 := run_event (.nil (s := powerOn none)) (.pass onNetwork (.still 1000))
    (Clock.still_inOrder (by decide))
  let queued := step (step (powerOn none) (.pass onNetwork (.still 1000)))
    (.stackTransmit [1, 2, 3])
  have hqueue := run_event (.nil (s := step (powerOn none) (.pass onNetwork (.still 1000))))
    (.stackTransmit [1, 2, 3]) trivial
  have h := run_event hqueue (.pass offNetwork (.still (fromSecs 11)))
    (Clock.still_inOrder (by decide))
  have hw := vanished_network_noticed none _ _ _ h0 1000 (by decide) _ _ h
    [(pass offNetwork (.still (fromSecs 11)) queued.runner).2] rfl (by decide +kernel)
    (by decide +kernel)
  exact ⟨_, h0.append h, by decide +kernel, hw.2⟩

end RpiHalEmbassy.Wifi
