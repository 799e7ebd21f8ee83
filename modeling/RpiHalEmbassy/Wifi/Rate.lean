import RpiHalEmbassy.Library.Throttle
import RpiHalEmbassy.Wifi.Control

/-!
# How often the chip is disturbed

Each kind of control command stands behind a time it is due: the link sample behind
`due`, a probe behind the watch's, the next join and the next restoring of an
association behind what the watch still has to go through first. Each is a throttle
the runner refines, so that over any stretch of a run the control commands are bounded
by the time that goes by and the readings asked for.
-/

namespace RpiHalEmbassy.Wifi
open Machines Net

variable {H : Hal} {Q : Channel} {α : Type}

/-- The calls that are a round trip of the control path. -/
def Call.roundTrip : Call H → Bool
  | .rssiDbm _ | .linkRateKbps _ | .bssid _ | .startJoin _ _ _ | .setPowerManagement _ _
  | .setAllMulticast _ _ | .counters _ => true
  | .now _ | .recvEthernet _ _ | .sendEthernet _ _ | .setLinkState _ => false

@[simp] def Call.rssiDbm? : Call H → Option (Result H Int32)
  | .rssiDbm answer => some answer
  | _ => none

@[simp] def Call.setPowerManagement? : Call H → Option (Result H Unit)
  | .setPowerManagement _ answer => some answer
  | _ => none

def roundTrips (calls : List (Call H)) : List (Call H) := calls.filter Call.roundTrip

abbrev samples (calls : List (Call H)) : List (Result H Int32) := calls.filterMap Call.rssiDbm?

abbrev restores (calls : List (Call H)) : List (Result H Unit) :=
  calls.filterMap Call.setPowerManagement?

theorem roundTrips_append (k l : List (Call H)) :
    roundTrips (k ++ l) = roundTrips k ++ roundTrips l := List.filter_append _ _

theorem filterMap_roundTrips {f : Call H → Option α}
    (hf : ∀ call : Call H, call.roundTrip = false → f call = none) (calls : List (Call H)) :
    (roundTrips calls).filterMap f = calls.filterMap f := by
  induction calls with
  | nil => rfl
  | cons call calls ih =>
    cases hcall : call.roundTrip with
    | true => rw [roundTrips, List.filter_cons_of_pos hcall, List.filterMap_cons, ← roundTrips, ih,
        List.filterMap_cons]
    | false => rw [roundTrips, List.filter_cons_of_neg (by simp [hcall]), ← roundTrips, ih,
        List.filterMap_cons_none (hf call hcall)]

/-! ### What a pass asks -/

/-- No join before this: one under way is still to land, to be `Up` and to be lost. -/
def Watch.joinDue (w : Watch H) : Nat :=
  match w.state with
  | .joining _ => w.due + probeInterval
  | _ => w.due

/-- No association before this: one that stands is still to be lost and joined again. -/
def Watch.restoreDue (w : Watch H) : Nat :=
  match w.state with
  | .up => w.due + joinPoll
  | _ => w.due

/-- What a pass of the watch asks the chip, and what that puts off. -/
inductive Asking (a : Answers H) (c : Clock) (s t : Watch H) : List (Call H) → Prop
  | nothing (same : t = s) : Asking a c s t []
  | probed (hgate : s.due ≤ c.watchGate) (hnext : c.watchGate + joinPoll ≤ t.due)
      (hjoin : s.joinDue ≤ t.joinDue) (hrestore : s.restoreDue ≤ t.restoreDue) :
      Asking a c s t [.bssid a.bssid]
  | joined (ssid passphrase : String) (hgate : s.due ≤ c.watchGate)
      (hnext : c.watchGate + joinPoll ≤ t.due)
      (hjoin : s.joinDue ≤ c.watchGate ∧ c.watchGate + (probeInterval + joinPoll) ≤ t.joinDue)
      (hrestore : s.restoreDue ≤ t.restoreDue) :
      Asking a c s t [.bssid a.bssid, .startJoin ssid passphrase a.startJoin]
  | restored (reconnect : Reconnect H) (hgate : s.due ≤ c.watchGate)
      (hnext : c.watchGate + joinPoll ≤ t.due) (hjoin : s.joinDue ≤ t.joinDue)
      (hrestore : s.restoreDue ≤ c.watchGate ∧
        c.watchGate + (probeInterval + joinPoll) ≤ t.restoreDue) :
      Asking a c s t [.bssid a.bssid,
        .setPowerManagement reconnect.powerManagement a.setPowerManagement,
        .setAllMulticast reconnect.allMulticast a.setAllMulticast]

theorem Watch.joinDue_bounds (w : Watch H) :
    w.due ≤ w.joinDue ∧ w.joinDue ≤ w.due + probeInterval := by
  unfold Watch.joinDue
  split <;> omega

theorem Watch.restoreDue_bounds (w : Watch H) :
    w.due ≤ w.restoreDue ∧ w.restoreDue ≤ w.due + joinPoll := by
  unfold Watch.restoreDue
  split <;> omega

theorem Watch.joinDue_of_joining {w : Watch H} {deadline : Nat}
    (h : w.state = .joining deadline) : w.joinDue = w.due + probeInterval := by
  rw [Watch.joinDue, h]

theorem Watch.joinDue_of_not_joining {w : Watch H} (h : ∀ d, w.state ≠ .joining d) :
    w.joinDue = w.due := by
  unfold Watch.joinDue
  split
  · next d hd => exact absurd hd (h d)
  · rfl

theorem Watch.restoreDue_of_up {w : Watch H} (h : w.state = .up) :
    w.restoreDue = w.due + joinPoll := by
  rw [Watch.restoreDue, h]

theorem Watch.restoreDue_of_not_up {w : Watch H} (h : w.state ≠ .up) : w.restoreDue = w.due := by
  unfold Watch.restoreDue
  split
  · next hup => exact absurd hup h
  · rfl

/-- A probe that puts the watch off by a `probeInterval` puts everything off. -/
theorem Asking.far {a : Answers H} {c : Clock} {s t : Watch H} (hgate : s.due ≤ c.watchGate)
    (hfar : c.watchGate + probeInterval ≤ t.due) : Asking a c s t [.bssid a.bssid] := by
  have hpoll : joinPoll ≤ probeInterval := by decide
  have hjoin := s.joinDue_bounds
  have hjoin' := t.joinDue_bounds
  have hrestore := s.restoreDue_bounds
  have hrestore' := t.restoreDue_bounds
  exact .probed hgate (by omega) (by omega) (by omega)

/-- A join behind a probe, of a watch that was not joining. -/
theorem join_asking {c : Clock} {since : Nat} (hc : c.InOrder since) (a : Answers H) {s : Watch H}
    {u : Runner H Q} (hgate : s.due ≤ c.watchGate) (hs : ∀ d, s.state ≠ .joining d)
    (hcalls : roundTrips u.calls = [.bssid a.bssid]) :
    Asking a c s (join a c u).watch (roundTrips (join a c u).calls) := by
  have hwatch := hc.gate_le_probeDue.trans hc.probeDue_le_joinWatchDue
  have hdeadline := hc.gate_le_probeDue.trans hc.probeDue_le_joinDeadline
  have hjoinDue := hc.joinDue
  have hretryDue := hc.joinRetryDue
  have hconst : joinPoll + probeInterval ≤ retryInterval := by decide
  have hjoin := Watch.joinDue_of_not_joining hs
  have hrestore := s.restoreDue_bounds
  have h := join_step a c u
  generalize join a c u = t at h ⊢
  cases h with
  | nothing =>
    rw [show roundTrips _ = [.bssid a.bssid] by simpa [roundTrips, Call.roundTrip] using hcalls]
    refine .far hgate ?_
    show c.watchGate + probeInterval ≤ c.joinWatchDue + probeInterval
    omega
  | issued reconnect h ha =>
    rw [show roundTrips _ = [.bssid a.bssid, .startJoin reconnect.ssid reconnect.passphrase
      a.startJoin] by simp [roundTrips_append, hcalls, ha]; rfl]
    generalize ht : Runner.setDue _ _ = t
    have hdue : t.watch.due = c.joinDue + joinPoll := by rw [← ht]; rfl
    have hnext := Watch.joinDue_of_joining (w := t.watch) (by rw [← ht]; rfl)
    have hafter := t.watch.restoreDue_bounds
    exact .joined _ _ hgate (by omega) ⟨by omega, by omega⟩ (by omega)
  | refused reconnect error h ha =>
    rw [show roundTrips _ = [.bssid a.bssid, .startJoin reconnect.ssid reconnect.passphrase
      a.startJoin] by simp [roundTrips_append, hcalls, ha]; rfl]
    generalize ht : Runner.setDue _ _ = t
    have hdue : t.watch.due = c.joinRetryDue + retryInterval := by rw [← ht]; rfl
    have hnext := t.watch.joinDue_bounds
    have hafter := t.watch.restoreDue_bounds
    exact .joined _ _ hgate (by omega) ⟨by omega, by omega⟩ (by omega)

theorem watchPass_asking {c : Clock} {since : Nat} (hc : c.InOrder since) (a : Answers H)
    (s : Runner H Q) :
    Asking a c s.watch (watchPass a c s.cut).watch (roundTrips (watchPass a c s.cut).calls) := by
  have hprobe := hc.gate_le_probeDue
  have hassociate := hc.gate_le_associateDue
  have hpollDue := hc.gate_le_pollDue
  have hretryDue := hc.gate_le_retryDue
  have hpoll : joinPoll ≤ probeInterval := by decide
  have hretry : probeInterval ≤ retryInterval := by decide
  have h := watchPass_step a c s.cut
  generalize watchPass a c s.cut = t at h ⊢
  cases h with
  | early | carrying => exact .nothing rfl
  | present h =>
    refine .far h ?_
    show c.watchGate + probeInterval ≤ c.probeDue + probeInterval
    omega
  | lost h hs =>
    exact join_asking hc a h (fun d hd => Association.noConfusion (hs.symm.trans hd)) rfl
  | asked h hs =>
    exact join_asking hc a h (fun d hd => Association.noConfusion (hs.symm.trans hd)) rfl
  | landed h hs =>
    have hdue : (associate a c (probed a c s.cut)).watch.due = c.associateDue + probeInterval :=
      rfl
    cases hreconnect : (probed a c s.cut).watch.reconnect with
    | none =>
      rw [show roundTrips _ = [.bssid a.bssid] by simp only [associate, restore, hreconnect]; rfl]
      exact .far h (by omega)
    | some reconnect =>
      rw [show roundTrips _ = [.bssid a.bssid,
        .setPowerManagement reconnect.powerManagement a.setPowerManagement,
        .setAllMulticast reconnect.allMulticast a.setAllMulticast] by
          simp only [associate, restore, hreconnect]; rfl]
      have hup := Watch.restoreDue_of_up (w := (associate a c (probed a c s.cut)).watch) rfl
      have hdown := Watch.restoreDue_of_not_up (w := s.watch) hs
      have hjoin := s.watch.joinDue_bounds
      have hafter := (associate a c (probed a c s.cut)).watch.joinDue_bounds
      have h : s.watch.due ≤ c.watchGate := h
      exact .restored _ h (by omega) (by omega) ⟨by omega, by omega⟩
  | waiting h deadline hs =>
    have hdue : (polled a c s.cut).watch.due = c.pollDue + joinPoll := rfl
    have hbefore := Watch.joinDue_of_joining (w := s.watch) hs
    have hjoin := Watch.joinDue_of_joining (w := (polled a c s.cut).watch) hs
    have hdown := Watch.restoreDue_of_not_up (w := s.watch) fun hup =>
      Association.noConfusion (hs.symm.trans hup)
    have hrestore := (polled a c s.cut).watch.restoreDue_bounds
    have h : s.watch.due ≤ c.watchGate := h
    exact .probed h (by omega) (by omega) (by omega)
  | expired h =>
    refine .far h ?_
    show c.watchGate + probeInterval ≤ c.retryDue + retryInterval
    omega

theorem Only.roundTrips_nil {k : Kind} {calls : List (Call H)} (h : Only k calls)
    (hk : ∀ call : Call H, call.kind = k → call.roundTrip = false) : roundTrips calls = [] := by
  refine List.filter_eq_nil_iff.mpr fun call hc hcontrol => ?_
  rcases h call hc with hkind | hkind
  · cases call <;> first | exact absurd hcontrol Bool.false_ne_true | cases hkind
  · exact absurd hcontrol (by simp [hk call hkind])

theorem pass_roundTrips (a : Answers H) (c : Clock) (s : Runner H Q) :
    roundTrips (pass a c s).2.calls = roundTrips (sampled a c s).calls ++
      roundTrips (watched a c s).calls ++
      roundTrips (sampleCounters a (watched a c s).cut).calls := by
  have hparted := pass_parted a c s
  have hreceive := (hparted .receive).roundTrips_nil fun call hk => by
    cases call <;> first | rfl | cases hk
  have htransmit := (hparted .transmit).roundTrips_nil fun call hk => by
    cases call <;> first | rfl | cases hk
  have hnote := (hparted .clock).roundTrips_nil fun call hk => by
    cases call <;> first | rfl | cases hk
  simp only [Record.part] at hreceive htransmit hnote
  simp only [Record.calls, roundTrips_append, hreceive, htransmit, hnote, List.nil_append]
  rfl

/-! ### Each kind is throttled -/

/-- At most one command, past what was due, with the next a `gap` behind it. -/
inductive Turned (gap : Nat) (due : Runner H Q → Nat) (c : Clock) (s t : Runner H Q) :
    List α → Prop
  | kept (h : due s ≤ due t) : Turned gap due c s t []
  | made (x : α) (read : Nat) (hdue : due s ≤ read) (hnext : read + gap ≤ due t)
      (hread : c.heard ≤ read ∧ read ≤ c.last) : Turned gap due c s t [x]

/-- The commands `f` picks out are made once they are `due`, and then not for a `gap`. -/
structure Gate (Q : Channel) (f : Call H → Option α) (gap : Nat) (due : Runner H Q → Nat) :
    Prop where
  same : ∀ s t : Runner H Q, t.due = s.due → t.watch = s.watch → due t = due s
  turn : ∀ (a : Answers H) (c : Clock) (since : Nat) (s : Runner H Q), c.InOrder since →
    Turned gap due c s (pass a c s).1 ((pass a c s).2.calls.filterMap f)

theorem Gate.refines {f : Call H → Option α} {gap : Nat} {due : Runner H Q → Nat}
    (h : Gate Q f gap due) :
    Refines (wifi H Q) (throttle gap) (fun w t => t = ⟨due w.runner, w.clock⟩)
      (fun w e => (Event.calls w e).filterMap f) Beat.fired := by
  constructor
  rintro w _ e rfl he
  by_cases hpass : ∃ a c, e = .pass a c
  · obtain ⟨a, c, rfl⟩ := hpass
    have horder : c.InOrder w.clock := he
    have hs := h.turn a c w.clock w.runner horder
    have hheard := horder.heard
    have hlast := horder.since_le_last
    change ∃ js t', (throttle gap).Run ⟨due w.runner, w.clock⟩ js t' ∧
      js.filterMap Beat.fired = (pass a c w.runner).2.calls.filterMap f ∧
      t' = ⟨due (pass a c w.runner).1, c.last⟩
    generalize pass a c w.runner = r at hs ⊢
    generalize r.2.calls.filterMap f = made at hs ⊢
    cases hs with
    | kept h => exact ⟨[.wait _ _], _, .single ⟨h, hlast⟩, rfl, rfl⟩
    | made x read hdue hnext hread =>
      exact ⟨[.fire read _ _ x], _, .single ⟨⟨hdue, hnext⟩, hheard.trans hread.1, hread.2⟩, rfl,
        rfl⟩
  · have hframe := (step_frame w e).resolve_left hpass
    refine ⟨[], _, .nil, ?_, ?_⟩
    · rw [Event.calls_nil w hpass]
      rfl
    · change Throttle.mk _ _ = ⟨due (step w e).runner, (step w e).clock⟩
      rw [hframe.clock, h.same _ _ hframe.due hframe.watch]

/-- Over any stretch, once in each `gap` that goes by and once more. -/
theorem Gate.bounded {f : Call H → Option α} {gap : Nat} {due : Runner H Q → Nat}
    (h : Gate Q f gap due) (hgap : 0 < gap) {w w' : World H Q} {es : List (Event H)}
    (hrun : (wifi H Q).Run w es w') :
    (((wifi H Q).shown Event.calls w es).filterMap f).length ≤
      (w'.clock - w.clock) / gap + 1 := by
  rw [← Machine.shown_filterMap]
  exact Refines.throttled (fun w => due w.runner) World.clock h.refines hgap hrun

theorem samples_gate : Gate Q (Call.rssiDbm? (H := H)) linkInterval Runner.due where
  same _ _ hdue _ := hdue
  turn a c since s hc := by
    have hpart : (pass a c s).2.calls.filterMap Call.rssiDbm? =
        (sampled a c s).calls.filterMap Call.rssiDbm? :=
      (pass_parted a c s).filterMap (k := .sample) (by decide) fun call h => by
        cases call <;> first | rfl | exact absurd rfl h
    rw [hpart]
    have hdue := (pass_gates a c s).due
    have horder := hc.sampleDue
    cases pass_sampling a c s with
    | unmade hcalls hsame =>
      rw [List.filterMap_eq_nil_iff.mpr fun call hcall => by
        have hclock := hcalls call hcall
        cases call <;> first | rfl | cases hclock]
      exact .kept (by omega)
    | made _ hgate hcalls hsampled =>
      rw [hcalls]
      exact .made a.rssiDbm c.sampleGate hgate (by omega) ⟨hc.sampleGate, hc.sampleGate_le_last⟩

theorem pass_asking {c : Clock} {since : Nat} (hc : c.InOrder since) (a : Answers H)
    (s : Runner H Q) :
    Asking a c s.watch (pass a c s).1.watch (roundTrips (watched a c s).calls) := by
  rw [(pass_same a c s).watch, ← (sampled_same a c s).watch]
  exact watchPass_asking hc a (sampled a c s)

/-- A gate in the watch is one of what the watch asks. -/
theorem watch_gate {f : Call H → Option α} {gap : Nat} (due : Watch H → Nat)
    (hf : ∀ call : Call H, call.kind ≠ .watch → f call = none)
    (hcontrol : ∀ call : Call H, call.roundTrip = false → f call = none)
    (hasking : ∀ (a : Answers H) (c : Clock) (s t : Runner H Q) (calls : List (Call H)),
      c.heard ≤ c.watchGate ∧ c.watchGate ≤ c.last → Asking a c s.watch t.watch calls →
      Turned gap (fun s => due s.watch) c s t (calls.filterMap f)) :
    Gate Q f gap fun s => due s.watch where
  same _ _ _ hwatch := congrArg due hwatch
  turn a c since s hc := by
    have hpart : (pass a c s).2.calls.filterMap f = (watched a c s).calls.filterMap f :=
      (pass_parted a c s).filterMap (k := .watch) (by decide) hf
    rw [hpart, ← filterMap_roundTrips hcontrol]
    exact hasking a c s _ _ ⟨hc.heard_le_watchGate, hc.watchGate_le_last⟩ (pass_asking hc a s)

theorem bssids_gate : Gate Q (Call.bssid? (H := H)) joinPoll fun s => s.watch.due := by
  refine watch_gate Watch.due (fun call h => ?_) (fun call h => ?_) ?_
  · cases call <;> first | rfl | exact absurd rfl h
  · cases call <;> first | rfl | cases h
  · intro a c s t calls hread h
    cases h with
    | nothing same => exact .kept (same ▸ le_rfl)
    | probed hgate hnext => exact .made a.bssid c.watchGate hgate hnext hread
    | joined _ _ hgate hnext => exact .made a.bssid c.watchGate hgate hnext hread
    | restored _ hgate hnext => exact .made a.bssid c.watchGate hgate hnext hread

theorem startJoins_gate :
    Gate Q (Call.startJoin? (H := H)) (probeInterval + joinPoll) fun s => s.watch.joinDue := by
  refine watch_gate Watch.joinDue (fun call h => ?_) (fun call h => ?_) ?_
  · cases call <;> first | rfl | exact absurd rfl h
  · cases call <;> first | rfl | cases h
  · intro a c s t calls hread h
    cases h with
    | nothing same => exact .kept (same ▸ le_rfl)
    | probed _ _ hjoin => exact .kept hjoin
    | joined _ _ _ _ hjoin => exact .made a.startJoin c.watchGate hjoin.1 hjoin.2 hread
    | restored _ _ _ hjoin => exact .kept hjoin

theorem restores_gate : Gate Q (Call.setPowerManagement? (H := H)) (probeInterval + joinPoll)
    fun s => s.watch.restoreDue := by
  refine watch_gate Watch.restoreDue (fun call h => ?_) (fun call h => ?_) ?_
  · cases call <;> first | rfl | exact absurd rfl h
  · cases call <;> first | rfl | cases h
  · intro a c s t calls hread h
    cases h with
    | nothing same => exact .kept (same ▸ le_rfl)
    | probed _ _ _ hrestore => exact .kept hrestore
    | joined _ _ _ _ _ hrestore => exact .kept hrestore
    | restored _ _ _ _ hrestore =>
      exact .made a.setPowerManagement c.watchGate hrestore.1 hrestore.2 hread

/-! ### All of them together -/

/-- A sample is two round trips, a restoring two, everything else one. -/
def Tallied (calls : List (Call H)) : Prop :=
  calls.length = 2 * (samples calls).length + (bssids calls).length +
    (startJoins calls).length + 2 * (restores calls).length + (countersRead calls).length

theorem Tallied.append {k l : List (Call H)} (hk : Tallied k) (hl : Tallied l) :
    Tallied (k ++ l) := by
  unfold Tallied at hk hl ⊢
  simp only [samples, bssids, startJoins, restores, countersRead, List.filterMap_append,
    List.length_append] at hk hl ⊢
  omega

theorem Tallied.all {calls : List (Call H)} (h : Tallied (roundTrips calls)) :
    (roundTrips calls).length = 2 * (samples calls).length + (bssids calls).length +
      (startJoins calls).length + 2 * (restores calls).length + (countersRead calls).length := by
  have hsame : ∀ {β : Type} {f : Call H → Option β},
      (∀ call : Call H, call.roundTrip = false → f call = none) →
        ((roundTrips calls).filterMap f).length = (calls.filterMap f).length :=
    fun hf => congrArg List.length (filterMap_roundTrips hf calls)
  have hsamples := hsame (f := Call.rssiDbm?) fun call h => by
    cases call <;> first | rfl | cases h
  have hprobes := hsame (f := Call.bssid?) fun call h => by
    cases call <;> first | rfl | cases h
  have hjoins := hsame (f := Call.startJoin?) fun call h => by
    cases call <;> first | rfl | cases h
  have hrestores := hsame (f := Call.setPowerManagement?) fun call h => by
    cases call <;> first | rfl | cases h
  have hcounters := hsame (f := Call.counters?) fun call h => by
    cases call <;> first | rfl | cases h
  unfold Tallied at h
  simp only [samples, bssids, startJoins, restores, countersRead] at h ⊢
  omega

theorem Asking.tallied {a : Answers H} {c : Clock} {s t : Watch H} {calls : List (Call H)}
    (h : Asking a c s t calls) : Tallied calls := by
  cases h <;> rfl

theorem pass_tallied {c : Clock} {since : Nat} (hc : c.InOrder since) (a : Answers H)
    (s : Runner H Q) : Tallied (roundTrips (pass a c s).2.calls) := by
  rw [pass_roundTrips]
  refine (Tallied.append ?_ (pass_asking hc a s).tallied).append ?_
  · cases pass_sampling a c s with
    | unmade hcalls =>
      rw [show roundTrips (sampled a c s).calls = [] from
        List.filter_eq_nil_iff.mpr fun call hcall => by
          have hclock := hcalls call hcall
          cases call <;> first | exact Bool.false_ne_true | cases hclock]
      rfl
    | made _ _ hcalls =>
      rw [hcalls]
      rfl
  · have h := sampleCounters_step a (watched a c s).cut
    generalize sampleCounters a (watched a c s).cut = t at h ⊢
    cases h <;> rfl

theorem step_tallied {w : World H Q} {e : Event H} (he : enabled w e) :
    Tallied (roundTrips (Event.calls w e)) := by
  by_cases h : ∃ a c, e = .pass a c
  · obtain ⟨a, c, rfl⟩ := h
    exact pass_tallied he a w.runner
  · rw [Event.calls_nil w h]
    rfl

/-- Readings of the counters since `w`, and the one a raised flag still has coming. -/
def Read (w : World H Q) (calls : List (Call H)) (u : World H Q) : Prop :=
  (countersRead calls).length + (if u.runner.statics.countersWanted then 1 else 0) + w.requests ≤
    u.requests + 1

theorem step_read {w u : World H Q} {calls : List (Call H)} (h : Read w calls u) (e : Event H) :
    Read w (calls ++ Event.calls u e) (step u e) := by
  have hpaid := step_counters u e
  have hcalls : countersRead (calls ++ Event.calls u e) =
      countersRead calls ++ countersRead (Event.calls u e) := List.filterMap_append
  unfold World.wanted at hpaid
  unfold Read at h ⊢
  rw [hcalls, List.length_append]
  omega

/-- What the control path carries in `elapsed`, with `requests` of the counters. In `all` a
sample and a restoring count as the two commands each of them is. -/
structure Spared (elapsed requests : Nat) (calls : List (Call H)) : Prop where
  samples : (samples calls).length ≤ elapsed / linkInterval + 1
  probes : (bssids calls).length ≤ elapsed / joinPoll + 1
  joins : (startJoins calls).length ≤ elapsed / (probeInterval + joinPoll) + 1
  restores : (restores calls).length ≤ elapsed / (probeInterval + joinPoll) + 1
  counters : (countersRead calls).length ≤ requests + 1
  all : (roundTrips calls).length ≤ 2 * (elapsed / linkInterval + 1) +
    (elapsed / joinPoll + 1) + 3 * (elapsed / (probeInterval + joinPoll) + 1) + (requests + 1)

/-- Over any stretch of a run, however it came about. -/
theorem control_path_spared {w w' : World H Q} {es : List (Event H)}
    (h : (wifi H Q).Run w es w') {calls : List (Call H)} (hcalls : w'.calls = w.calls ++ calls) :
    Spared (w'.clock - w.clock) (w'.requests - w.requests) calls := by
  have hshown : w'.calls = w.calls ++ (wifi H Q).shown Event.calls w es ∧
      Tallied (roundTrips ((wifi H Q).shown Event.calls w es)) ∧
      Read w ((wifi H Q).shown Event.calls w es) w' := by
    refine h.shown_invariant (P := fun l u => u.calls = w.calls ++ l ∧ Tallied (roundTrips l) ∧
      Read w l u) ⟨(List.append_nil _).symm, rfl, ?_⟩ fun l u e hl he => ?_
    · show 0 + (if w.runner.statics.countersWanted then 1 else 0) + w.requests ≤ w.requests + 1
      split <;> omega
    · refine ⟨?_, ?_, step_read hl.2.2 e⟩
      · rw [show ((wifi H Q).step u e).calls = _ from step_calls u e, hl.1, List.append_assoc]
      · rw [roundTrips_append]
        exact hl.2.1.append (step_tallied he)
  obtain ⟨hshown, htallied, hread⟩ := hshown
  obtain rfl : calls = _ := List.append_cancel_left (hcalls.symm.trans hshown)
  have hsamples := samples_gate.bounded (by decide) h
  have hprobes := bssids_gate.bounded (by decide) h
  have hjoins := startJoins_gate.bounded (by decide) h
  have hrestores := restores_gate.bounded (by decide) h
  generalize (wifi H Q).shown Event.calls w es = calls at *
  have hcounters : (countersRead calls).length ≤ w'.requests - w.requests + 1 := by
    unfold Read at hread
    omega
  refine ⟨hsamples, hprobes, hjoins, hrestores, hcounters, ?_⟩
  have hall := htallied.all
  rw [samples, bssids, startJoins, restores] at hall
  omega

theorem control_path_spared_in_a_rejoin :
    ∃ w : World unitHal (fifoChannel 1514 1 1),
      (wifi unitHal (fifoChannel 1514 1 1)).Run (powerOn (some ⟨"net", "secret", (), false⟩))
        [.requestCounters, .pass offNetwork (.still (fromSecs 11)),
          .pass onNetwork (.still (fromSecs 11 + joinPoll))] w ∧
      (roundTrips w.calls).length = 6 ∧ Spared w.clock w.requests (w.calls.drop 4) := by
  have hrequest := run_event (.nil (s := powerOn (some ⟨"net", "secret", (), false⟩)))
    .requestCounters trivial
  have hlost := run_event hrequest (.pass offNetwork (.still (fromSecs 11)))
    (Clock.still_inOrder (by decide))
  have hlanded := run_event hlost (.pass onNetwork (.still (fromSecs 11 + joinPoll)))
    (Clock.still_inOrder (by decide))
  exact ⟨_, hlanded, by decide +kernel, control_path_spared hlanded rfl⟩

end RpiHalEmbassy.Wifi
