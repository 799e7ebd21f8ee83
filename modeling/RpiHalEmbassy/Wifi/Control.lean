import RpiHalEmbassy.Wifi.Silence

/-!
# When the runner disturbs the radio

Every control command stands behind a gate: the link sample behind a count of
quiet passes and its own `due`, the probe of a live association behind `heard`
and the watch's `due`, everything else of the watch behind a probe, and
`counters` behind the request flag. Each gate bounds what the passes behind it
did, and a pass that issues the command has read the clock at the bound.
-/

namespace RpiHalEmbassy.Wifi
open Machines Net Logs

variable {H : Hal} {Q : Channel}

def Record.MovedNothing (r : Record H) : Prop := r.received = false ∧ r.sent = false

def Record.Samples (r : Record H) : Prop := ∃ call ∈ r.calls, call.kind = .sample

def Record.Probes (r : Record H) : Prop := ∃ answer, .bssid answer ∈ r.calls

/-- What the control commands of a pass say of the passes `pre` before it. -/
structure Gated (o : Opening) (pre : List (Record H)) (r : Record H) : Prop where
  noted : r.received = true → ∃ t, r.note = [.now t]
  quiet : r.Samples → r.MovedNothing ∧
    ∃ before idle, pre = before ++ idle ∧ 99 ≤ idle.length ∧ ∀ q ∈ idle, q.MovedNothing
  spaced : r.Samples →
    (∃ gate due x y, r.sample = [.now gate, .now due, .rssiDbm x, .linkRateKbps y]) ∧
      ∀ p ∈ pre, p.Samples → ∀ t ∈ readings p.sample, ∀ u ∈ readings r.sample,
        t + linkInterval ≤ u
  silent : r.was = .up → r.Probes → ∃ g answer, [.now g, .bssid answer] <:+: r.watch ∧
    (∀ p ∈ pre ++ [r], p.received = true → ∀ t ∈ readings p.note, t + rxSilence ≤ g) ∧
    (∀ p ∈ pre, p.Probes → ∀ t ∈ readings p.watch, t + probeInterval ≤ g) ∧
    o.heard + rxSilence ≤ g ∧ o.watch + probeInterval ≤ g
  asked : (∃ call ∈ r.calls, call.kind = .watch) → r.Probes

/-! ### One pass -/

theorem pass_note (a : Answers H) (c : Clock) (s : Runner H Q) :
    (pass a c s).2.note = if (pass a c s).2.received then [.now c.heard] else [] := by
  rw [pass_eq]
  unfold moved
  dsimp only
  cases (drained a s).1 <;> rfl

inductive Sampling (a : Answers H) (c : Clock) (s : Runner H Q) : Prop
  | unmade (hcalls : ∀ call ∈ (sampled a c s).calls, call.kind = .clock)
      (hdue : (sampled a c s).due = s.due)
  | made (hquiet : linkQuietPasses ≤ (sampled a c s).quiet) (hgate : s.due ≤ c.sampleGate)
      (hcalls : (sampled a c s).calls =
        [.now c.sampleGate, .now c.sampleDue, .rssiDbm a.rssiDbm, .linkRateKbps a.linkRateKbps])
      (hdue : (sampled a c s).due = c.sampleDue + linkInterval)

theorem pass_sampling (a : Answers H) (c : Clock) (s : Runner H Q) : Sampling a c s := by
  have hm := (moved_spec a c s).due
  have h := sampleLink_step a c (moved a c s).cut
  suffices hs : ∀ m t : Runner H Q, m.due = s.due → SampleStep a c m.cut t →
      sampled a c s = t → Sampling a c s from hs _ _ hm h rfl
  intro m t hm h ht
  cases h with
  | busy h =>
    refine .unmade ?_ ?_ <;> rw [ht]
    · exact fun call hc => absurd hc List.not_mem_nil
    · exact hm
  | early h hd =>
    refine .unmade ?_ ?_ <;> rw [ht]
    · exact fun call hc => List.mem_singleton.mp hc ▸ rfl
    · exact hm
  | taken h hd sample hsample =>
    refine .made ?_ (hm ▸ hd) ?_ ?_ <;> rw [ht]
    · exact h
    · rfl

theorem sampled_quiet (a : Answers H) (c : Clock) (s : Runner H Q) :
    (sampled a c s).quiet = if (pass a c s).2.received || (pass a c s).2.sent then 0
      else saturatingIncr s.quiet := by
  rw [← (moved_spec a c s).quiet]
  have h := sampleLink_step a c (moved a c s).cut
  unfold sampled
  generalize moved a c s = m at h ⊢
  generalize sampleLink a c m.cut = t at h ⊢
  cases h <;> simp

inductive Probing (a : Answers H) (c : Clock) (s t : Runner H Q) : Prop
  | unasked (hcalls : ∀ call ∈ t.calls, call.kind = .clock)
      (hstate : t.watch.state = s.watch.state) (hdue : t.watch.due = s.watch.due)
  | carrying (was : s.watch.state = .up) (hdue : s.watch.due ≤ c.watchGate)
      (hgate : s.heard + rxSilence ≤ c.silenceGate)
      (hcalls : [.now c.probeDue, .bssid a.bssid] <:+: t.calls)
      (hafter : t.watch.state = .up → t.watch.due = c.probeDue + probeInterval ∧
        readings t.calls = [c.watchGate, c.silenceGate, c.probeDue])
  | gone (was : s.watch.state ≠ .up) (hcalls : [.now c.watchGate, .bssid a.bssid] <:+: t.calls)
      (hafter : t.watch.state = .up → t.watch.due = c.associateDue + probeInterval ∧
        readings t.calls = [c.watchGate, c.associateDue])

theorem probed_within (a : Answers H) (c : Clock) (s : Runner H Q) :
    [.now c.watchGate, .bssid a.bssid] <:+: (probed a c s.cut).calls :=
  ⟨[], [], rfl⟩

theorem probedUp_within (a : Answers H) (c : Clock) (s : Runner H Q) :
    [.now c.probeDue, .bssid a.bssid] <:+: (probedUp a c s.cut).calls :=
  ⟨[.now c.watchGate, .now c.silenceGate], [], rfl⟩

theorem watchPass_probing (a : Answers H) (c : Clock) (s : Runner H Q) :
    Probing a c s (watchPass a c s.cut) := by
  have hup : ∀ {st : Association}, s.watch.state = st → st ≠ .up → s.watch.state ≠ .up :=
    fun h hne => h ▸ hne
  have h := watchPass_step a c s.cut
  generalize watchPass a c s.cut = t at h ⊢
  cases h with
  | early h => exact .unasked (by simp [Call.kind]) rfl rfl
  | carrying h hs hg => exact .unasked (by simp [Call.kind]) rfl rfl
  | present h hs hg hf =>
    exact .carrying hs h hg (probedUp_within a c s) fun _ => ⟨rfl, by simp [probedUp]⟩
  | lost h hs hg hf =>
    have hj := join_joined a c (lose (probedUp a c s.cut))
    refine .carrying hs h hg ?_ fun hafter =>
      absurd hafter (hj.notUp Association.noConfusion)
    exact ((probedUp_within a c s).trans (List.prefix_append _ _).isInfix).trans
      (join_calls a c (lose (probedUp a c s.cut))).isInfix
  | landed h hs hf =>
    unfold associate restore
    cases (probed a c s.cut).watch.reconnect with
    | none =>
      refine .gone hs ?_ fun _ => ⟨rfl, by simp [probed]⟩
      exact ⟨[], [.setLinkState .up, .now c.associateDue], rfl⟩
    | some reconnect =>
      refine .gone hs ?_ fun _ => ⟨rfl, by simp [probed]⟩
      exact ⟨[], [_, _, .setLinkState .up, .now c.associateDue], rfl⟩
  | waiting h deadline hs hf hd =>
    have hne := hup hs Association.noConfusion
    refine .gone hne ?_ fun hafter => absurd hafter hne
    exact ⟨[], [.now c.pollDue, .now c.deadlineGate], rfl⟩
  | expired h deadline hs hf hd =>
    refine .gone (hup hs Association.noConfusion) ?_ fun hafter => Association.noConfusion hafter
    exact ⟨[], [.now c.pollDue, .now c.deadlineGate, .now c.retryDue], rfl⟩
  | asked h hs hf =>
    have hne := hup hs Association.noConfusion
    have hj := join_joined a c (probed a c s.cut)
    refine .gone hne ?_ fun hafter => absurd hafter (hj.notUp hne)
    exact (probed_within a c s).trans (join_calls a c (probed a c s.cut)).isInfix

theorem join_readings {c : Clock} {since : Nat} (hc : c.InOrder since) (a : Answers H)
    {s : Runner H Q} (hs : ∀ t ∈ readings s.calls, t ≤ c.last) :
    ∀ t ∈ readings (join a c s).calls, t ≤ c.last := by
  have hlast : c.joinRetryDue = c.last := rfl
  have hwatch := hc.joinWatchDue_le_last
  have hdeadline := hc.joinDeadline_le_last
  have hdue := hc.joinDue_le_last
  have h := join_step a c s
  generalize join a c s = u at h ⊢
  cases h <;>
    · intro t ht
      simp [-List.mem_filterMap] at ht hs ⊢
      rcases ht with ht | ht
      · exact hs t ht
      · omega

theorem watchPass_readings {c : Clock} {since : Nat} (hc : c.InOrder since) (a : Answers H)
    (s : Runner H Q) : ∀ t ∈ readings (watchPass a c s.cut).calls, t ≤ c.last := by
  have hjoin := fun u : Runner H Q => join_readings hc a (s := u)
  have hgate := hc.watchGate_le_last
  have hsilence := hc.silenceGate_le_last
  have hprobe := hc.probeDue_le_last
  have hassociate := hc.associateDue_le_last
  have hpoll := hc.pollDue_le_last
  have hdeadline := hc.deadlineGate_le_last
  have hretry := hc.retryDue_le_last
  have h := watchPass_step a c s.cut
  generalize watchPass a c s.cut = u at h ⊢
  cases h with
  | lost =>
    refine hjoin _ fun t ht => ?_
    simp [lose, probedUp] at ht
    omega
  | asked =>
    refine hjoin _ fun t ht => ?_
    simp [probed] at ht
    omega
  | landed =>
    unfold associate restore
    cases (probed a c s.cut).watch.reconnect <;>
      · intro t ht
        simp [probed] at ht
        omega
  | _ =>
    intro t ht
    simp [probedUp, polled, probed] at ht
    omega

/-! ### Over a run -/

structure Remembers (o : Opening) (w : World H Q) : Prop where
  heard : o.heard ≤ w.runner.heard ∧
    ∀ p ∈ w.records, p.received = true → ∀ t ∈ readings p.note, t ≤ w.runner.heard
  quiet : ∃ before idle, w.records = before ++ idle ∧ w.runner.quiet.toNat ≤ idle.length ∧
    ∀ q ∈ idle, q.MovedNothing
  due : ∀ p ∈ w.records, p.Samples → ∀ t ∈ readings p.sample, t + linkInterval ≤ w.runner.due
  probe : w.runner.watch.state = .up → o.watch + probeInterval ≤ w.runner.watch.due ∧
    ∀ p ∈ w.records, p.Probes → ∀ t ∈ readings p.watch, t + probeInterval ≤ w.runner.watch.due
  past : o.watch ≤ w.clock ∧ ∀ p ∈ w.records, ∀ t ∈ readings p.watch, t ≤ w.clock

theorem start_remembers (reconnect : Option (Reconnect H)) (o : Opening) :
    Remembers o (start Q reconnect o) where
  heard := ⟨le_rfl, fun _ hp => absurd hp List.not_mem_nil⟩
  quiet := ⟨[], [], rfl, le_rfl, fun _ hp => absurd hp List.not_mem_nil⟩
  due _ hp := absurd hp List.not_mem_nil
  probe _ := ⟨le_rfl, fun _ hp => absurd hp List.not_mem_nil⟩
  past := ⟨o.watch_le.trans o.due_le, fun _ hp => absurd hp List.not_mem_nil⟩

theorem saturatingIncr_le (n : UInt32) : (saturatingIncr n).toNat ≤ n.toNat + 1 := by
  unfold saturatingIncr
  split
  · exact Nat.le_succ _
  · rw [UInt32.toNat_add]
    exact Nat.mod_le _ _

theorem pass_remembers_quiet {o : Opening} {w : World H Q} (hw : Remembers o w) (a : Answers H)
    (c : Clock) : ∃ before idle, w.records ++ [(pass a c w.runner).2] = before ++ idle ∧
      (sampled a c w.runner).quiet.toNat ≤ idle.length ∧ ∀ q ∈ idle, q.MovedNothing := by
  rw [sampled_quiet]
  cases hmoved : (pass a c w.runner).2.received || (pass a c w.runner).2.sent with
  | true => exact ⟨_, [], (List.append_nil _).symm, le_rfl, fun _ hp => absurd hp List.not_mem_nil⟩
  | false =>
    obtain ⟨before, idle, hrecords, hlength, hidle⟩ := hw.quiet
    refine ⟨before, idle ++ [(pass a c w.runner).2], ?_, ?_, fun q hq => ?_⟩
    · rw [hrecords, List.append_assoc]
    · have hincr := saturatingIncr_le w.runner.quiet
      rw [List.length_append, List.length_singleton]
      exact hincr.trans (Nat.add_le_add_right hlength 1)
    · rcases List.mem_append.mp hq with hq | hq
      · exact hidle q hq
      · rw [List.mem_singleton.mp hq]
        exact Bool.or_eq_false_iff.mp hmoved

theorem samples_made {a : Answers H} {c : Clock} {s : Runner H Q} (h : (pass a c s).2.Samples)
    (hclock : ∀ call ∈ (sampled a c s).calls, call.kind = .clock) : False := by
  obtain ⟨call, hc, hk⟩ := h
  have hpart := (pass_parted a c s).mem hc (by rw [hk]; decide)
  rw [hk] at hpart
  have hkind := hclock call hpart
  cases hk.symm.trans hkind

theorem watching_made {a : Answers H} {c : Clock} {s : Runner H Q}
    (h : ∃ call ∈ (pass a c s).2.calls, call.kind = .watch)
    (hclock : ∀ call ∈ (watched a c s).calls, call.kind = .clock) : False := by
  obtain ⟨call, hc, hk⟩ := h
  have hpart := (pass_parted a c s).mem hc (by rw [hk]; decide)
  rw [hk] at hpart
  have hkind := hclock call hpart
  cases hk.symm.trans hkind

theorem Record.Probes.watching {r : Record H} (h : r.Probes) :
    ∃ call ∈ r.calls, call.kind = .watch :=
  h.elim fun answer hc => ⟨.bssid answer, hc, rfl⟩

theorem pass_remembers_heard {o : Opening} {w : World H Q} (hw : Remembers o w) (hp : Paced w)
    (a : Answers H) {c : Clock} (hc : c.InOrder w.clock) :
    o.heard ≤ (sampled a c w.runner).heard ∧
      ∀ p ∈ w.records ++ [(pass a c w.runner).2], p.received = true →
        ∀ t ∈ readings p.note, t ≤ (sampled a c w.runner).heard := by
  have hlater : w.runner.heard ≤ (sampled a c w.runner).heard := by
    rw [sampled_heard]
    split
    · exact hp.heard.trans hc.heard
    · exact le_rfl
  refine ⟨hw.heard.1.trans hlater, fun p hp hreceived t ht => ?_⟩
  rcases List.mem_append.mp hp with hp | hp
  · exact (hw.heard.2 p hp hreceived t ht).trans hlater
  · rw [List.mem_singleton.mp hp] at hreceived ht
    rw [pass_note, if_pos hreceived] at ht
    rw [sampled_heard, if_pos hreceived]
    exact (List.mem_singleton.mp ht).le

theorem pass_remembers_due {o : Opening} {w : World H Q} (hw : Remembers o w) (a : Answers H)
    {c : Clock} (hc : c.InOrder w.clock) :
    ∀ p ∈ w.records ++ [(pass a c w.runner).2], p.Samples →
      ∀ t ∈ readings p.sample, t + linkInterval ≤ (sampled a c w.runner).due := by
  intro p hp hsamples t ht
  have horder := hc.sampleDue
  rcases List.mem_append.mp hp with hp | hp
  · have hbefore := hw.due p hp hsamples t ht
    cases pass_sampling a c w.runner with
    | unmade _ hdue => exact hdue ▸ hbefore
    | made _ hgate _ hdue =>
      rw [hdue]
      omega
  · rw [List.mem_singleton.mp hp] at hsamples ht
    cases pass_sampling a c w.runner with
    | unmade hcalls => exact (samples_made hsamples hcalls).elim
    | made _ _ hcalls hdue =>
      rw [show (pass a c w.runner).2.sample = (sampled a c w.runner).calls from rfl, hcalls] at ht
      simp at ht
      omega

theorem pass_probing (a : Answers H) (c : Clock) (s : Runner H Q) :
    Probing a c (sampled a c s) (watched a c s) :=
  watchPass_probing a c (sampled a c s)

theorem pass_remembers_probe {o : Opening} {w : World H Q} (hw : Remembers o w) (a : Answers H)
    {c : Clock} (hc : c.InOrder w.clock) (hup : (watched a c w.runner).watch.state = .up) :
    o.watch + probeInterval ≤ (watched a c w.runner).watch.due ∧
      ∀ p ∈ w.records ++ [(pass a c w.runner).2], p.Probes →
        ∀ t ∈ readings p.watch, t + probeInterval ≤ (watched a c w.runner).watch.due := by
  have hs := (sampled_same a c w.runner).watch
  have hwatch : (pass a c w.runner).2.watch = (watched a c w.runner).calls := rfl
  obtain ⟨hopened, hpast⟩ := hw.past
  have hgate := hc.since_le_watchGate
  have hprobe := hc.gate_le_probeDue
  have hsilence := hc.probeDue
  have hassociate := hc.gate_le_associateDue
  cases pass_probing a c w.runner with
  | unasked hcalls hstate hdue =>
    obtain ⟨hfirst, hprobe⟩ := hw.probe (hs ▸ hstate.symm.trans hup)
    rw [hdue, hs]
    refine ⟨hfirst, fun p hp hprobes => ?_⟩
    rcases List.mem_append.mp hp with hp | hp
    · exact hprobe p hp hprobes
    · rw [List.mem_singleton.mp hp] at hprobes
      exact (watching_made hprobes.watching hcalls).elim
  | carrying _ _ _ _ hafter =>
    obtain ⟨hdue, hreadings⟩ := hafter hup
    rw [hdue]
    refine ⟨by omega, fun p hp _ t ht => ?_⟩
    rcases List.mem_append.mp hp with hp | hp
    · have := hpast p hp t ht
      omega
    · rw [List.mem_singleton.mp hp, hwatch, hreadings] at ht
      simp at ht
      omega
  | gone _ _ hafter =>
    obtain ⟨hdue, hreadings⟩ := hafter hup
    rw [hdue]
    refine ⟨by omega, fun p hp _ t ht => ?_⟩
    rcases List.mem_append.mp hp with hp | hp
    · have := hpast p hp t ht
      omega
    · rw [List.mem_singleton.mp hp, hwatch, hreadings] at ht
      simp at ht
      omega

theorem pass_remembers {o : Opening} {w : World H Q} (hw : Remembers o w) (hp : Paced w)
    (a : Answers H) {c : Clock} (hc : c.InOrder w.clock) : Remembers o (step w (.pass a c)) := by
  have hgates := pass_gates a c w.runner
  have hwatch := step_watch w a c
  have hclock : w.clock ≤ c.last := hc.since_le_last
  constructor
  · rw [show (step w (.pass a c)).runner.heard = _ from hgates.heard]
    exact pass_remembers_heard hw hp a hc
  · rw [show (step w (.pass a c)).runner.quiet = _ from hgates.quiet]
    exact pass_remembers_quiet hw a c
  · rw [show (step w (.pass a c)).runner.due = _ from hgates.due]
    exact pass_remembers_due hw a hc
  · rw [hwatch]
    exact pass_remembers_probe hw a hc
  · refine ⟨hw.past.1.trans hclock, fun p hp t ht => ?_⟩
    rcases List.mem_append.mp hp with hp | hp
    · exact (hw.past.2 p hp t ht).trans hclock
    · rw [List.mem_singleton.mp hp] at ht
      exact watchPass_readings hc a (sampled a c w.runner) t ht

theorem pass_gated_quiet {o : Opening} {w : World H Q} (hw : Remembers o w) {a : Answers H}
    {c : Clock} (hquiet : linkQuietPasses ≤ (sampled a c w.runner).quiet) :
    (pass a c w.runner).2.MovedNothing ∧ ∃ before idle, w.records = before ++ idle ∧
      99 ≤ idle.length ∧ ∀ q ∈ idle, q.MovedNothing := by
  rw [sampled_quiet] at hquiet
  cases hmoved : (pass a c w.runner).2.received || (pass a c w.runner).2.sent with
  | true =>
    rw [hmoved] at hquiet
    exact absurd hquiet (by simp [linkQuietPasses])
  | false =>
    rw [hmoved] at hquiet
    obtain ⟨before, idle, hrecords, hlength, hidle⟩ := hw.quiet
    refine ⟨Bool.or_eq_false_iff.mp hmoved, before, idle, hrecords, ?_, hidle⟩
    have hlong : 100 ≤ (saturatingIncr w.runner.quiet).toNat := UInt32.le_iff_toNat_le.mp hquiet
    have := saturatingIncr_le w.runner.quiet
    omega

theorem pass_gated {o : Opening} {w : World H Q} (hw : Remembers o w) (hp : Paced w)
    (a : Answers H) {c : Clock} (hc : c.InOrder w.clock) :
    Gated o w.records (pass a c w.runner).2 := by
  have hs := (sampled_same a c w.runner).watch
  have hheard := pass_remembers_heard hw hp a hc
  have hsample : (pass a c w.runner).2.sample = (sampled a c w.runner).calls := rfl
  have hwatch : (pass a c w.runner).2.watch = (watched a c w.runner).calls := rfl
  constructor
  · intro hreceived
    rw [pass_note, if_pos hreceived]
    exact ⟨_, rfl⟩
  · intro hsamples
    cases pass_sampling a c w.runner with
    | unmade hcalls => exact (samples_made hsamples hcalls).elim
    | made hquiet => exact pass_gated_quiet hw hquiet
  · intro hsamples
    have horder := hc.sampleDue
    cases pass_sampling a c w.runner with
    | unmade hcalls => exact (samples_made hsamples hcalls).elim
    | made _ hgate hcalls =>
      rw [hsample, hcalls]
      refine ⟨⟨_, _, _, _, rfl⟩, fun p hp hps t ht u hu => ?_⟩
      have := hw.due p hp hps t ht
      simp at hu
      omega
  · intro was hprobes
    have was : w.runner.watch.state = .up := was
    have hgates := hc.silenceGate
    have hdue := hc.probeDue
    cases pass_probing a c w.runner with
    | unasked hcalls => exact (watching_made hprobes.watching hcalls).elim
    | gone hne => exact absurd (hs ▸ was) hne
    | carrying hup hd hg hcalls =>
      obtain ⟨hfirst, hprobe⟩ := hw.probe was
      rw [hs] at hd
      refine ⟨_, _, hwatch ▸ hcalls, fun p hp hreceived t ht => ?_, fun p hp hps t ht => ?_, ?_, ?_⟩
      · have := hheard.2 p hp hreceived t ht
        omega
      · have := hprobe p hp hps t ht
        omega
      · have := hheard.1
        omega
      · omega
  · intro hwatching
    have hasked : ∀ {call : Call H}, [call, .bssid a.bssid] <:+: (watched a c w.runner).calls →
        (pass a c w.runner).2.Probes := fun h =>
      ⟨a.bssid, watched_mem_pass (h.subset (List.mem_cons_of_mem _ List.mem_cons_self))⟩
    cases pass_probing a c w.runner with
    | unasked hcalls => exact (watching_made hwatching hcalls).elim
    | carrying _ _ _ hcalls => exact hasked hcalls
    | gone _ hcalls => exact hasked hcalls

structure AllGated (o : Opening) (w : World H Q) : Prop where
  paced : Paced w
  remembers : Remembers o w
  gated : Each (Gated o) w.records

theorem start_allGated (reconnect : Option (Reconnect H)) (o : Opening) :
    AllGated o (start Q reconnect o) :=
  ⟨start_paced reconnect o, start_remembers reconnect o, fun pre r post h => by
    simp [start] at h⟩

theorem pass_allGated {o : Opening} {w : World H Q} (hw : AllGated o w) (a : Answers H) {c : Clock}
    (hc : c.InOrder w.clock) : AllGated o (step w (.pass a c)) := by
  exact ⟨pass_paced hw.paced hc, pass_remembers hw.remembers hw.paced a hc,
    hw.gated.snoc _ (pass_gated hw.remembers hw.paced a hc)⟩

theorem step_allGated {o : Opening} {w : World H Q} (hw : AllGated o w) (e : Event H)
    (he : enabled w e) : AllGated o (step w e) := by
  rcases step_frame w e with ⟨a, c, rfl⟩ | h
  · exact pass_allGated hw a he
  · refine ⟨step_paced hw.paced e he, ⟨?_, ?_, ?_, ?_, ?_⟩, ?_⟩
    · rw [h.heard, h.records]
      exact hw.remembers.heard
    · rw [h.quiet, h.records]
      exact hw.remembers.quiet
    · rw [h.due, h.records]
      exact hw.remembers.due
    · rw [h.watch, h.records]
      exact hw.remembers.probe
    · rw [h.clock, h.records]
      exact hw.remembers.past
    · rw [h.records]
      exact hw.gated

/-! ### Counters -/

/-- The reading a raised flag still has coming. -/
def World.wanted (w : World H Q) : Nat := if w.runner.statics.countersWanted then 1 else 0

/-- Each reading is paid for by a flag raised, and each flag raised by a request. -/
theorem step_counters (w : World H Q) (e : Event H) :
    (countersRead (Event.calls w e)).length + (step w e).wanted + w.requests ≤
      w.wanted + (step w e).requests := by
  cases e with
  | stackReceive => cases h : Q.receive w.runner.queues <;> simp [Event.calls, World.wanted, step, h]
  | stackTransmit f =>
    cases h : Q.transmit f w.runner.queues <;> simp [Event.calls, World.wanted, step, h]
  | requestCounters =>
    have hwanted : (step w .requestCounters).wanted = 1 := rfl
    have hrequests : (step w .requestCounters).requests = w.requests + 1 := rfl
    have hcalls : (countersRead (Event.calls w .requestCounters)).length = 0 := rfl
    omega
  | pass a c =>
    have hread : countersRead (Event.calls w (.pass a c)) =
        countersRead (sampleCounters a (watched a c w.runner).cut).calls :=
      (pass_parted a c w.runner).filterMap (k := .counters) (by decide) fun call h => by
        cases call <;> first | rfl | exact absurd rfl h
    have hrequests : (step w (.pass a c)).requests = w.requests := rfl
    have hrunner : (step w (.pass a c)).runner = sampleCounters a (watched a c w.runner).cut := rfl
    have h := sampleCounters_step a (watched a c w.runner).cut
    rw [hread, hrequests]
    unfold World.wanted
    rw [hrunner, ← watched_countersWanted a c w.runner]
    generalize watched a c w.runner = u at h ⊢
    generalize sampleCounters a u.cut = t at h ⊢
    cases h with
    | unasked h =>
      rw [show u.statics.countersWanted = false from h]
      simp
    | asked h =>
      rw [show u.statics.countersWanted = true from h]
      simp

/-- Readings of the counters, and the one a raised flag still has coming. -/
def Requested (w : World H Q) : Prop :=
  (countersRead w.calls).length + (if w.runner.statics.countersWanted then 1 else 0) ≤ w.requests

theorem step_requested {w : World H Q} (hw : Requested w) (e : Event H) :
    Requested (step w e) := by
  have hpaid := step_counters w e
  have hcalls : countersRead (step w e).calls =
      countersRead w.calls ++ countersRead (Event.calls w e) := by
    rw [step_calls]
    exact List.filterMap_append
  unfold World.wanted at hpaid
  unfold Requested at hw ⊢
  rw [hcalls, List.length_append]
  omega

/-! ### A link that keeps receiving -/

def lastHeard (opened : Nat) (rs : List (Record H)) : Nat :=
  ((rs.filter Record.received).flatMap fun r => readings r.note).getLastD opened

theorem lastHeard_bound {opened b : Nat} {rs : List (Record H)} (hopened : opened + rxSilence ≤ b)
    (h : ∀ p ∈ rs, p.received = true → ∀ t ∈ readings p.note, t + rxSilence ≤ b) :
    lastHeard opened rs + rxSilence ≤ b := by
  unfold lastHeard
  rw [List.getLastD_eq_getLast?]
  cases hlast : ((rs.filter Record.received).flatMap fun r => readings r.note).getLast? with
  | none => exact hopened
  | some t =>
    obtain ⟨p, hp, ht⟩ := List.mem_flatMap.mp (List.mem_of_getLast? hlast)
    obtain ⟨hp, hreceived⟩ := List.mem_filter.mp hp
    exact h p hp hreceived t ht

/-- No hundred passes in a row without a receive, and no reading of the watch
`rxSilence` after the last one. -/
structure KeepsReceiving (o : Opening) (rs : List (Record H)) : Prop where
  received : ∀ pre mid post, rs = pre ++ mid ++ post → mid.length = 100 →
    ∃ q ∈ mid, q.received = true
  reads : ∀ pre r post, rs = pre ++ r :: post → ∀ t ∈ readings r.watch,
    t < lastHeard o.heard (pre ++ [r]) + rxSilence

theorem not_samples_of_receiving {o : Opening} {rs pre post : List (Record H)} {r : Record H}
    (h : KeepsReceiving o rs) (hrs : rs = pre ++ r :: post) (hg : Gated o pre r) : ¬ r.Samples := by
  intro hsamples
  obtain ⟨hnothing, before, idle, rfl, hlength, hidle⟩ := hg.quiet hsamples
  -- The hundred passes up to this one, none of which received.
  have hcut : rs = before ++ idle.take (idle.length - 99) ++
      (idle.drop (idle.length - 99) ++ [r]) ++ post := by
    rw [hrs]
    simp only [List.append_assoc, List.singleton_append]
    rw [← List.append_assoc (idle.take _), List.take_append_drop]
  have hhundred : (idle.drop (idle.length - 99) ++ [r]).length = 100 := by
    rw [List.length_append, List.length_drop, List.length_singleton]
    omega
  obtain ⟨q, hq, hreceived⟩ := h.received _ _ _ hcut hhundred
  rcases List.mem_append.mp hq with hq | hq
  · cases hreceived.symm.trans (hidle q (List.mem_of_mem_drop hq)).1
  · rw [List.mem_singleton.mp hq] at hreceived
    cases hreceived.symm.trans hnothing.1

theorem not_probes_of_receiving {o : Opening} {rs pre post : List (Record H)} {r : Record H}
    (h : KeepsReceiving o rs) (hrs : rs = pre ++ r :: post) (hg : Gated o pre r)
    (was : r.was = .up) : ¬ r.Probes := by
  intro hprobes
  obtain ⟨g, answer, hcalls, hheard, _, hopened, _⟩ := hg.silent was hprobes
  have hg : g ∈ readings r.watch := by
    obtain ⟨k, l, hkl⟩ := hcalls
    rw [← hkl]
    simp
  exact Nat.not_le_of_lt (h.reads pre r post hrs g hg) (lastHeard_bound hopened hheard)

/-- Behind its gate every control command leaves a receiving link alone. -/
theorem control_commands_gated (reconnect : Option (Reconnect H)) (o : Opening)
    (es : List (Event H)) (w : World H Q) (h : (wifi H Q).Run (start Q reconnect o) es w) :
    (∀ pre r post, w.records = pre ++ r :: post → Gated o pre r) ∧
      (countersRead w.calls).length ≤ w.requests ∧
      ((∀ r ∈ w.records, r.was = .up) → KeepsReceiving o w.records →
        ∀ r ∈ w.records, ∀ call ∈ r.calls,
          call.kind ≠ .sample ∧ call.kind ≠ .watch) := by
  have hw := h.invariant (start_allGated reconnect o) fun _ e hu he => step_allGated hu e he
  have hrequested : Requested w := h.invariant (Nat.le_refl 0) fun _ e hu _ => step_requested hu e
  refine ⟨hw.gated, (Nat.le_add_right _ _).trans hrequested, fun hup hbusy r hr call hc => ?_⟩
  obtain ⟨pre, post, hrs⟩ := List.append_of_mem hr
  have hg := hw.gated pre r post hrs
  refine ⟨fun hk => ?_, fun hk => ?_⟩
  · exact not_samples_of_receiving hbusy hrs hg ⟨call, hc, hk⟩
  · exact not_probes_of_receiving hbusy hrs hg (hup r hr) (hg.asked ⟨call, hc, hk⟩)

/-- Sixty passes that move nothing, one that receives, and sixty more. -/
def hearsInBetween : List (Event unitHal) :=
  [.requestCounters] ++ .replicate 60 (.pass onNetwork (.still (fromSecs 6))) ++
    [.pass hearing (.still (fromSecs 6))] ++ .replicate 60 (.pass onNetwork (.still (fromSecs 7)))

/-- A hundred passes that move nothing, and one at 17 s that samples and probes. -/
def fallsSilent : List (Event unitHal) :=
  .replicate 100 (.pass onNetwork (.still (fromSecs 11))) ++
    [.pass onNetwork (.still (fromSecs 17))]

theorem hearsInBetween_run : (wifi unitHal (fifoChannel 1514 1 1)).Run (powerOn none)
    hearsInBetween (hearsInBetween.foldl (wifi unitHal _).step (powerOn none)) := by
  have hasked := run_event (.nil (s := powerOn none)) .requestCounters trivial
  have hquiet := hasked.append (run_replicate onNetwork (t := fromSecs 6) 60 (by decide))
  have hheard := run_event hquiet (.pass hearing (.still (fromSecs 6)))
    (Clock.still_inOrder (by decide +kernel))
  have hrun := hheard.append
    (run_replicate onNetwork (t := fromSecs 7) 60 (by decide +kernel))
  have hend := hrun.end_eq
  rw [hend] at hrun
  exact hrun

/-- The one pass that receives is among any hundred. -/
theorem hearsInBetween_keepsReceiving : KeepsReceiving ⟨0, 0, 0, le_rfl, le_rfl⟩
    (hearsInBetween.foldl (wifi unitHal (fifoChannel 1514 1 1)).step (powerOn none)).records := by
  generalize hw : hearsInBetween.foldl (wifi unitHal (fifoChannel 1514 1 1)).step (powerOn none) = w
  have hlength : w.records.length = 121 := by
    rw [← hw]
    decide +kernel
  have hheard : w.records[60]?.map Record.received = some true := by
    rw [← hw]
    decide +kernel
  have hreads : ∀ r ∈ w.records, ∀ t ∈ readings r.watch, t < rxSilence := by
    rw [← hw]
    decide +kernel
  constructor
  · intro pre mid post hrs hmid
    obtain ⟨q, hq, hreceived⟩ := Option.map_eq_some_iff.mp hheard
    rw [hrs] at hq hlength
    simp only [List.length_append] at hlength
    rw [List.append_assoc, List.getElem?_append_right (by omega),
      List.getElem?_append_left (by omega)] at hq
    exact ⟨q, List.mem_of_getElem? hq, hreceived⟩
  · intro pre r post hrs t ht
    have hr : r ∈ w.records := hrs ▸ List.mem_append_right _ List.mem_cons_self
    exact (hreads r hr t ht).trans_le (Nat.le_add_left _ _)

theorem control_commands_gated_while_receiving :
    (∃ w : World unitHal (fifoChannel 1514 1 1),
      (wifi unitHal (fifoChannel 1514 1 1)).Run (powerOn none) hearsInBetween w ∧
      w.records.length = 121 ∧ (countersRead w.calls).length = 1 ∧ w.requests = 1 ∧
      ∀ r ∈ w.records, ∀ call ∈ r.calls, call.kind ≠ .sample ∧ call.kind ≠ .watch) ∧
    ∃ (w : World unitHal (fifoChannel 1514 1 1)) (pre : List (Record unitHal))
      (r : Record unitHal),
      (wifi unitHal (fifoChannel 1514 1 1)).Run (powerOn none) fallsSilent w ∧
      w.records = pre ++ [r] ∧ r.Samples ∧ r.Probes ∧
      Gated ⟨0, 0, 0, le_rfl, le_rfl⟩ pre r := by
  constructor
  · exact ⟨_, hearsInBetween_run, by decide +kernel, by decide +kernel, by decide +kernel,
      (control_commands_gated none _ _ _ hearsInBetween_run).2.2 (by decide +kernel)
        hearsInBetween_keepsReceiving⟩
  · have hquiet := run_replicate (w := powerOn none) (t := fromSecs 11) onNetwork 100 (by decide)
    have hrun := run_event hquiet
      (.pass onNetwork (.still (fromSecs 17))) (Clock.still_inOrder (by decide +kernel))
    have hgated := (control_commands_gated none _ _ _ hrun).1 _ _ [] rfl
    refine ⟨_, _, _, hrun, rfl, ?_, hgated.asked (by decide +kernel), hgated⟩
    unfold Record.Samples
    decide +kernel

end RpiHalEmbassy.Wifi
