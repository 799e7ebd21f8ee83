import RpiHalEmbassy.Wifi.Silence

/-!
# A network that is back, and one that is not

However the watch stands, its next step past `due` asks for the access point, and
`due` is never further off than `retryInterval`: once every probe finds the network,
the stack is told so within that time. While none does, the watch goes from `Up` to a
join at once, from a join to `Down` when its budget is spent, and from `Down` to the
next join when the retry is due: it does not stop trying.
-/

namespace RpiHalEmbassy.Wifi
open Machines Net

variable {H : Hal} {Q : Channel}

/-! ### How far off the next step can be -/

/-- Counted from `now`, the next step is no further off than a retry, the end of a join
no further than its budget. -/
structure Punctual (now : Nat) (s : Runner H Q) : Prop where
  due : s.watch.due ≤ now + retryInterval
  deadline : ∀ d, s.watch.state = .joining d → d ≤ now + joinBudget

theorem Punctual.later {now later : Nat} {s : Runner H Q} (h : Punctual now s)
    (hle : now ≤ later) : Punctual later s :=
  ⟨h.due.trans (Nat.add_le_add_right hle _), fun d hd =>
    (h.deadline d hd).trans (Nat.add_le_add_right hle _)⟩

theorem join_punctual {c : Clock} {since : Nat} (hc : c.InOrder since) (a : Answers H)
    {s : Runner H Q} (hs : ∀ d, s.watch.state ≠ .joining d) : Punctual c.last (join a c s) := by
  have hprobe : probeInterval ≤ retryInterval := by decide
  have hpoll : joinPoll ≤ retryInterval := by decide
  have h := join_step a c s
  generalize join a c s = t at h ⊢
  cases h with
  | nothing =>
    refine ⟨?_, fun d hd => absurd hd (hs d)⟩
    exact Nat.add_le_add hc.joinWatchDue_le_last hprobe
  | issued =>
    refine ⟨?_, fun d hd => ?_⟩
    · exact Nat.add_le_add hc.joinDue_le_last hpoll
    · have hd : Association.joining (c.joinDeadline + joinBudget) = .joining d := hd
      cases hd
      exact Nat.add_le_add_right hc.joinDeadline_le_last _
  | refused =>
    refine ⟨?_, fun d hd => ?_⟩
    · exact Nat.le_refl (c.last + retryInterval)
    · have hd : Association.down = .joining d := hd
      cases hd

theorem watchPass_punctual {c : Clock} {since : Nat} (hc : c.InOrder since) (a : Answers H)
    {s : Runner H Q} (hs : Punctual c.last s) : Punctual c.last (watchPass a c s) := by
  have hprobe : probeInterval ≤ retryInterval := by decide
  have hpoll : joinPoll ≤ retryInterval := by decide
  have h := watchPass_step a c s
  generalize watchPass a c s = t at h ⊢
  cases h with
  | early | carrying => exact ⟨hs.due, hs.deadline⟩
  | present h was =>
    refine ⟨?_, fun d hd => hs.deadline d hd⟩
    exact Nat.add_le_add hc.probeDue_le_last hprobe
  | lost => exact join_punctual hc a fun d hd => Association.noConfusion hd
  | landed =>
    have hdue := Nat.add_le_add hc.associateDue_le_last hprobe
    have hup : Punctual c.last (associate a c (probed a c s)) :=
      ⟨hdue, fun d hd => Association.noConfusion (hd : Association.up = .joining d)⟩
    exact hup
  | waiting =>
    refine ⟨?_, fun d hd => hs.deadline d hd⟩
    exact Nat.add_le_add hc.pollDue_le_last hpoll
  | expired =>
    refine ⟨?_, fun d hd => Association.noConfusion (hd : Association.down = .joining d)⟩
    exact Nat.add_le_add_right hc.retryDue_le_last _
  | asked h was =>
    exact join_punctual hc a fun d hd => Association.noConfusion (was.symm.trans hd)

theorem start_punctual (reconnect : Option (Reconnect H)) (o : Opening) :
    Punctual (start Q reconnect o).clock (start Q reconnect o).runner := by
  refine ⟨?_, fun d hd => Association.noConfusion (hd : Association.up = .joining d)⟩
  have hprobe : probeInterval ≤ retryInterval := by decide
  exact Nat.add_le_add (o.watch_le.trans o.due_le) hprobe

theorem step_punctual {w : World H Q} (hw : Punctual w.clock w.runner) (e : Event H)
    (he : enabled w e) : Punctual (step w e).clock (step w e).runner := by
  rcases step_frame w e with ⟨a, c, rfl⟩ | h
  · have hs := (sampled_same a c w.runner).watch
    have horder : c.InOrder w.clock := he
    have hlast := horder.since_le_last
    have hstart := hw.later hlast
    have hwatch : Punctual c.last (watched a c w.runner) := watchPass_punctual he a
      ⟨hs ▸ hstart.due, fun d hd => hstart.deadline d (hs ▸ hd)⟩
    have hstep := step_watch w a c
    exact ⟨hstep ▸ hwatch.due, fun d hd => hwatch.deadline d (hstep ▸ hd)⟩
  · exact ⟨by rw [h.watch, h.clock]; exact hw.due, by rw [h.watch, h.clock]; exact hw.deadline⟩

theorem run_punctual {reconnect : Option (Reconnect H)} {o : Opening} {es : List (Event H)}
    {w : World H Q} (h : (wifi H Q).Run (start Q reconnect o) es w) :
    Punctual w.clock w.runner :=
  h.invariant (P := fun w => Punctual w.clock w.runner) (start_punctual reconnect o)
    fun _ e hu he => step_punctual hu e he

/-! ### The network is back -/

/-- A step that leaves the watch short of `Up` was too early or found nothing. -/
inductive NotUpAfter (a : Answers H) (c : Clock) (s t : Runner H Q) : Prop
  | early (h : c.watchGate < s.watch.due) (watch : t.watch = s.watch)
      (calls : t.calls = [.now c.watchGate])
  | absent (hf : found a.bssid = false) (calls : .bssid a.bssid ∈ t.calls)

theorem watch_notUpAfter (a : Answers H) (c : Clock) (s : Runner H Q)
    (hnot : (watchPass a c s.cut).watch.state ≠ .up) : NotUpAfter a c s (watchPass a c s.cut) := by
  have h := watchPass_step a c s.cut
  generalize watchPass a c s.cut = t at h hnot ⊢
  cases h with
  | early h => exact .early h rfl rfl
  | carrying h hs | present h hs => exact absurd hs hnot
  | landed => exact absurd rfl hnot
  | lost h hs hg hf =>
    refine .absent hf ((join_calls a c _).subset ?_)
    simp [lose, probedUp]
  | asked h hs hf =>
    refine .absent hf ((join_calls a c _).subset ?_)
    simp [probed]
  | waiting h deadline hs hf => exact .absent hf (by simp [polled, probed])
  | expired h deadline hs hf => exact .absent hf (by simp [polled, probed])

/-- Short of `Up`, no step of the watch has come as late as `T0 + retryInterval`. -/
structure Unreturned (T0 : Nat) (rs : List (Record H)) (w : World H Q) : Prop where
  due : w.runner.watch.state ≠ .up → w.runner.watch.due ≤ T0 + retryInterval
  reads : w.runner.watch.state ≠ .up →
    ∀ r ∈ rs, ∀ t ∈ readings r.watch, t < T0 + retryInterval

theorem pass_unreturned {T0 : Nat} {rs : List (Record H)} {w : World H Q}
    (hw : Unreturned T0 rs w) {a : Answers H} {c : Clock}
    (hpresent : .bssid a.bssid ∈ (watched a c w.runner).calls → found a.bssid = true) :
    Unreturned T0 (rs ++ [(pass a c w.runner).2]) (step w (.pass a c)) := by
  have hs := (sampled_same a c w.runner).watch
  have hstep := step_watch w a c
  have hshort : (step w (.pass a c)).runner.watch.state ≠ .up →
      c.watchGate < w.runner.watch.due ∧ (step w (.pass a c)).runner.watch = w.runner.watch ∧
        readings (watched a c w.runner).calls = [c.watchGate] := by
    intro hnot
    rw [hstep] at hnot
    cases watch_notUpAfter a c (sampled a c w.runner) hnot with
    | early h watch calls =>
      rw [hs] at h watch
      refine ⟨h, hstep.trans watch, ?_⟩
      rw [watched, calls]
      rfl
    | absent hf calls => cases hf.symm.trans (hpresent calls)
  refine ⟨fun hnot => ?_, fun hnot r hr t ht => ?_⟩
  · obtain ⟨_, hsame, _⟩ := hshort hnot
    rw [hsame] at hnot ⊢
    exact hw.due hnot
  · obtain ⟨hgate, hsame, hreads⟩ := hshort hnot
    rw [hsame] at hnot
    rcases List.mem_append.mp hr with hr | hr
    · exact hw.reads hnot r hr t ht
    · rw [List.mem_singleton.mp hr] at ht
      have ht : t ∈ readings (watched a c w.runner).calls := ht
      rw [hreads] at ht
      rw [List.mem_singleton.mp ht]
      exact hgate.trans_le (hw.due hnot)

def Returning (T0 : Nat) (w0 w : World H Q) : Prop :=
  ∃ rs, w.records = w0.records ++ rs ∧
    ((∀ r ∈ rs, ∀ answer, .bssid answer ∈ r.calls → found answer = true) → Unreturned T0 rs w)

theorem step_returning {T0 : Nat} {w0 w : World H Q} (hw : Returning T0 w0 w) (e : Event H) :
    Returning T0 w0 (step w e) := by
  obtain ⟨rs, hrs, hw⟩ := hw
  rcases step_frame w e with ⟨a, c, rfl⟩ | h
  · refine ⟨_, records_pass hrs a c, fun hpresent => pass_unreturned (hw ?_) fun hcall => ?_⟩
    · exact fun r hr => hpresent r (List.mem_append_left _ hr)
    · exact hpresent _ (List.mem_append_right _ (List.mem_singleton_self _)) _
        (watched_mem_pass hcall)
  · refine ⟨rs, h.records.trans hrs, fun hpresent => ?_⟩
    obtain ⟨hdue, hreads⟩ := hw hpresent
    rw [← h.watch] at hdue hreads
    exact ⟨hdue, hreads⟩

theorem up_told_up {reconnect : Option (Reconnect H)} {w : World H Q}
    (hw : Agrees reconnect w) (hup : w.runner.watch.state = .up) :
    w.runner.statics.associated = true ∧ (linkStates w.calls).getLast? = some .up := by
  have hassociated := hw.inStep.state.mp hup
  exact ⟨hassociated, (told_last hw.inStep hw.told).mp hassociated⟩

/-- Whatever was going on at `T0`: if every probe since has found the network, then behind
every step of the watch that has read the clock at `T0 + retryInterval` or later the stack
has been told that the link is up, with or without anything to rejoin with. -/
theorem returned_network_noticed (reconnect : Option (Reconnect H)) (o : Opening)
    (es : List (Event H)) (w0 : World H Q) (h0 : (wifi H Q).Run (start Q reconnect o) es w0)
    (T0 : Nat) (hT0 : w0.clock ≤ T0) (fs : List (Event H)) (w : World H Q)
    (h : (wifi H Q).Run w0 fs w) (rs : List (Record H)) (hrs : w.records = w0.records ++ rs)
    (hpresent : ∀ r ∈ rs, ∀ answer, .bssid answer ∈ r.calls → found answer = true)
    (hread : ∃ r ∈ rs, ∃ t ∈ readings r.watch, T0 + retryInterval ≤ t) :
    w.runner.watch.state = .up ∧ w.runner.statics.associated = true ∧
      (linkStates w.calls).getLast? = some .up := by
  have hstart : Returning T0 w0 w0 := by
    refine ⟨[], (List.append_nil _).symm, fun _ => ⟨fun _ => ?_, fun _ r hr => ?_⟩⟩
    · exact ((run_punctual h0).later hT0).due
    · exact absurd hr List.not_mem_nil
  obtain ⟨qs, hqs, hw⟩ := h.invariant hstart fun _ e hu _ => step_returning hu e
  obtain rfl : rs = qs := List.append_cancel_left (hrs.symm.trans hqs)
  have hup : w.runner.watch.state = .up := by
    by_contra hnot
    obtain ⟨r, hr, t, ht, hle⟩ := hread
    exact absurd hle (Nat.not_le_of_lt ((hw hpresent).reads hnot r hr t ht))
  exact ⟨hup, up_told_up (run_agrees (h0.append h)) hup⟩

/-- Dropped at 11 s with nothing to rejoin with, back from then on: a pass that is too early
to ask, and one that asks. -/
theorem returned_network_noticed_unasked :
    ∃ w : World unitHal (fifoChannel 1514 1 1),
      (wifi unitHal (fifoChannel 1514 1 1)).Run (powerOn none)
        ([.pass offNetwork (.still (fromSecs 11))] ++
          [.pass onNetwork (.still (fromSecs 12)), .pass onNetwork (.still (fromSecs 21))]) w ∧
      w.runner.statics.drops = 1 ∧ w.runner.watch.state = .up ∧
      (linkStates w.calls).getLast? = some .up := by
  have h0 := run_event (.nil (s := powerOn none)) (.pass offNetwork (.still (fromSecs 11)))
    (Clock.still_inOrder (by decide))
  let dropped := step (powerOn none) (.pass offNetwork (.still (fromSecs 11)))
  let early := step dropped (.pass onNetwork (.still (fromSecs 12)))
  have hearly := run_event (.nil (s := dropped)) (.pass onNetwork (.still (fromSecs 12)))
    (Clock.still_inOrder (by decide))
  have h := run_event hearly (.pass onNetwork (.still (fromSecs 21)))
    (Clock.still_inOrder (by decide))
  have hw := returned_network_noticed none _ _ _ h0 (fromSecs 11) (by decide) _ _ h
    [(pass onNetwork (.still (fromSecs 12)) dropped.runner).2,
      (pass onNetwork (.still (fromSecs 21)) early.runner).2] rfl ?_ (by decide +kernel)
  · exact ⟨_, h0.append h, by decide +kernel, hw.1, hw.2.2⟩
  · have hprobes : ∀ r ∈ [(pass onNetwork (.still (fromSecs 12)) dropped.runner).2,
        (pass onNetwork (.still (fromSecs 21)) early.runner).2],
        ∀ answer ∈ bssids r.calls, found answer = true := by decide +kernel
    exact fun r hr answer hcall => hprobes r hr answer (List.mem_filterMap.mpr ⟨_, hcall, rfl⟩)

/-! ### The network is not back -/

theorem join_startJoins {a : Answers H} {c : Clock} {s : Runner H Q} {reconnect : Reconnect H}
    (hs : s.watch.reconnect = some reconnect) : startJoins (join a c s).calls ≠ [] := by
  have h := join_step a c s
  generalize join a c s = t at h ⊢
  cases h with
  | nothing h => cases h.symm.trans hs
  | issued => simp
  | refused => simp

/-- A step that asked to no avail and issued no join was waiting for one. -/
inductive IdleAfter (a : Answers H) (c : Clock) (s t : Runner H Q) : Prop
  | early (h : c.watchGate < s.watch.due) (watch : t.watch = s.watch)
      (reads : readings t.calls = [c.watchGate])
  | carrying (was : s.watch.state = .up) (hg : c.silenceGate < s.heard + rxSilence)
      (watch : t.watch = s.watch) (reads : readings t.calls = [c.watchGate, c.silenceGate])
  | waiting (deadline : Nat) (was : s.watch.state = .joining deadline)
      (hd : c.deadlineGate < deadline) (state : t.watch.state = .joining deadline)
      (due : t.watch.due = c.pollDue + joinPoll)
      (reads : readings t.calls = [c.watchGate, c.pollDue, c.deadlineGate])
  | expired (deadline : Nat) (was : s.watch.state = .joining deadline)
      (state : t.watch.state = .down)

theorem watch_idleAfter {a : Answers H} {c : Clock} {s : Runner H Q} {reconnect : Reconnect H}
    (hs : s.watch.reconnect = some reconnect)
    (habsent : .bssid a.bssid ∈ (watchPass a c s.cut).calls → found a.bssid = false)
    (hnone : startJoins (watchPass a c s.cut).calls = []) :
    IdleAfter a c s (watchPass a c s.cut) := by
  have h := watchPass_step a c s.cut
  generalize watchPass a c s.cut = t at h habsent hnone ⊢
  cases h with
  | early h => exact .early h rfl (by simp)
  | carrying h was hg => exact .carrying was hg rfl (by simp)
  | present h was hg hf => cases hf.symm.trans (habsent (by simp [probedUp]))
  | landed h was hf => cases hf.symm.trans (habsent (probed_mem_associate a c s.cut))
  | waiting h deadline was hf hd =>
    exact .waiting deadline was hd was rfl (by simp [polled, probed])
  | expired h deadline was hf hd => exact .expired deadline was rfl
  | lost | asked => exact absurd hnone (join_startJoins hs)

/-- Until a join is issued or written off: what bounds the steps of the watch. -/
structure Unexpired (T0 : Nat) (rs : List (Record H)) (w : World H Q) : Prop where
  due : w.runner.watch.due ≤ T0 + joinBudget + joinPoll
  deadline : ∀ d, w.runner.watch.state = .joining d → d ≤ T0 + joinBudget
  reads : ∀ r ∈ rs, ∀ t ∈ readings r.watch, t < T0 + joinBudget + joinPoll

def Unjoined (rs : List (Record H)) : Prop := ∀ r ∈ rs, startJoins r.watch = []

theorem readings_snoc {rs : List (Record H)} {bound : Nat} {a : Answers H} {c : Clock}
    {s : Runner H Q} (hreads : ∀ r ∈ rs, ∀ t ∈ readings r.watch, t < bound)
    (hlast : ∀ t ∈ readings (watched a c s).calls, t < bound) :
    ∀ r ∈ rs ++ [(pass a c s).2], ∀ t ∈ readings r.watch, t < bound := by
  intro r hr
  rcases List.mem_append.mp hr with hr | hr
  · exact hreads r hr
  · rw [List.mem_singleton.mp hr]
    exact hlast

theorem pass_unexpired {T0 : Nat} {rs : List (Record H)} {w : World H Q}
    (hw : Unexpired T0 rs w) {a : Answers H} {c : Clock} (hc : c.InOrder w.clock)
    (hheard : (sampled a c w.runner).heard ≤ T0)
    (hidle : IdleAfter a c (sampled a c w.runner) (watched a c w.runner)) :
    (step w (.pass a c)).runner.watch.state = .down ∨
      Unexpired T0 (rs ++ [(pass a c w.runner).2]) (step w (.pass a c)) := by
  have hs := (sampled_same a c w.runner).watch
  have hstep := step_watch w a c
  have hsilence : rxSilence ≤ joinBudget := by decide
  have hgate := hc.silenceGate
  have hpoll := hc.gate_le_pollDue
  have hdeadline := hc.deadlineGate
  have hdue := hw.due
  cases hidle with
  | early h watch hreads =>
    rw [hs] at h watch
    refine Or.inr ⟨?_, ?_, readings_snoc hw.reads ?_⟩
    · rw [hstep, watch]
      exact hw.due
    · rw [hstep, watch]
      exact hw.deadline
    · intro t ht
      rw [hreads] at ht
      rw [List.mem_singleton.mp ht]
      exact h.trans_le hw.due
  | carrying was hg watch hreads =>
    rw [hs] at watch
    refine Or.inr ⟨?_, ?_, readings_snoc hw.reads ?_⟩
    · rw [hstep, watch]
      exact hw.due
    · rw [hstep, watch]
      exact hw.deadline
    · intro t ht
      rw [hreads] at ht
      rcases List.mem_pair.mp ht with rfl | rfl
      · omega
      · omega
  | waiting deadline was hd state due hreads =>
    rw [hs] at was
    have hend := hw.deadline deadline was
    refine Or.inr ⟨?_, fun d hd => ?_, readings_snoc hw.reads ?_⟩
    · rw [hstep, due]
      omega
    · rw [hstep, state] at hd
      cases hd
      exact hend
    · intro t ht
      rw [hreads] at ht
      simp only [List.mem_cons, List.not_mem_nil, or_false] at ht
      rcases ht with rfl | rfl | rfl
      · omega
      · omega
      · omega
  | expired deadline was state =>
    left
    rw [hstep]
    exact state

theorem pass_stays_down {a : Answers H} {c : Clock} {w : World H Q}
    (hdown : w.runner.watch.state = .down)
    (hidle : IdleAfter a c (sampled a c w.runner) (watched a c w.runner)) :
    c.watchGate < w.runner.watch.due ∧ (step w (.pass a c)).runner.watch = w.runner.watch ∧
      readings (watched a c w.runner).calls = [c.watchGate] := by
  have hs := (sampled_same a c w.runner).watch
  cases hidle with
  | early h watch hreads =>
    rw [hs] at h watch
    exact ⟨h, (step_watch w a c).trans watch, hreads⟩
  | carrying was | waiting _ was | expired _ was =>
    rw [hs] at was
    cases hdown.symm.trans was

theorem Unjoined.snoc {rs : List (Record H)} {r : Record H} (h : Unjoined (rs ++ [r])) :
    Unjoined rs ∧ startJoins r.watch = [] :=
  ⟨fun q hq => h q (List.mem_append_left _ hq),
    h r (List.mem_append_right _ (List.mem_singleton_self r))⟩

theorem pass_idle {reconnect : Reconnect H} {w : World H Q} (hw : Agrees (some reconnect) w)
    {a : Answers H} {c : Clock} (hsilent : ∀ call ∈ (pass a c w.runner).2.calls, call.Silent)
    (hnone : startJoins (watched a c w.runner).calls = []) :
    IdleAfter a c (sampled a c w.runner) (watched a c w.runner) := by
  have hrejoins : (sampled a c w.runner).watch.reconnect = some reconnect := by
    rw [(sampled_same a c w.runner).watch]
    exact hw.rejoins
  refine watch_idleAfter hrejoins ?_ ?_
  · exact fun hcall => hsilent _ (watched_mem_pass hcall)
  · exact hnone

/-- In silence, and with no join issued, the watch is `Down` or on its way there. -/
def Untried (T0 : Nat) (w0 w : World H Q) : Prop :=
  ∃ rs, w.records = w0.records ++ rs ∧
    ((∀ r ∈ rs, ∀ call ∈ r.calls, call.Silent) → w.runner.heard ≤ T0 ∧
      (Unjoined rs → w.runner.watch.state = .down ∨ Unexpired T0 rs w))

theorem step_untried {reconnect : Reconnect H} {T0 : Nat} {w0 w : World H Q}
    (hagrees : Agrees (some reconnect) w) (hw : Untried T0 w0 w) (e : Event H)
    (he : enabled w e) : Untried T0 w0 (step w e) := by
  obtain ⟨rs, hrs, hw⟩ := hw
  rcases step_frame w e with ⟨a, c, rfl⟩ | h
  · refine ⟨_, records_pass hrs a c, fun hsilent => ?_⟩
    obtain ⟨hbefore, hpass⟩ := forall_records_snoc hsilent
    obtain ⟨hheard, hw⟩ := hw hbefore
    have hnone : (pass a c w.runner).2.received = false :=
      drained_silent fun call hc => hpass call (drained_mem_pass hc)
    have hsampled : (sampled a c w.runner).heard ≤ T0 := by
      rw [sampled_heard, hnone]
      exact hheard
    refine ⟨(pass_gates a c w.runner).heard.trans_le hsampled, fun hunjoined => ?_⟩
    obtain ⟨hunjoined, hlast⟩ := hunjoined.snoc
    have hidle := pass_idle hagrees hpass hlast
    rcases hw hunjoined with hdown | hunexpired
    · left
      rw [(pass_stays_down hdown hidle).2.1]
      exact hdown
    · exact pass_unexpired hunexpired he hsampled hidle
  · refine ⟨rs, h.records.trans hrs, fun hsilent => ?_⟩
    obtain ⟨hheard, hw⟩ := hw hsilent
    refine ⟨h.heard.trans_le hheard, fun hunjoined => ?_⟩
    rw [h.watch]
    refine (hw hunjoined).imp_right fun hun => ⟨?_, ?_, hun.reads⟩
    · rw [h.watch]
      exact hun.due
    · rw [h.watch]
      exact hun.deadline

/-- `Down`, with the retry due by `D` and no step of the watch as late as that. -/
def Owing (D : Nat) (w1 w : World H Q) : Prop :=
  ∃ rs, w.records = w1.records ++ rs ∧
    ((∀ r ∈ rs, ∀ call ∈ r.calls, call.Silent) → Unjoined rs →
      w.runner.watch.state = .down ∧ w.runner.watch.due ≤ D ∧
        ∀ r ∈ rs, ∀ t ∈ readings r.watch, t < D)

theorem step_owing {reconnect : Reconnect H} {D : Nat} {w1 w : World H Q}
    (hagrees : Agrees (some reconnect) w) (hw : Owing D w1 w) (e : Event H) :
    Owing D w1 (step w e) := by
  obtain ⟨rs, hrs, hw⟩ := hw
  rcases step_frame w e with ⟨a, c, rfl⟩ | h
  · refine ⟨_, records_pass hrs a c, fun hsilent hunjoined => ?_⟩
    obtain ⟨hbefore, hpass⟩ := forall_records_snoc hsilent
    obtain ⟨hunjoined, hlast⟩ := hunjoined.snoc
    obtain ⟨hdown, hdue, hreads⟩ := hw hbefore hunjoined
    obtain ⟨hgate, hsame, hread⟩ := pass_stays_down hdown (pass_idle hagrees hpass hlast)
    rw [hsame]
    refine ⟨hdown, hdue, readings_snoc hreads fun t ht => ?_⟩
    rw [hread] at ht
    rw [List.mem_singleton.mp ht]
    exact hgate.trans_le hdue
  · refine ⟨rs, h.records.trans hrs, ?_⟩
    rw [h.watch]
    exact hw

theorem exists_startJoin {rs : List (Record H)} (h : ¬ Unjoined rs) :
    ∃ r ∈ rs, startJoins r.calls ≠ [] := by
  by_contra hnone
  refine h fun r hr => ?_
  have hcalls : startJoins r.calls = [] := by
    by_contra hne
    exact hnone ⟨r, hr, hne⟩
  exact List.filterMap_eq_nil_iff.mpr fun call hc =>
    List.filterMap_eq_nil_iff.mp hcalls call (Record.mem_calls.mpr ⟨.watch, hc⟩)

/-- With something to rejoin with the runner does not give up: nothing heard and nothing
found since `T0`, one step of the watch that late that a join begun at `T0` would be
written off, and one a retry behind it, and a join has been issued. `T0` is any time. -/
theorem rejoining_never_given_up (reconnect : Reconnect H) (o : Opening) (es : List (Event H))
    (w0 : World H Q) (h0 : (wifi H Q).Run (start Q (some reconnect) o) es w0) (T0 : Nat)
    (hT0 : w0.clock ≤ T0) (fs : List (Event H)) (w1 : World H Q) (h1 : (wifi H Q).Run w0 fs w1)
    (rs : List (Record H)) (hrs : w1.records = w0.records ++ rs) (gs : List (Event H))
    (w2 : World H Q) (h2 : (wifi H Q).Run w1 gs w2) (qs : List (Record H))
    (hqs : w2.records = w1.records ++ qs)
    (hsilent : ∀ r ∈ rs ++ qs, ∀ call ∈ r.calls, call.Silent)
    (hspent : ∃ r ∈ rs, ∃ t ∈ readings r.watch, T0 + joinBudget + joinPoll ≤ t)
    (hretry : ∃ r ∈ qs, ∃ t ∈ readings r.watch, w1.clock + retryInterval ≤ t) :
    ∃ r ∈ rs ++ qs, startJoins r.calls ≠ [] := by
  apply exists_startJoin
  intro hunjoined
  have hsilent1 : ∀ r ∈ rs, ∀ call ∈ r.calls, call.Silent := fun r hr =>
    hsilent r (List.mem_append_left qs hr)
  have hunjoined1 : Unjoined rs := fun r hr => hunjoined r (List.mem_append_left qs hr)
  -- Up to `w1` the budget of a join has run out.
  have hstart1 : Untried T0 w0 w0 := by
    have hpunctual := (run_punctual h0).later hT0
    refine ⟨[], (List.append_nil _).symm, fun _ => ⟨(run_paced h0).heard.trans hT0, fun _ => ?_⟩⟩
    refine Or.inr ⟨hpunctual.due.trans ?_, hpunctual.deadline, fun r hr => ?_⟩
    · have hbudget : retryInterval ≤ joinBudget + joinPoll := by decide
      omega
    · exact absurd hr List.not_mem_nil
  obtain ⟨hagrees1, rs', hrs', htried⟩ := h1.invariant
    (P := fun w => Agrees (some reconnect) w ∧ Untried T0 w0 w) ⟨run_agrees h0, hstart1⟩
    fun _ e hu he => ⟨step_agrees hu.1 e, step_untried hu.1 hu.2 e he⟩
  obtain rfl : rs = rs' := List.append_cancel_left (hrs.symm.trans hrs')
  have hdown : w1.runner.watch.state = .down := by
    rcases (htried hsilent1).2 hunjoined1 with hdown | hunexpired
    · exact hdown
    · obtain ⟨r, hr, t, ht, hle⟩ := hspent
      exact absurd hle (Nat.not_le_of_lt (hunexpired.reads r hr t ht))
  -- From `w1` on only the retry is owed.
  have hstart2 : Owing (w1.clock + retryInterval) w1 w1 := by
    refine ⟨[], (List.append_nil _).symm, fun _ _ => ⟨hdown, ?_, fun r hr => ?_⟩⟩
    · exact (run_punctual (h0.append h1)).due
    · exact absurd hr List.not_mem_nil
  obtain ⟨_, qs', hqs', howing⟩ := h2.invariant
    (P := fun w => Agrees (some reconnect) w ∧ Owing (w1.clock + retryInterval) w1 w)
    ⟨hagrees1, hstart2⟩ fun _ e hu _ => ⟨step_agrees hu.1 e, step_owing hu.1 hu.2 e⟩
  obtain rfl : qs = qs' := List.append_cancel_left (hqs.symm.trans hqs')
  obtain ⟨_, _, hreads⟩ := howing (fun r hr => hsilent r (List.mem_append_right rs hr))
    fun r hr => hunjoined r (List.mem_append_right rs hr)
  obtain ⟨r, hr, t, ht, hle⟩ := hretry
  exact absurd hle (Nat.not_le_of_lt (hreads r hr t ht))

/-- Dropped at 11 s, and the network asked for again at once. -/
def dropped : World unitHal (fifoChannel 1514 1 1) :=
  step (powerOn (some ⟨"net", "secret", (), false⟩)) (.pass offNetwork (.still (fromSecs 11)))

def waitedOut : List (Event unitHal) :=
  [.pass offNetwork (.still (fromSecs 13)), .pass offNetwork (.still (fromSecs 30))]

/-- The join waited for and written off. -/
def writtenOff : World unitHal (fifoChannel 1514 1 1) := waitedOut.foldl step dropped

/-- Counted from 12 s the join issued at 11 s does not: the one at 60 s is another. -/
theorem rejoining_never_given_up_after_a_drop :
    ∃ w : World unitHal (fifoChannel 1514 1 1),
      (wifi unitHal (fifoChannel 1514 1 1)).Run writtenOff
        [.pass offNetwork (.still (fromSecs 60))] w ∧
      writtenOff.runner.statics.joins = 1 ∧ writtenOff.runner.watch.state = .down ∧
      ∃ r ∈ writtenOff.records.drop 1 ++ w.records.drop 3, startJoins r.calls ≠ [] := by
  have h0 := run_event (.nil (s := powerOn (some ⟨"net", "secret", (), false⟩)))
    (.pass offNetwork (.still (fromSecs 11))) (Clock.still_inOrder (by decide))
  have h1 := Machine.Run.of_allowed (wifi unitHal (fifoChannel 1514 1 1)) dropped waitedOut
    ⟨Clock.still_inOrder (by decide), Clock.still_inOrder (by decide), trivial⟩
  have h2 := run_event (.nil (s := writtenOff)) (.pass offNetwork (.still (fromSecs 60)))
    (Clock.still_inOrder (by decide))
  refine ⟨_, h2, by decide +kernel, by decide +kernel, ?_⟩
  exact rejoining_never_given_up _ _ _ dropped h0 (fromSecs 12) (by decide) _ writtenOff h1 _ rfl
    _ _ h2 _ rfl (by decide +kernel) (by decide +kernel) (by decide +kernel)

end RpiHalEmbassy.Wifi
