import RpiHalEmbassy.Wifi.Trace

/-!
# What a pass does

A pass is cut at the points the invariants look at: `drained` and `emitted` are
its frame halves, `moved` is the runner behind them, `sampled` behind the link
sample, and the watch steps from there.
-/

namespace RpiHalEmbassy.Wifi
open Machines Net

variable {H : Hal} {Q : Channel}

def Runner.countPass (s : Runner H Q) : Runner H Q :=
  { s with statics.passes := s.statics.passes + 1 }

def drained (a : Answers H) (s : Runner H Q) : Bool × Runner H Q := receive a s.countPass.cut

def emitted (a : Answers H) (s : Runner H Q) : Bool × Runner H Q := transmit a (drained a s).2.cut

def moved (a : Answers H) (c : Clock) (s : Runner H Q) : Runner H Q :=
  noteTraffic c (drained a s).1 (emitted a s).1 (emitted a s).2.cut

def sampled (a : Answers H) (c : Clock) (s : Runner H Q) : Runner H Q :=
  sampleLink a c (moved a c s).cut

def watched (a : Answers H) (c : Clock) (s : Runner H Q) : Runner H Q :=
  watchPass a c (sampled a c s).cut

theorem pass_eq (a : Answers H) (c : Clock) (s : Runner H Q) :
    pass a c s =
      (sampleCounters a (watched a c s).cut,
        { was := s.watch.state
          received := (drained a s).1
          sent := (emitted a s).1
          receive := (drained a s).2.calls
          transmit := (emitted a s).2.calls
          note := (moved a c s).calls
          sample := (sampled a c s).calls
          watch := (watched a c s).calls
          counters := (sampleCounters a (watched a c s).cut).calls }) := rfl

/-- Behind the frame halves: only `heard`, `quiet` and the frames have moved. -/
structure Moved (c : Clock) (s : Runner H Q) (r : Record H) (t : Runner H Q) : Prop where
  watch : t.watch = s.watch
  due : t.due = s.due
  heard : t.heard = if r.received then c.heard else s.heard
  quiet : t.quiet = if r.received || r.sent then 0 else saturatingIncr s.quiet
  associated : t.statics.associated = s.statics.associated
  drops : t.statics.drops = s.statics.drops
  joins : t.statics.joins = s.statics.joins
  link : t.statics.link = s.statics.link
  countersWanted : t.statics.countersWanted = s.statics.countersWanted

theorem cut_same (s : Runner H Q) : SameControl s s.cut := by
  constructor <;> rfl

theorem emitted_same (a : Answers H) (s : Runner H Q) : SameControl s (emitted a s).2 := by
  have hcount : SameControl s s.countPass.cut := by constructor <;> rfl
  have hdrained : SameControl s (drained a s).2 := hcount.trans (receive_same a _)
  exact (hdrained.trans (cut_same _)).trans (transmit_same a _)

theorem moved_spec (a : Answers H) (c : Clock) (s : Runner H Q) :
    Moved c s (pass a c s).2 (moved a c s) := by
  have h := emitted_same a s
  rw [pass_eq]
  unfold moved
  generalize (drained a s).1 = received, emitted a s = e at h ⊢
  obtain ⟨sent, t⟩ := e
  cases received with
  | true => exact ⟨h.watch, h.due, rfl, rfl, h.associated, h.drops, h.joins, h.link,
      h.countersWanted⟩
  | false =>
    refine ⟨h.watch, h.due, h.heard, ?_, h.associated, h.drops, h.joins, h.link,
      h.countersWanted⟩
    dsimp only [noteTraffic]
    rw [← h.quiet]
    rfl

inductive SampleStep (a : Answers H) (c : Clock) (s : Runner H Q) : Runner H Q → Prop
  | busy (h : s.quiet < linkQuietPasses) : SampleStep a c s s
  | early (h : linkQuietPasses ≤ s.quiet) (hd : c.sampleGate < s.due) :
      SampleStep a c s (s.call (.now c.sampleGate))
  | taken (h : linkQuietPasses ≤ s.quiet) (hd : s.due ≤ c.sampleGate) (sample : Option Link)
      (hsample : sample.isSome = true ↔
        (∃ x, a.rssiDbm = .ok x) ∧ ∃ y, a.linkRateKbps = .ok y) :
      SampleStep a c s
        { ((((s.call (.now c.sampleGate)).call (.now c.sampleDue)).call
            (.rssiDbm a.rssiDbm)).call (.linkRateKbps a.linkRateKbps)) with
          due := c.sampleDue + linkInterval
          statics.link := sample }

theorem sampleLink_step (a : Answers H) (c : Clock) (s : Runner H Q) :
    SampleStep a c s (sampleLink a c s) := by
  unfold sampleLink
  split
  · next h => exact .busy h
  · next h =>
    have h : linkQuietPasses ≤ s.quiet := UInt32.not_lt.mp h
    dsimp only
    split
    · next hd => exact .early h hd
    · next hd =>
      refine .taken h (Nat.le_of_not_lt hd) _ ?_
      cases a.rssiDbm <;> cases a.linkRateKbps <;> simp

inductive CountersStep (a : Answers H) (s : Runner H Q) : Runner H Q → Prop
  | unasked (h : s.statics.countersWanted = false) :
      CountersStep a s { s with statics.countersWanted := false }
  | asked (h : s.statics.countersWanted = true) :
      CountersStep a s
        { (s.call (.counters a.counters)) with
          statics.countersWanted := false
          statics.counters := some a.counters }

theorem sampleCounters_step (a : Answers H) (s : Runner H Q) :
    CountersStep a s (sampleCounters a s) := by
  unfold sampleCounters
  cases h : s.statics.countersWanted with
  | false => exact .unasked h
  | true => exact .asked h

/-! ### What a pass keeps of the association, and where its calls come from -/

structure SameAssociation (s t : Runner H Q) : Prop where
  watch : t.watch = s.watch
  associated : t.statics.associated = s.statics.associated
  drops : t.statics.drops = s.statics.drops
  joins : t.statics.joins = s.statics.joins

theorem sampled_same (a : Answers H) (c : Clock) (s : Runner H Q) :
    SameAssociation s (sampled a c s) := by
  have hm := moved_spec a c s
  have h := sampleLink_step a c (moved a c s).cut
  unfold sampled
  generalize moved a c s = m at hm h ⊢
  generalize sampleLink a c m.cut = t at h ⊢
  cases h <;> constructor <;> simp [hm.watch, hm.associated, hm.drops, hm.joins]

theorem pass_same (a : Answers H) (c : Clock) (s : Runner H Q) :
    SameAssociation (watched a c s) (pass a c s).1 := by
  have h := sampleCounters_step a (watched a c s).cut
  rw [pass_eq]
  generalize watched a c s = u at h ⊢
  generalize sampleCounters a u.cut = t at h ⊢
  cases h <;> constructor <;> simp

theorem step_watch (w : World H Q) (a : Answers H) (c : Clock) :
    (step w (.pass a c)).runner.watch = (watched a c w.runner).watch :=
  (pass_same a c w.runner).watch

/-- What the record of every pass is, the records of a run are. -/
theorem run_each_record {P : Record H → Prop} (hpass : ∀ a c (s : Runner H Q), P (pass a c s).2)
    {reconnect : Option (Reconnect H)} {o : Opening} {es : List (Event H)} {w : World H Q}
    (h : (wifi H Q).Run (start Q reconnect o) es w) : ∀ r ∈ w.records, P r := by
  apply h.invariant (P := fun w => ∀ r ∈ w.records, P r)
  · intro r hr
    exact absurd hr List.not_mem_nil
  · intro w e hw _
    rcases step_frame w e with ⟨a, c, rfl⟩ | hframe
    · intro r hr
      rcases List.mem_append.mp hr with hr | hr
      · exact hw r hr
      · exact List.mem_singleton.mp hr ▸ hpass a c w.runner
    · rw [show (wifi H Q).step w e = step w e from rfl, hframe.records]
      exact hw

theorem pass_link (a : Answers H) (c : Clock) (s : Runner H Q) :
    (pass a c s).1.statics.link = (watched a c s).statics.link := by
  have h := sampleCounters_step a (watched a c s).cut
  rw [pass_eq]
  generalize watched a c s = u at h ⊢
  generalize sampleCounters a u.cut = t at h ⊢
  cases h <;> simp

theorem sampleLink_only (a : Answers H) (c : Clock) (s : Runner H Q) :
    Only .sample (sampleLink a c s.cut).calls := by
  have h := sampleLink_step a c s.cut
  generalize sampleLink a c s.cut = t at h ⊢
  cases h <;> simp [Call.kind]

theorem sampleCounters_only (a : Answers H) (s : Runner H Q) :
    Only .counters (sampleCounters a s.cut).calls := by
  have h := sampleCounters_step a s.cut
  generalize sampleCounters a s.cut = t at h ⊢
  cases h <;> simp [Call.kind]

theorem join_calls (a : Answers H) (c : Clock) (s : Runner H Q) :
    s.calls <+: (join a c s).calls := by
  have h := join_step a c s
  generalize join a c s = t at h ⊢
  cases h <;> simp

theorem join_only (a : Answers H) (c : Clock) {s : Runner H Q} (hs : Only .watch s.calls) :
    Only .watch (join a c s).calls := by
  have h := join_step a c s
  generalize join a c s = t at h ⊢
  cases h <;> simp [Call.kind, hs]

theorem watchPass_only (a : Answers H) (c : Clock) (s : Runner H Q) :
    Only .watch (watchPass a c s.cut).calls := by
  have h := watchPass_step a c s.cut
  generalize watchPass a c s.cut = t at h ⊢
  cases h with
  | lost => exact join_only a c (by simp [lose, probedUp, Call.kind])
  | asked => exact join_only a c (by simp [probed, Call.kind])
  | landed =>
    unfold associate restore
    cases (probed a c s.cut).watch.reconnect <;> simp [probed, Call.kind]
  | _ => simp [probedUp, polled, probed, Call.kind]

/-- The part of a pass that makes the calls of kind `k`. -/
def Record.part (r : Record H) : Kind → List (Call H)
  | .clock => r.note
  | .receive => r.receive
  | .transmit => r.transmit
  | .sample => r.sample
  | .watch => r.watch
  | .counters => r.counters

def Parted (r : Record H) : Prop := ∀ k, Only k (r.part k)

theorem pass_parted (a : Answers H) (c : Clock) (s : Runner H Q) : Parted (pass a c s).2
  | .clock => noteTraffic_only c (drained a s).1 (emitted a s).1 (emitted a s).2
  | .receive => receive_only a s.countPass
  | .transmit => transmit_only a (drained a s).2
  | .sample => sampleLink_only a c (moved a c s)
  | .watch => watchPass_only a c (sampled a c s)
  | .counters => sampleCounters_only a (watched a c s)

theorem Record.mem_calls {r : Record H} {call : Call H} :
    call ∈ r.calls ↔ ∃ k, call ∈ r.part k := by
  simp only [Record.calls, List.mem_append]
  constructor
  · rintro (((((h | h) | h) | h) | h) | h)
    exacts [⟨.receive, h⟩, ⟨.transmit, h⟩, ⟨.clock, h⟩, ⟨.sample, h⟩, ⟨.watch, h⟩, ⟨.counters, h⟩]
  · rintro ⟨k, h⟩
    cases k <;> simp only [Record.part] at h <;> simp [h]

theorem Parted.mem {r : Record H} (h : Parted r) {call : Call H} (hc : call ∈ r.calls)
    (hclock : call.kind ≠ .clock) : call ∈ r.part call.kind := by
  obtain ⟨k, hk⟩ := Record.mem_calls.mp hc
  rcases h k call hk with hkind | hkind
  · exact absurd hkind hclock
  · exact hkind ▸ hk

theorem Parted.filterMap {α : Type} {f : Call H → Option α} {r : Record H} (h : Parted r)
    {k : Kind} (hk : k ≠ .clock) (hf : ∀ call : Call H, call.kind ≠ k → f call = none) :
    r.calls.filterMap f = (r.part k).filterMap f := by
  have hother : ∀ l, l ≠ k → (r.part l).filterMap f = [] := fun l hl =>
    (h l).filterMap_nil (fun call hc => hf call (hc ▸ hk.symm)) fun call hc => hf call (hc ▸ hl)
  have hreceive : .receive ≠ k → r.receive.filterMap f = [] := hother .receive
  have htransmit : .transmit ≠ k → r.transmit.filterMap f = [] := hother .transmit
  have hnote : .clock ≠ k → r.note.filterMap f = [] := hother .clock
  have hsample : .sample ≠ k → r.sample.filterMap f = [] := hother .sample
  have hwatch : .watch ≠ k → r.watch.filterMap f = [] := hother .watch
  have hcounters : .counters ≠ k → r.counters.filterMap f = [] := hother .counters
  simp only [Record.calls, List.filterMap_append]
  cases k with
  | clock => exact absurd rfl hk
  | _ => simp [Record.part, hreceive, htransmit, hnote, hsample, hwatch, hcounters]

/-! ### The gates of the control commands -/

structure SameGates (s t : Runner H Q) : Prop where
  heard : t.heard = s.heard
  due : t.due = s.due
  quiet : t.quiet = s.quiet
  countersWanted : t.statics.countersWanted = s.statics.countersWanted

theorem SameGates.trans {s t u : Runner H Q} (h : SameGates s t) (k : SameGates t u) :
    SameGates s u :=
  ⟨k.heard.trans h.heard, k.due.trans h.due, k.quiet.trans h.quiet,
    k.countersWanted.trans h.countersWanted⟩

theorem join_gates (a : Answers H) (c : Clock) (s : Runner H Q) : SameGates s (join a c s) := by
  have h := join_step a c s
  generalize join a c s = t at h ⊢
  cases h <;> constructor <;> simp

theorem watchPass_gates (a : Answers H) (c : Clock) (s : Runner H Q) :
    SameGates s (watchPass a c s) := by
  have h := watchPass_step a c s
  generalize watchPass a c s = t at h ⊢
  cases h with
  | lost =>
    have hlose : SameGates s (lose (probedUp a c s)) := by
      constructor <;> simp [lose, probedUp]
    exact hlose.trans (join_gates a c _)
  | asked =>
    have hprobed : SameGates s (probed a c s) := by constructor <;> simp [probed]
    exact hprobed.trans (join_gates a c _)
  | landed =>
    unfold associate restore
    cases (probed a c s).watch.reconnect <;> constructor <;> simp [probed]
  | _ => constructor <;> simp [probedUp, polled, probed]

theorem watched_gates (a : Answers H) (c : Clock) (s : Runner H Q) :
    SameGates (sampled a c s) (watched a c s) := by
  unfold watched
  generalize sampled a c s = u
  have h := watchPass_gates a c u.cut
  exact ⟨h.heard, h.due, h.quiet, h.countersWanted⟩

structure LeftGates (s t : Runner H Q) : Prop where
  heard : t.heard = s.heard
  due : t.due = s.due
  quiet : t.quiet = s.quiet

theorem pass_gates (a : Answers H) (c : Clock) (s : Runner H Q) :
    LeftGates (sampled a c s) (pass a c s).1 := by
  have hw := watched_gates a c s
  have h := sampleCounters_step a (watched a c s).cut
  rw [pass_eq]
  generalize watched a c s = u at h hw ⊢
  generalize sampleCounters a u.cut = t at h ⊢
  cases h <;> exact ⟨hw.heard, hw.due, hw.quiet⟩

theorem sampled_heard (a : Answers H) (c : Clock) (s : Runner H Q) :
    (sampled a c s).heard = if (pass a c s).2.received then c.heard else s.heard := by
  rw [← (moved_spec a c s).heard]
  have h := sampleLink_step a c (moved a c s).cut
  unfold sampled
  generalize moved a c s = m at h ⊢
  generalize sampleLink a c m.cut = t at h ⊢
  cases h <;> rfl

theorem watched_countersWanted (a : Answers H) (c : Clock) (s : Runner H Q) :
    (watched a c s).statics.countersWanted = s.statics.countersWanted := by
  rw [(watched_gates a c s).countersWanted, ← (moved_spec a c s).countersWanted]
  have h := sampleLink_step a c (moved a c s).cut
  unfold sampled
  generalize moved a c s = m at h ⊢
  generalize sampleLink a c m.cut = t at h ⊢
  cases h <;> simp

end RpiHalEmbassy.Wifi
