import RpiHalEmbassy.Wifi.Association

/-!
# The pace of rejoining

`due`, `deadline` and `state` decide when the watch probes and joins. What each step
does with them is a `Stride`; from that the distances between any two probes or joins
of a run follow by looking at what the first still holds the second to.
-/

namespace RpiHalEmbassy.Wifi
open Machines Net Logs

variable {H : Hal} {Q : Channel}

/-- What the pace is about. `issued` is the last reading of the clock before the call,
`returned` the first one behind it. -/
inductive Mark where
  | probed (issued : Nat)
  | joined (issued returned : Nat) (accepted : Bool)
  | associated
  deriving DecidableEq

/-- `t` is the last reading before the calls. -/
def marks : Nat → List (Call H) → List Mark
  | _, [] => []
  | _, .now t :: l => marks t l
  | t, .bssid _ :: l => .probed t :: marks t l
  | t, .startJoin _ _ answer :: l =>
    .joined t ((readings l).headD t) answer.isOk :: marks t l
  | t, .setLinkState .up :: l => .associated :: marks t l
  | t, _ :: l => marks t l

/-- Every watch step reads the clock before anything else, so none of its marks has
the 0 here. -/
def World.marks (w : World H Q) : List Mark := w.records.flatMap fun r => Wifi.marks 0 r.calls

/-- What one step of the watch, with its gate at `due` or later, makes of the two. -/
inductive Stride (was : Association) (due : Nat) : Association → Nat → List Mark → Prop
  | idle : Stride was due was due []
  | kept {g due' : Nat} (hg : due ≤ g) (hdue : g + joinPoll ≤ due') :
      Stride was due was due' [.probed g]
  | landed {g due' : Nat} (hg : due ≤ g) (hdue : g + probeInterval ≤ due') :
      Stride was due .up due' [.probed g, .associated]
  | expired {g due' deadline : Nat} (hg : due ≤ g) (hwas : was = .joining deadline)
      (hpoll : g + joinPoll ≤ due') (hdue : deadline + retryInterval ≤ due') :
      Stride was due .down due' [.probed g]
  | unjoined {g due' : Nat} (hg : due ≤ g) (hwas : ∀ deadline, was ≠ .joining deadline)
      (hdue : g + joinPoll ≤ due') : Stride was due .down due' [.probed g]
  | issued {g r due' : Nat} (hg : due ≤ g) (hwas : ∀ deadline, was ≠ .joining deadline)
      (hr : g ≤ r) (hdue : r + joinPoll ≤ due') :
      Stride was due (.joining (r + joinBudget)) due' [.probed g, .joined g r true]
  | refused {g r due' : Nat} (hg : due ≤ g) (hwas : ∀ deadline, was ≠ .joining deadline)
      (hr : g ≤ r) (hdue : r + retryInterval ≤ due') :
      Stride was due .down due' [.probed g, .joined g r false]

/-! ### What a join still holds the next one to -/

/-- A join at `returned` that no association has followed. -/
structure Unlanded (state : Association) (due returned : Nat) (accepted : Bool) : Prop where
  notUp : state ≠ .up
  refused : accepted = false → returned + retryInterval ≤ due
  accepted : accepted = true →
    (∃ deadline, state = .joining deadline ∧ returned + joinBudget ≤ deadline) ∨
      returned + joinBudget + retryInterval ≤ due

def Owed (state : Association) (due : Nat) : Mark → List Mark → Prop
  | .probed t, _ => t + joinPoll ≤ due
  | .associated, _ => True
  | .joined _ returned accepted, later => returned + joinPoll ≤ due ∧
      (.associated ∈ later → returned + probeInterval ≤ due) ∧
      (.associated ∉ later → Unlanded state due returned accepted)

theorem stride_due {was state : Association} {due due' : Nat} {new : List Mark}
    (h : Stride was due state due' new) : due ≤ due' := by
  cases h <;> omega

theorem Unlanded.stride {was state : Association} {due due' returned : Nat} {accepted : Bool}
    {new : List Mark} (h : Unlanded was due returned accepted)
    (hs : Stride was due state due' new) (hnew : .associated ∉ new) :
    Unlanded state due' returned accepted := by
  have hdue := stride_due hs
  have hrefused : accepted = false → returned + retryInterval ≤ due' := fun ha =>
    (h.refused ha).trans hdue
  -- Only a join under way has its budget still to run, and `issued` and `refused` come from none.
  have hspent : (∀ deadline, was ≠ .joining deadline) → accepted = true →
      returned + joinBudget + retryInterval ≤ due' := by
    intro hwas ha
    rcases h.accepted ha with ⟨deadline, hjoining, _⟩ | hpast
    · exact absurd hjoining (hwas deadline)
    · exact hpast.trans hdue
  cases hs with
  | idle => exact h
  | kept =>
    exact ⟨h.notUp, hrefused, fun ha => (h.accepted ha).imp_right fun hpast => hpast.trans hdue⟩
  | landed => simp at hnew
  | @expired g _ deadline _ hwas _ hend =>
    refine ⟨Association.noConfusion, hrefused, fun ha => Or.inr ?_⟩
    rcases h.accepted ha with ⟨other, hjoining, hbudget⟩ | hpast
    · obtain rfl := Association.joining.inj (hwas.symm.trans hjoining)
      omega
    · exact hpast.trans hdue
  | unjoined _ hwas =>
    exact ⟨Association.noConfusion, hrefused, fun ha => Or.inr (hspent hwas ha)⟩
  | issued _ hwas =>
    exact ⟨Association.noConfusion, hrefused, fun ha => Or.inr (hspent hwas ha)⟩
  | refused _ hwas =>
    exact ⟨Association.noConfusion, hrefused, fun ha => Or.inr (hspent hwas ha)⟩

theorem Owed.stride {was state : Association} {due due' : Nat} {new : List Mark}
    (hs : Stride was due state due' new) (x : Mark) (later : List Mark)
    (h : Owed was due x later) : Owed state due' x (later ++ new) := by
  have hdue := stride_due hs
  cases x with
  | probed t => exact Nat.le_trans h hdue
  | associated => trivial
  | joined issued returned accepted =>
    obtain ⟨hpoll, hlanded, hunlanded⟩ := h
    refine ⟨hpoll.trans hdue, fun hmem => ?_, fun hnone => ?_⟩
    · by_cases hbefore : .associated ∈ later
      · exact (hlanded hbefore).trans hdue
      · have hnew : .associated ∈ new := (List.mem_append.mp hmem).resolve_left hbefore
        cases hs with
        | landed hg hprobe => omega
        | _ => simp at hnew
    · have hlater := mt (List.mem_append_left new) hnone
      exact (hunlanded hlater).stride hs (mt (List.mem_append_right later) hnone)

theorem stride_owed {was state : Association} {due due' : Nat} {new : List Mark}
    (hs : Stride was due state due' new) : After (Owed state due') new := by
  have hprobed : ∀ {g : Nat} {later : List Mark}, g + joinPoll ≤ due' →
      After (Owed state due') later → After (Owed state due') (.probed g :: later) :=
    fun hg hlater => hlater.cons _ hg
  cases hs with
  | idle => exact after_nil _
  | kept _ hdue => exact hprobed hdue (after_nil _)
  | @landed g _ _ hdue =>
    have hpoll : joinPoll ≤ probeInterval := by decide
    exact hprobed (by omega) ((after_nil _).cons _ trivial)
  | expired _ _ hpoll => exact hprobed hpoll (after_nil _)
  | unjoined _ _ hdue => exact hprobed hdue (after_nil _)
  | @issued g r _ _ _ hr hdue =>
    have hjoined : Unlanded (.joining (r + joinBudget)) due' r true :=
      ⟨Association.noConfusion, fun ha => Bool.noConfusion ha,
        fun _ => Or.inl ⟨_, rfl, Nat.le_refl _⟩⟩
    have hlast : Owed _ due' (.joined g r true) [] :=
      ⟨hdue, fun hmem => absurd hmem List.not_mem_nil, fun _ => hjoined⟩
    exact hprobed (by omega) ((after_nil _).cons _ hlast)
  | @refused g r _ _ _ hr hdue =>
    have hpoll : joinPoll ≤ retryInterval := by decide
    have hjoined : Unlanded .down due' r false :=
      ⟨Association.noConfusion, fun _ => hdue, fun ha => Bool.noConfusion ha⟩
    have hlast : Owed _ due' (.joined g r false) [] :=
      ⟨by omega, fun hmem => absurd hmem List.not_mem_nil, fun _ => hjoined⟩
    exact hprobed (by omega) ((after_nil _).cons _ hlast)

/-! ### How far apart two marks are -/

/-- Far enough before a join issued at `t`. -/
def Clears (t : Nat) : Mark → List Mark → Prop
  | .joined _ returned accepted, between =>
      (.associated ∉ between → returned + retryInterval ≤ t ∧
        (accepted = true → returned + joinBudget + retryInterval ≤ t)) ∧
      (.associated ∈ between → returned + probeInterval ≤ t)
  | _, _ => True

def Apart (before : List Mark) : Mark → Prop
  | .probed u => ∀ t, .probed t ∈ before → t + joinPoll ≤ u
  | .joined issued _ _ => After (Clears issued) before
  | .associated => True

theorem owed_probed {state : Association} {due : Nat} {log : List Mark}
    (h : After (Owed state due) log) {t : Nat} (ht : .probed t ∈ log) : t + joinPoll ≤ due := by
  obtain ⟨pre, post, hlog⟩ := List.append_of_mem ht
  exact h pre (.probed t) post hlog

theorem Owed.clears {was : Association} {due g : Nat} (hg : due ≤ g)
    (hwas : ∀ deadline, was ≠ .joining deadline) (x : Mark) (later : List Mark)
    (h : Owed was due x later) : Clears g x (later ++ [.probed g]) := by
  cases x with
  | probed t => trivial
  | associated => trivial
  | joined issued returned accepted =>
    obtain ⟨_, hlanded, hunlanded⟩ := h
    have hlater : .associated ∈ later ++ [.probed g] ↔ .associated ∈ later := by simp
    simp only [Clears, hlater]
    refine ⟨fun hnone => ?_, fun hmem => (hlanded hmem).trans hg⟩
    have h := hunlanded hnone
    cases accepted with
    | false => exact ⟨(h.refused rfl).trans hg, fun ha => Bool.noConfusion ha⟩
    | true =>
      rcases h.accepted rfl with ⟨deadline, hjoining, _⟩ | hpast
      · exact absurd hjoining (hwas deadline)
      · exact ⟨by omega, fun _ => hpast.trans hg⟩

theorem stride_apart {was state : Association} {due due' : Nat} {log new : List Mark}
    (hs : Stride was due state due' new) (howed : After (Owed was due) log)
    (h : Each Apart log) : Each Apart (log ++ new) := by
  have hprobe : ∀ g, due ≤ g → Each Apart (log ++ [.probed g]) := fun g hg =>
    h.snoc _ fun t ht => (owed_probed howed ht).trans hg
  have hjoin : ∀ g r accepted, due ≤ g → (∀ deadline, was ≠ .joining deadline) →
      Each Apart (log ++ [.probed g, .joined g r accepted]) := by
    intro g r accepted hg hwas
    rw [List.append_cons]
    apply (hprobe g hg).snoc
    exact howed.append (Owed.clears hg hwas) ((after_nil _).cons _ trivial)
  cases hs with
  | idle => rwa [List.append_nil]
  | kept hg => exact hprobe _ hg
  | landed hg =>
    rw [List.append_cons]
    exact (hprobe _ hg).snoc _ trivial
  | expired hg => exact hprobe _ hg
  | unjoined hg => exact hprobe _ hg
  | issued hg hwas => exact hjoin _ _ _ hg hwas
  | refused hg hwas => exact hjoin _ _ _ hg hwas

/-! ### One step of the watch -/

/-- A join from a step that has probed at `g`, with nothing under way. -/
theorem join_stride {a : Answers H} {c : Clock} {s : Runner H Q} {was : Association}
    {due g : Nat} {since : Nat} (hc : c.InOrder since) (hg : due ≤ g) (hgate : g ≤ c.probeDue)
    (hwas : ∀ deadline, was ≠ .joining deadline) (hdown : s.watch.state = .down)
    (hmarks : ∀ l, marks 0 (s.calls ++ l) = .probed g :: marks g l) :
    Stride was due (join a c s).watch.state (join a c s).watch.due
      (marks 0 (join a c s).calls) := by
  have hwatch := hgate.trans hc.probeDue_le_joinWatchDue
  have hdeadline := hgate.trans hc.probeDue_le_joinDeadline
  have hjoin := hc.joinDue
  have hretry := hc.joinRetryDue
  have hpoll : joinPoll ≤ probeInterval := by decide
  have h := join_step a c s
  generalize join a c s = t at h ⊢
  cases h with
  | nothing =>
    have hcalls : marks 0 (s.calls ++ [.now c.joinWatchDue]) = [.probed g] := hmarks _
    have hdue : g + joinPoll ≤ c.joinWatchDue + probeInterval := by omega
    have hstride := Stride.unjoined hg hwas hdue
    rwa [← hcalls, ← hdown] at hstride
  | issued reconnect h ha =>
    have hcalls : marks 0 (s.calls ++ [.startJoin reconnect.ssid reconnect.passphrase (.ok ()),
        .now c.joinDeadline, .now c.joinDue]) = [.probed g, .joined g c.joinDeadline true] :=
      hmarks _
    have hr : g ≤ c.joinDeadline := by omega
    have hdue : c.joinDeadline + joinPoll ≤ c.joinDue + joinPoll := by omega
    have hstride := Stride.issued hg hwas hr hdue
    rw [← hcalls] at hstride
    simpa using hstride
  | refused reconnect error h ha =>
    have hcalls : marks 0 (s.calls ++ [.startJoin reconnect.ssid reconnect.passphrase
        (.error error), .now c.joinRetryDue]) = [.probed g, .joined g c.joinRetryDue false] :=
      hmarks _
    have hr : g ≤ c.joinRetryDue := by omega
    have hstride := Stride.refused hg hwas hr (Nat.le_refl _)
    rw [← hcalls] at hstride
    simpa using hstride

theorem watchPass_stride {a : Answers H} {c : Clock} {since : Nat} (hc : c.InOrder since)
    (s : Runner H Q) :
    Stride s.watch.state s.watch.due (watchPass a c s.cut).watch.state
      (watchPass a c s.cut).watch.due (marks 0 (watchPass a c s.cut).calls) := by
  have hprobe := hc.gate_le_probeDue
  have hassociate := hc.gate_le_associateDue
  have hpollDue := hc.gate_le_pollDue
  have hretryDue := hc.gate_le_retryDue
  have hpoll : joinPoll ≤ probeInterval := by decide
  have h := watchPass_step a c s.cut
  generalize watchPass a c s.cut = t at h ⊢
  cases h with
  | early h => exact .idle
  | carrying h hs hg => exact .idle
  | present h hs hg hf =>
    have hgate : s.watch.due ≤ c.probeDue := Nat.le_trans h hprobe
    exact .kept (g := c.probeDue) hgate (Nat.add_le_add_left hpoll _)
  | lost h hs hg hf =>
    have hgate : s.watch.due ≤ c.probeDue := Nat.le_trans h hprobe
    refine join_stride hc hgate (Nat.le_refl _) (fun deadline hwas => ?_) rfl fun l => ?_
    · cases hwas.symm.trans hs
    · simp [lose, probedUp, marks]
  | landed h hs hf =>
    have hnext : c.watchGate + probeInterval ≤ c.associateDue + probeInterval := by omega
    have hstride : Stride s.watch.state s.watch.due .up (c.associateDue + probeInterval)
      [.probed c.watchGate, .associated] := .landed h hnext
    unfold associate restore
    cases (probed a c s.cut).watch.reconnect with
    | none => exact hstride
    | some reconnect => exact hstride
  | waiting h deadline hs hf hd =>
    have hnext : c.watchGate + joinPoll ≤ c.pollDue + joinPoll := by omega
    exact .kept (g := c.watchGate) h hnext
  | expired h deadline hs hf hd =>
    have hnext : c.watchGate + joinPoll ≤ c.retryDue + retryInterval := by
      have hretry : joinPoll ≤ retryInterval := by decide
      omega
    have hend : deadline + retryInterval ≤ c.retryDue + retryInterval :=
      Nat.add_le_add_right (Nat.le_trans hd hc.retryDue) _
    exact .expired (g := c.watchGate) h hs hnext hend
  | asked h hs hf =>
    refine join_stride hc h hprobe (fun deadline hwas => ?_) hs fun l => ?_
    · cases hwas.symm.trans hs
    · simp [probed, marks]

/-! ### The marks of a pass -/

theorem marks_skip {t : Nat} {l : List (Call H)} (h : ∀ call ∈ l, call.kind ≠ .watch) :
    ∃ u, ∀ m, marks t (l ++ m) = marks u m := by
  induction l generalizing t with
  | nil => exact ⟨t, fun _ => rfl⟩
  | cons call l ih =>
    have hl : ∀ other ∈ l, other.kind ≠ .watch := fun other ho =>
      h other (List.mem_cons_of_mem _ ho)
    have hcall := h call List.mem_cons_self
    cases call with
    | now reading => exact ih hl
    | recvEthernet | sendEthernet | rssiDbm | linkRateKbps | counters => exact ih hl
    | bssid | startJoin | setPowerManagement | setAllMulticast | setLinkState =>
      exact absurd rfl hcall

theorem marks_drop {t : Nat} {l m : List (Call H)} (hm : ∀ call ∈ m, call.kind = .counters) :
    marks t (l ++ m) = marks t l := by
  have hreadings : readings m = [] := List.filterMap_eq_nil_iff.mpr fun call hc => by
    have hkind := hm call hc
    cases call <;> first | rfl | cases hkind
  have hnone : ∀ u, marks u m = [] := fun u => by
    obtain ⟨v, hv⟩ := marks_skip (t := u) (l := m) fun call hc => by
      rw [hm call hc]
      decide
    simpa [marks] using hv []
  induction l generalizing t with
  | nil => exact hnone t
  | cons call l ih =>
    cases call with
    | setLinkState link => cases link <;> simp [marks, ih]
    | _ => simp [marks, ih, hreadings]

theorem watchPass_gate (a : Answers H) (c : Clock) (s : Runner H Q) :
    [.now c.watchGate] <+: (watchPass a c s.cut).calls := by
  have h := watchPass_step a c s.cut
  generalize watchPass a c s.cut = t at h ⊢
  cases h with
  | lost =>
    apply List.IsPrefix.trans _ (join_calls a c _)
    simp [lose, probedUp]
  | asked =>
    apply List.IsPrefix.trans _ (join_calls a c _)
    simp [probed]
  | landed =>
    unfold associate restore
    cases (probed a c s.cut).watch.reconnect <;> simp [probed]
  | _ => simp [probedUp, polled, probed]

theorem Only.ne_watch {k : Kind} {l : List (Call H)} (h : Only k l) (hk : k ≠ .watch)
    {call : Call H} (hc : call ∈ l) : call.kind ≠ .watch := by
  rcases h call hc with hkind | hkind
  · rw [hkind]
    decide
  · rwa [hkind]

theorem sampleCounters_kind (a : Answers H) (s : Runner H Q) :
    ∀ call ∈ (sampleCounters a s.cut).calls, call.kind = .counters := by
  have h := sampleCounters_step a s.cut
  generalize sampleCounters a s.cut = t at h ⊢
  cases h <;> simp [Call.kind]

theorem pass_marks (a : Answers H) (c : Clock) (s : Runner H Q) :
    marks 0 (pass a c s).2.calls = marks 0 (watched a c s).calls := by
  have hparts := pass_parted a c s
  have hfront : ∀ call ∈ (pass a c s).2.receive ++ (pass a c s).2.transmit ++
      (pass a c s).2.note ++ (pass a c s).2.sample, call.kind ≠ .watch := by
    intro call hc
    simp only [List.mem_append] at hc
    rcases hc with ((hc | hc) | hc) | hc
    · exact Only.ne_watch (hparts .receive) (by decide) hc
    · exact Only.ne_watch (hparts .transmit) (by decide) hc
    · exact Only.ne_watch (hparts .clock) (by decide) hc
    · exact Only.ne_watch (hparts .sample) (by decide) hc
  obtain ⟨u, hu⟩ := marks_skip (t := 0) hfront
  obtain ⟨rest, hrest⟩ := watchPass_gate a c (sampled a c s)
  have hwatch : (pass a c s).2.watch = .now c.watchGate :: rest := hrest.symm
  have hwatched : (watched a c s).calls = .now c.watchGate :: rest := hrest.symm
  calc marks 0 (pass a c s).2.calls
      = marks u ((pass a c s).2.watch ++ (pass a c s).2.counters) := by
        rw [← hu]
        simp only [Record.calls, List.append_assoc]
    _ = marks u (pass a c s).2.watch := marks_drop (sampleCounters_kind a (watched a c s))
    _ = marks 0 (watched a c s).calls := by
        rw [hwatch, hwatched]
        rfl

/-! ### Over a run -/

structure Spaced (w : World H Q) : Prop where
  owed : After (Owed w.runner.watch.state w.runner.watch.due) w.marks
  apart : Each Apart w.marks

theorem start_spaced (reconnect : Option (Reconnect H)) (o : Opening) :
    Spaced (start Q reconnect o) := ⟨after_nil _, each_nil _⟩

theorem pass_spaced {w : World H Q} (hw : Spaced w) (a : Answers H) {c : Clock}
    (hc : c.InOrder w.clock) : Spaced (step w (.pass a c)) := by
  have hs := (sampled_same a c w.runner).watch
  have hstride : Stride w.runner.watch.state w.runner.watch.due
      (step w (.pass a c)).runner.watch.state (step w (.pass a c)).runner.watch.due
      (marks 0 (watched a c w.runner).calls) := by
    rw [step_watch, ← hs]
    exact watchPass_stride hc (sampled a c w.runner)
  have hmarks : (step w (.pass a c)).marks = w.marks ++ marks 0 (watched a c w.runner).calls := by
    rw [← pass_marks]
    exact (List.flatMap_append ..).trans (congrArg _ (List.flatMap_singleton ..))
  constructor
  · rw [hmarks]
    exact hw.owed.append (Owed.stride hstride) (stride_owed hstride)
  · rw [hmarks]
    exact stride_apart hstride hw.owed hw.apart

theorem step_spaced {w : World H Q} (hw : Spaced w) (e : Event H) (he : enabled w e) :
    Spaced (step w e) := by
  rcases step_frame w e with ⟨a, c, rfl⟩ | h
  · exact pass_spaced hw a he
  · have hmarks : (step w e).marks = w.marks := by rw [World.marks, h.records, World.marks]
    constructor
    · rw [hmarks, h.watch]
      exact hw.owed
    · rw [hmarks]
      exact hw.apart

/-! ### Asking before telling -/

def Call.onChip : Call H → Bool
  | .now _ => false
  | .setLinkState _ => false
  | _ => true

def commands (calls : List (Call H)) : List (Call H) := calls.filter Call.onChip

/-- A join comes right behind a probe that found nothing. -/
def AskedFirst (before : List (Call H)) (call : Call H) : Prop :=
  ∀ ssid passphrase answer, call = .startJoin ssid passphrase answer →
    ∃ earlier absent, before = earlier ++ [.bssid absent] ∧ found absent = false

theorem AskedFirst.later {before : List (Call H)} {call : Call H} (h : AskedFirst before call)
    (l : List (Call H)) : AskedFirst (l ++ before) call := fun ssid passphrase answer hcall => by
  obtain ⟨earlier, absent, hbefore, hf⟩ := h ssid passphrase answer hcall
  exact ⟨l ++ earlier, absent, by rw [hbefore, List.append_assoc], hf⟩

theorem askedFirst_of_other {before : List (Call H)} {call : Call H}
    (h : call.startJoin? = none) : AskedFirst before call := fun ssid passphrase answer hcall => by
  rw [hcall] at h
  cases h

theorem each_askedFirst {calls : List (Call H)} (h : startJoins calls = []) :
    Each AskedFirst (commands calls) := fun pre call post heq => by
  have hmem : call ∈ commands calls := heq ▸ List.mem_append_right _ List.mem_cons_self
  apply askedFirst_of_other
  exact List.filterMap_eq_nil_iff.mp h call (List.mem_of_mem_filter hmem)

theorem join_askedFirst (a : Answers H) (c : Clock) {s : Runner H Q}
    {probe : Result H (Option Bytes)} (hs : commands s.calls = [.bssid probe])
    (hf : found probe = false) : Each AskedFirst (commands (join a c s).calls) := by
  have hprobe : Each AskedFirst [.bssid probe] := (each_nil _).snoc _ (askedFirst_of_other rfl)
  have hjoin : ∀ call, AskedFirst [.bssid probe] call := fun _ _ _ _ _ => ⟨[], probe, rfl, hf⟩
  have h := join_step a c s
  generalize join a c s = t at h ⊢
  unfold commands at hs ⊢
  cases h with
  | nothing =>
    simp only [Runner.setDue_calls, Runner.call_calls, List.filter_append, hs]
    exact hprobe
  | issued | refused =>
    simp only [Runner.setDue_calls, Runner.call_calls, Runner.setState_calls,
      Runner.countJoin_calls, List.filter_append, hs]
    exact hprobe.snoc _ (hjoin _)

theorem watchPass_askedFirst (a : Answers H) (c : Clock) (s : Runner H Q) :
    Each AskedFirst (commands (watchPass a c s.cut).calls) := by
  have h := watchPass_step a c s.cut
  generalize watchPass a c s.cut = t at h ⊢
  cases h with
  | lost _ _ _ hf => exact join_askedFirst a c rfl hf
  | asked _ _ hf => exact join_askedFirst a c rfl hf
  | landed =>
    apply each_askedFirst
    unfold associate restore
    cases (probed a c s.cut).watch.reconnect <;> simp [probed]
  | _ =>
    apply each_askedFirst
    simp [probedUp, polled, probed]

theorem Only.no_startJoins {k : Kind} {calls : List (Call H)} (h : Only k calls)
    (hk : k ≠ .watch) : startJoins calls = [] :=
  h.filterMap_nil (fun call hc => by cases call <;> first | rfl | cases hc)
    fun call hc => by cases call <;> first | rfl | exact absurd hc.symm hk

theorem pass_askedFirst (a : Answers H) (c : Clock) (s : Runner H Q) :
    Each AskedFirst (commands (pass a c s).2.calls) := by
  have hparts := pass_parted a c s
  have hfront : startJoins ((pass a c s).2.receive ++ (pass a c s).2.transmit ++
      (pass a c s).2.note ++ (pass a c s).2.sample) = [] := by
    have hreceive : startJoins (pass a c s).2.receive = [] :=
      (hparts .receive).no_startJoins (by decide)
    have htransmit : startJoins (pass a c s).2.transmit = [] :=
      (hparts .transmit).no_startJoins (by decide)
    have hnote : startJoins (pass a c s).2.note = [] := (hparts .clock).no_startJoins (by decide)
    have hsample : startJoins (pass a c s).2.sample = [] :=
      (hparts .sample).no_startJoins (by decide)
    simp [hreceive, htransmit, hnote, hsample]
  have hcounters : startJoins (pass a c s).2.counters = [] :=
    (hparts .counters).no_startJoins (by decide)
  unfold Record.calls
  unfold commands
  rw [List.filter_append, List.filter_append]
  refine ((each_askedFirst hfront).append _ fun pre call post hwatch => ?_).append _
    fun pre call post hlast => ?_
  · exact (watchPass_askedFirst a c (sampled a c s) pre call post hwatch).later _
  · exact (each_askedFirst hcounters pre call post hlast).later _

/-! ### Every step puts `due` off -/

/-- `due` is set ahead of a reading of the clock behind which the chip is asked nothing,
or what finds the association standing. -/
def PutOff (calls : List (Call H)) (due : Nat) : Prop :=
  ∃ front t back delay, calls = front ++ .now t :: back ∧ due = t + delay ∧
    (delay = joinPoll ∨ delay = probeInterval ∨ delay = retryInterval) ∧
    (commands back = [] ∨ ∃ answer, back = [.bssid answer] ∧ found answer = true)

theorem putOff_last (front : List (Call H)) {t delay : Nat}
    (hdelay : delay = joinPoll ∨ delay = probeInterval ∨ delay = retryInterval) :
    PutOff (front ++ [.now t]) (t + delay) :=
  ⟨front, t, [], delay, rfl, rfl, hdelay, Or.inl rfl⟩

theorem join_putOff (a : Answers H) (c : Clock) (s : Runner H Q) :
    PutOff (join a c s).calls (join a c s).watch.due := by
  have h := join_step a c s
  generalize join a c s = t at h ⊢
  cases h with
  | nothing => exact putOff_last _ (Or.inr (Or.inl rfl))
  | issued => exact putOff_last _ (Or.inl rfl)
  | refused => exact putOff_last _ (Or.inr (Or.inr rfl))

theorem watchPass_putOff (a : Answers H) (c : Clock) (s : Runner H Q) :
    commands (watchPass a c s.cut).calls = [] ∧ (watchPass a c s.cut).watch.due = s.watch.due ∨
      PutOff (watchPass a c s.cut).calls (watchPass a c s.cut).watch.due := by
  have h := watchPass_step a c s.cut
  generalize watchPass a c s.cut = t at h ⊢
  cases h with
  | early | carrying => exact Or.inl ⟨rfl, rfl⟩
  | present _ _ _ hf =>
    -- The one branch that asks with `due` already moved.
    exact Or.inr ⟨[.now c.watchGate, .now c.silenceGate], c.probeDue, [.bssid a.bssid],
      probeInterval, rfl, rfl, Or.inr (Or.inl rfl), Or.inr ⟨_, rfl, hf⟩⟩
  | lost => exact Or.inr (join_putOff a c _)
  | asked => exact Or.inr (join_putOff a c _)
  | landed => exact Or.inr (putOff_last _ (Or.inr (Or.inl rfl)))
  | waiting =>
    exact Or.inr ⟨[.now c.watchGate, .bssid a.bssid], c.pollDue, [.now c.deadlineGate], joinPoll,
      rfl, rfl, Or.inl rfl, Or.inl rfl⟩
  | expired => exact Or.inr (putOff_last _ (Or.inr (Or.inr rfl)))

theorem pass_putOff (w : World H Q) (a : Answers H) (c : Clock) :
    commands (pass a c w.runner).2.watch = [] ∧
        (step w (.pass a c)).runner.watch.due = w.runner.watch.due ∨
      PutOff (pass a c w.runner).2.watch (step w (.pass a c)).runner.watch.due := by
  have h := watchPass_putOff a c (sampled a c w.runner)
  rw [(sampled_same a c w.runner).watch] at h
  rw [step_watch]
  exact h

/-- A join comes right behind a probe that found nothing, and probes and joins keep
their distances over any run; `due` lies ahead of every one issued, and each step that
issues one sets it ahead of a reading behind them. -/
theorem rejoining_is_paced (reconnect : Option (Reconnect H)) (o : Opening) (es : List (Event H))
    (w : World H Q) (h : (wifi H Q).Run (start Q reconnect o) es w) :
    (∀ r ∈ w.records, ∀ before ssid passphrase answer after,
      commands r.calls = before ++ .startJoin ssid passphrase answer :: after →
      ∃ earlier absent, before = earlier ++ [.bssid absent] ∧ found absent = false) ∧
    (∀ pre t between u post, w.marks = pre ++ .probed t :: between ++ .probed u :: post →
      t + joinPoll ≤ u) ∧
    (∀ pre issued returned accepted between issued' returned' accepted' post,
      w.marks = pre ++ .joined issued returned accepted :: between ++
        .joined issued' returned' accepted' :: post →
      (.associated ∉ between → returned + retryInterval ≤ issued' ∧
        (accepted = true → returned + joinBudget + retryInterval ≤ issued')) ∧
      (.associated ∈ between → returned + probeInterval ≤ issued')) ∧
    (∀ t, .probed t ∈ w.marks → t + joinPoll ≤ w.runner.watch.due) ∧
    (∀ issued returned accepted, .joined issued returned accepted ∈ w.marks →
      returned + joinPoll ≤ w.runner.watch.due) ∧
    ∀ a c, commands (pass a c w.runner).2.watch = [] ∧
        (step w (.pass a c)).runner.watch.due = w.runner.watch.due ∨
      PutOff (pass a c w.runner).2.watch (step w (.pass a c)).runner.watch.due := by
  have hspaced : Spaced w :=
    h.invariant (start_spaced reconnect o) fun _ e hu he => step_spaced hu e he
  have hasked : ∀ r ∈ w.records, Each AskedFirst (commands r.calls) :=
    run_each_record pass_askedFirst h
  refine ⟨?_, ?_, ?_, fun t ht => owed_probed hspaced.owed ht, ?_, pass_putOff w⟩
  · intro r hr before ssid passphrase answer after hcommands
    exact hasked r hr before _ after hcommands ssid passphrase answer rfl
  · intro pre t between u post hlog
    apply hspaced.apart _ _ _ hlog
    exact List.mem_append_right _ List.mem_cons_self
  · intro pre issued returned accepted between issued' returned' accepted' post hlog
    exact hspaced.apart _ _ _ hlog pre (.joined issued returned accepted) between rfl
  · intro issued returned accepted hj
    obtain ⟨pre, post, hlog⟩ := List.append_of_mem hj
    exact (hspaced.owed pre (.joined issued returned accepted) post hlog).1

/-- Dropped at 11 s, the join written off at 27 s, and the next one ten seconds on. -/
def neverBack : List (Event unitHal) :=
  [.pass offNetwork (.still (fromSecs 11)), .pass offNetwork (.still (fromSecs 27)),
    .pass offNetwork (.still (fromSecs 37))]

theorem rejoining_is_paced_after_a_drop :
    ∃ w : World unitHal (fifoChannel 1514 1 1),
      (wifi unitHal (fifoChannel 1514 1 1)).Run (powerOn (some ⟨"net", "secret", (), false⟩))
        neverBack w ∧
      w.marks = [.probed (fromSecs 11)] ++ .joined (fromSecs 11) (fromSecs 11) true ::
        [.probed (fromSecs 27), .probed (fromSecs 37)] ++
          .joined (fromSecs 37) (fromSecs 37) true :: [] ∧
      fromSecs 11 + joinBudget + retryInterval ≤ fromSecs 37 := by
  have hrun := Machine.Run.of_allowed (wifi unitHal (fifoChannel 1514 1 1))
    (powerOn (some ⟨"net", "secret", (), false⟩)) neverBack
    ⟨Clock.still_inOrder (by decide), Clock.still_inOrder (by decide),
      Clock.still_inOrder (by decide), trivial⟩
  have hmarks : (neverBack.foldl (wifi unitHal (fifoChannel 1514 1 1)).step
      (powerOn (some ⟨"net", "secret", (), false⟩))).marks =
      [.probed (fromSecs 11)] ++ .joined (fromSecs 11) (fromSecs 11) true ::
        [.probed (fromSecs 27), .probed (fromSecs 37)] ++
          .joined (fromSecs 37) (fromSecs 37) true :: [] := by
    decide +kernel
  obtain ⟨_, _, hjoins, _⟩ := rejoining_is_paced _ _ _ _ hrun
  exact ⟨_, hrun, hmarks, ((hjoins _ _ _ _ _ _ _ _ _ hmarks).1 (by decide)).2 rfl⟩

end RpiHalEmbassy.Wifi
