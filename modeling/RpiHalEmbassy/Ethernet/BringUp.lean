import Mathlib.Data.UInt
import RpiHalEmbassy.Ethernet.Runner

/-!
# What bring-up tells the stack

The log of a run is fixed by the stage it has reached, the chip's answers and the
clock: `Told` says how, stage by stage. Every call is then held to what the log
held when it was made.
-/

namespace RpiHalEmbassy.Ethernet
open Machines Net Logs

variable {Q : Channel}

/-- A chip started, and its multicast filter set if that was asked for. -/
def EthernetConfig.prelude (config : EthernetConfig) (result : Except TransferError Unit) :
    List RunCall :=
  .startAsync config.mac :: .started (.ok ()) ::
    if config.allMulticast then [.setAllMulticast true, .allMulticastSet result] else []

/-- Polls that found no link, each with the reading taken after it. -/
def polls (readings : List UInt64) : List RunCall :=
  readings.flatMap fun t => [.isLinkUp, .linkUp (.ok false), .now t]

inductive WaitOver (deadline : Nat) : List RunCall → Prop
  | linked : WaitOver deadline [.linkUp (.ok true)]
  | unanswered (error : TransferError) : WaitOver deadline [.linkUp (.error error)]
  | timedOut (t : UInt64) : deadline ≤ t.toNat → WaitOver deadline [.linkUp (.ok false), .now t]

/-- The link wait that began at `entered`, after `readings` short of its deadline. -/
structure Waited (config : EthernetConfig) (result : Except TransferError Unit)
    (entered : UInt64) (readings : List UInt64) (log : List RunCall) : Prop where
  log_eq : log = config.prelude result ++ .now entered :: polls readings
  short : ∀ t ∈ readings, t.toNat < entered.toNat + linkWaitUs.toNat

def EthernetConfig.errorAfter (config : EthernetConfig) (code : UInt8) :
    Except TransferError Unit → UInt8
  | .ok () => code
  | .error error => if config.allMulticast then errorCode error else code

inductive Told (config : EthernetConfig) (code : UInt8) : Stage → UInt8 → List RunCall → Prop
  | starting : Told config code .starting code [.startAsync config.mac]
  | parked (error : TransferError) : Told config code .parked (errorCode error)
      [.startAsync config.mac, .started (.error error), .setLinkState .down]
  | settingMulticast (h : config.allMulticast = true) : Told config code .settingMulticast code
      [.startAsync config.mac, .started (.ok ()), .setAllMulticast true]
  | waiting (result : Except TransferError Unit) (entered : UInt64) (readings : List UInt64)
      (log : List RunCall) (room : entered.toNat + linkWaitUs.toNat < 2 ^ 64)
      (waited : Waited config result entered readings log) :
      Told config code (.waiting (entered + linkWaitUs)) (config.errorAfter code result)
        (log ++ [.isLinkUp])
  | running (result : Except TransferError Unit) (entered : UInt64) (readings : List UInt64)
      (log last : List RunCall) (calls : List Call)
      (waited : Waited config result entered readings log)
      (ended : WaitOver (entered.toNat + linkWaitUs.toNat) last) :
      Told config code .running (config.errorAfter code result)
        (log ++ .isLinkUp :: (last ++ .setLinkState .up :: calls.map .frames))

/-- What a call finds in the log when it is made. -/
def InPlace (config : EthernetConfig) (before : List RunCall) : RunCall → Prop
  | .startAsync mac => mac = config.mac ∧ before = []
  | .setAllMulticast enabled => enabled = true ∧ config.allMulticast = true ∧
      before = [.startAsync config.mac, .started (.ok ())]
  | .isLinkUp => ∃ result entered readings, Waited config result entered readings before
  | .setLinkState .down => ∃ error, before = [.startAsync config.mac, .started (.error error)]
  | .setLinkState .up => ∃ result entered readings log last,
      Waited config result entered readings log ∧
        WaitOver (entered.toNat + linkWaitUs.toNat) last ∧ before = log ++ .isLinkUp :: last
  | .frames _ => .setLinkState .up ∈ before
  | _ => True

structure Truthful (config : EthernetConfig) (code : UInt8) (r : Runner Q) : Prop where
  same : r.config = config
  told : Told config code r.stage r.startLastError r.log
  inPlace : Each (InPlace config) r.log

/-- The clock can reach the deadline that is set from this reading. -/
def RunEvent.Reachable : RunEvent → Prop
  | .started _ now => now.toNat + linkWaitUs.toNat < 2 ^ 64
  | .allMulticastSet _ now => now.toNat + linkWaitUs.toNat < 2 ^ 64
  | _ => True

abbrev clocked (Q : Channel) : Machine (Runner Q) RunEvent :=
  (ethernetRun Q).restrict fun _ e => e.Reachable

theorem deadline_toNat {entered : UInt64} (h : entered.toNat + linkWaitUs.toNat < 2 ^ 64) :
    (entered + linkWaitUs).toNat = entered.toNat + linkWaitUs.toNat := by
  rw [UInt64.toNat_add, Nat.mod_eq_of_lt h]

theorem polls_snoc (readings : List UInt64) (t : UInt64) :
    polls (readings ++ [t]) = polls readings ++ [.isLinkUp, .linkUp (.ok false), .now t] := by
  rw [polls, List.flatMap_append, polls]
  rfl

section
variable {config : EthernetConfig} {code : UInt8} {r : Runner Q}

theorem waitForLink_truthful (result : Except TransferError Unit) {now : UInt64}
    (hconfig : r.config = config) (hroom : now.toNat + linkWaitUs.toNat < 2 ^ 64)
    (hlog : r.log = config.prelude result)
    (herror : r.startLastError = config.errorAfter code result)
    (hplace : Each (InPlace config) r.log) : Truthful config code (waitForLink now r) := by
  have hwaited : Waited config result now [] (r.log ++ [.now now]) :=
    ⟨by rw [hlog]; rfl, fun _ h => absurd h List.not_mem_nil⟩
  refine ⟨hconfig, ?_, (hplace.snoc (.now now) trivial).snoc .isLinkUp ⟨result, now, [], hwaited⟩⟩
  show Told config code (.waiting (now + linkWaitUs)) r.startLastError
    (r.log ++ [.now now] ++ [.isLinkUp])
  rw [herror]
  exact .waiting result now [] _ hroom hwaited

theorem Told.of_starting {error : UInt8} {log : List RunCall}
    (h : Told config code .starting error log) :
    error = code ∧ log = [.startAsync config.mac] := by
  cases h
  exact ⟨rfl, rfl⟩

theorem Told.of_settingMulticast {error : UInt8} {log : List RunCall}
    (h : Told config code .settingMulticast error log) : error = code ∧
      config.allMulticast = true ∧
      log = [.startAsync config.mac, .started (.ok ()), .setAllMulticast true] := by
  cases h with
  | settingMulticast hall => exact ⟨rfl, hall, rfl⟩

theorem Told.of_waiting {deadline : UInt64} {error : UInt8} {log : List RunCall}
    (h : Told config code (.waiting deadline) error log) :
    ∃ result entered readings before, deadline = entered + linkWaitUs ∧
      entered.toNat + linkWaitUs.toNat < 2 ^ 64 ∧ error = config.errorAfter code result ∧
      Waited config result entered readings before ∧ log = before ++ [.isLinkUp] := by
  generalize hstage : Stage.waiting deadline = stage at h
  cases h with
  | waiting result entered readings before hroom hwaited =>
    exact ⟨result, entered, readings, before, Stage.waiting.inj hstage, hroom, rfl, hwaited, rfl⟩
  | _ => cases hstage

theorem started_truthful (h : Truthful config code r) (result : Except TransferError Unit)
    (now : UInt64) (hstage : r.stage = .starting)
    (hroom : now.toNat + linkWaitUs.toNat < 2 ^ 64) :
    Truthful config code (started result now r) := by
  obtain ⟨herror, hlog⟩ := (hstage ▸ h.told).of_starting
  have hplace := h.inPlace.snoc (.started result) trivial
  have hsame := h.same
  cases result with
  | error error =>
    refine ⟨hsame, ?_, hplace.snoc (.setLinkState .down) ⟨error, by rw [hlog]; rfl⟩⟩
    simpa [started, setLinkState, hlog] using Told.parked error
  | ok _ =>
    simp only [started, Runner.call_config, hsame]
    by_cases hall : config.allMulticast = true
    · rw [if_pos hall]
      refine ⟨rfl, ?_, hplace.snoc (.setAllMulticast true) ⟨rfl, hall, by rw [hlog]; rfl⟩⟩
      simpa [herror, hlog] using Told.settingMulticast hall
    · rw [if_neg hall]
      refine waitForLink_truthful (.ok ()) hsame hroom ?_ herror hplace
      simp [EthernetConfig.prelude, hall, hlog]

theorem allMulticastSet_truthful (h : Truthful config code r)
    (result : Except TransferError Unit) (now : UInt64) (hstage : r.stage = .settingMulticast)
    (hroom : now.toNat + linkWaitUs.toNat < 2 ^ 64) :
    Truthful config code (allMulticastSet result now r) := by
  obtain ⟨herror, hall, hlog⟩ := (hstage ▸ h.told).of_settingMulticast
  have hplace := h.inPlace.snoc (.allMulticastSet result) trivial
  have hprelude : r.log ++ [.allMulticastSet result] = config.prelude result := by
    simp [EthernetConfig.prelude, hall, hlog]
  cases result with
  | error error =>
    show Truthful config code (waitForLink now
      { r.call (.allMulticastSet (.error error)) with startLastError := errorCode error })
    refine waitForLink_truthful (.error error) h.same hroom hprelude ?_ hplace
    simp [EthernetConfig.errorAfter, hall]
  | ok _ => exact waitForLink_truthful (.ok ()) h.same hroom hprelude herror hplace

theorem reportUp_truthful {result : Except TransferError Unit} {entered : UInt64}
    {readings : List UInt64} {log last : List RunCall} (hsame : r.config = config)
    (hwaited : Waited config result entered readings log)
    (hover : WaitOver (entered.toNat + linkWaitUs.toNat) last)
    (hlog : r.log = log ++ .isLinkUp :: last)
    (herror : r.startLastError = config.errorAfter code result)
    (hplace : Each (InPlace config) r.log) : Truthful config code (reportUp r) := by
  refine ⟨hsame, ?_, hplace.snoc (.setLinkState .up)
    ⟨result, entered, readings, log, last, hwaited, hover, hlog⟩⟩
  have htold : Told config code .running _ _ :=
    .running result entered readings log last [] hwaited hover
  simpa [reportUp, setLinkState, hlog, herror] using htold

theorem linkUp_truthful (h : Truthful config code r) (answer : Except TransferError Bool)
    (now : UInt64) {deadline : UInt64} (hstage : r.stage = .waiting deadline) :
    Truthful config code (linkUp answer now deadline r) := by
  obtain ⟨result, entered, readings, log, rfl, hroom, herror, hwaited, hlog⟩ :=
    (hstage ▸ h.told).of_waiting
  have hsame := h.same
  have hplace := h.inPlace
  rw [hlog] at hplace
  have hplace := hplace.snoc (.linkUp answer) trivial
  rcases answer with error | _ | _
  · refine reportUp_truthful hsame hwaited (.unanswered error) ?_ herror ?_
    · simp [hlog]
    · simpa [hlog] using hplace
  · have hplace := hplace.snoc (.now now) trivial
    simp only [linkUp]
    by_cases hover : entered + linkWaitUs ≤ now
    · rw [if_pos hover]
      have hover := UInt64.le_iff_toNat_le.mp hover
      rw [deadline_toNat hroom] at hover
      refine reportUp_truthful hsame hwaited (.timedOut now hover) ?_ herror ?_
      · simp [hlog]
      · simpa [hlog] using hplace
    · rw [if_neg hover]
      have hshort := UInt64.lt_iff_toNat_lt.mp (UInt64.not_le.mp hover)
      rw [deadline_toNat hroom] at hshort
      have hnext : Waited config result entered (readings ++ [now])
          (log ++ [.isLinkUp, .linkUp (.ok false), .now now]) := by
        refine ⟨by rw [hwaited.log_eq, polls_snoc]; simp, ?_⟩
        simp only [List.mem_append, List.mem_singleton]
        rintro t (ht | rfl)
        · exact hwaited.short t ht
        · exact hshort
      refine ⟨hsame, ?_, ?_⟩
      · have htold : Told config code (.waiting _) _ _ :=
          .waiting result entered _ _ hroom hnext
        simpa [hlog, herror, hstage] using htold
      · have hpoll := hplace.snoc .isLinkUp
          ⟨result, entered, readings ++ [now], by simpa using hnext⟩
        simpa [hlog] using hpoll
  · refine reportUp_truthful hsame hwaited .linked ?_ herror ?_
    · simp [hlog]
    · simpa [hlog] using hplace

theorem Told.of_running {error : UInt8} {log : List RunCall}
    (h : Told config code .running error log) : ∃ result entered readings before last,
      ∃ calls : List Call, error = config.errorAfter code result ∧
      Waited config result entered readings before ∧
      WaitOver (entered.toNat + linkWaitUs.toNat) last ∧
      log = before ++ .isLinkUp :: (last ++ .setLinkState .up :: calls.map .frames) := by
  cases h with
  | running result entered readings before last calls hwaited hover =>
    exact ⟨result, entered, readings, before, last, calls, rfl, hwaited, hover, rfl⟩

theorem loop_truthful (h : Truthful config code r) (e : Event)
    (hstage : r.stage = .running ∨ e.ByStack) : Truthful config code (loop e r) := by
  by_cases hrunning : r.stage = .running
  · obtain ⟨result, entered, readings, before, last, calls, herror, hwaited, hover, hlog⟩ :=
      (hrunning ▸ h.told).of_running
    refine ⟨h.same, ?_, h.inPlace.append _ fun pre x post hx => ?_⟩
    · have htold : Told config code .running _ _ := .running result entered readings before last
        (calls ++ made r.world e) hwaited hover
      simpa [loop, hrunning, herror, hlog] using htold
    · have hmem : x ∈ (made r.world e).map .frames := by simp [hx]
      obtain ⟨call, _, rfl⟩ := List.mem_map.mp hmem
      show .setLinkState .up ∈ r.log ++ pre
      simp [hlog]
  · have hquiet := made_of_byStack (hstage.resolve_left hrunning) r.world
    have hlog : (loop e r).log = r.log := by simp [loop, hquiet]
    exact ⟨h.same, hlog ▸ h.told, hlog ▸ h.inPlace⟩

theorem step_truthful (h : Truthful config code r) (e : RunEvent) (he : r.enabled e)
    (hreach : e.Reachable) : Truthful config code (r.step e) := by
  cases e with
  | started result now => exact started_truthful h result now he hreach
  | allMulticastSet result now => exact allMulticastSet_truthful h result now he hreach
  | linkUp answer now =>
    obtain ⟨deadline, hstage⟩ := he
    simp only [Runner.step, hstage]
    exact linkUp_truthful h answer now hstage
  | loop e => exact loop_truthful h e he.2

end

theorem run_truthful {r : EthernetRunner Q} {code : UInt8} {es : List RunEvent} {s : Runner Q}
    (h : (clocked Q).Run (run r code) es s) : Truthful r.config code s := by
  have hstart : Truthful r.config code (run r code) :=
    ⟨rfl, .starting, (each_nil (InPlace r.config)).snoc (.startAsync r.config.mac) ⟨rfl, rfl⟩⟩
  exact h.invariant hstart fun _ e hu he => step_truthful hu e he.1 he.2

/-! ### What the log of a run holds -/

def RunCall.setLinkState? : RunCall → Option LinkState
  | .setLinkState state => some state
  | _ => none

def linkReports (log : List RunCall) : List LinkState := log.filterMap RunCall.setLinkState?

theorem linkReports_append (k l : List RunCall) :
    linkReports (k ++ l) = linkReports k ++ linkReports l := List.filterMap_append

theorem linkReports_polls (readings : List UInt64) : linkReports (polls readings) = [] := by
  induction readings with
  | nil => rfl
  | cons t readings ih => exact ih

section
variable {config : EthernetConfig} {result : Except TransferError Unit} {entered : UInt64}
  {readings : List UInt64} {log last : List RunCall}

theorem Waited.linkReports (h : Waited config result entered readings log) :
    linkReports log = [] := by
  rw [h.log_eq, linkReports_append, List.append_eq_nil_iff]
  constructor
  · unfold EthernetConfig.prelude
    split <;> rfl
  · exact linkReports_polls readings

theorem WaitOver.linkReports {deadline : Nat} (h : WaitOver deadline last) :
    linkReports last = [] := by
  cases h <;> rfl

theorem Waited.started_mem (h : Waited config result entered readings log)
    {answer : Except TransferError Unit} (hmem : .started answer ∈ log) : answer = .ok () := by
  rw [h.log_eq] at hmem
  unfold EthernetConfig.prelude polls at hmem
  split at hmem <;> simpa using hmem

theorem Waited.started_ok (h : Waited config result entered readings log) :
    .started (.ok ()) ∈ log := by
  simp [h.log_eq, EthernetConfig.prelude]

theorem Waited.setAllMulticast_mem (h : Waited config result entered readings log)
    {enabled : Bool} : .setAllMulticast enabled ∈ log ↔
      enabled = true ∧ config.allMulticast = true := by
  rw [h.log_eq]
  unfold EthernetConfig.prelude polls
  by_cases hall : config.allMulticast = true <;> simp [hall]

theorem Waited.allMulticastSet_mem (h : Waited config result entered readings log)
    (answer : Except TransferError Unit) : .allMulticastSet answer ∈ log ↔
      answer = result ∧ config.allMulticast = true := by
  rw [h.log_eq]
  unfold EthernetConfig.prelude polls
  by_cases hall : config.allMulticast = true <;> simp [hall]

end

section
variable {config : EthernetConfig} {code : UInt8} {s : Runner Q}

theorem Truthful.failed (h : Truthful config code s) {error : TransferError}
    (hmem : .started (.error error) ∈ s.log) : s.stage = .parked ∧
      s.startLastError = errorCode error ∧
      s.log = [.startAsync config.mac, .started (.error error), .setLinkState .down] := by
  have htold := h.told
  generalize s.stage = stage, s.startLastError = last, s.log = log at htold hmem
  cases htold with
  | starting => simp at hmem
  | parked error' =>
    obtain rfl : error = error' := by simpa using hmem
    exact ⟨rfl, rfl, rfl⟩
  | settingMulticast _ => simp at hmem
  | waiting result entered readings before hroom hwaited =>
    have hmem : .started (.error error) ∈ before := by simpa using hmem
    cases hwaited.started_mem hmem
  | running result entered readings before last calls hwaited hover =>
    have hmem : .started (.error error) ∈ before := by
      cases hover <;> simpa using hmem
    cases hwaited.started_mem hmem

theorem Truthful.told_once (h : Truthful config code s) {before after : List RunCall}
    {state : LinkState} (hcut : s.log = before ++ .setLinkState state :: after) :
    linkReports before = [] ∧
      (state = .down ↔ ∃ error, .started (.error error) ∈ s.log) := by
  have hplace := h.inPlace before _ after hcut
  cases state with
  | down =>
    obtain ⟨error, rfl⟩ := hplace
    exact ⟨rfl, fun _ => ⟨error, by simp [hcut]⟩, fun _ => rfl⟩
  | up =>
    obtain ⟨result, entered, readings, log, last, hwaited, hover, rfl⟩ := hplace
    refine ⟨?_, nofun, ?_⟩
    · rw [linkReports_append, hwaited.linkReports, List.nil_append]
      exact hover.linkReports
    · rintro ⟨error, hmem⟩
      obtain ⟨_, _, hlog⟩ := h.failed hmem
      have hup : .setLinkState .up ∈ s.log := by simp [hcut]
      simp [hlog] at hup

theorem Truthful.told_when_over (h : Truthful config code s)
    (hover : s.stage = .parked ∨ s.stage = .running) : linkReports s.log ≠ [] := by
  have htold := h.told
  generalize s.stage = stage, s.startLastError = last, s.log = log at htold hover
  cases htold with
  | parked error => exact List.cons_ne_nil _ _
  | running result entered readings before last calls hwaited hlast =>
    rw [List.append_cons, linkReports_append, linkReports_append, linkReports_append]
    apply List.append_ne_nil_of_right_ne_nil
    apply List.append_ne_nil_of_right_ne_nil
    exact List.cons_ne_nil _ _
  | _ => rcases hover with hover | hover <;> cases hover

theorem Truthful.multicast (h : Truthful config code s) :
    (∃ enabled, .setAllMulticast enabled ∈ s.log) ↔
      config.allMulticast = true ∧ .started (.ok ()) ∈ s.log := by
  have htold := h.told
  generalize s.stage = stage, s.startLastError = last, s.log = log at htold
  cases htold with
  | starting => simp
  | parked error => simp
  | settingMulticast hall => simp [hall]
  | waiting result entered readings before hroom hwaited =>
    simp [hwaited.setAllMulticast_mem, hwaited.started_ok]
  | running result entered readings before last calls hwaited hover =>
    cases hover <;> simp [hwaited.setAllMulticast_mem, hwaited.started_ok]

theorem Truthful.startError (h : Truthful config noError s)
    (hover : s.stage = .parked ∨ s.stage = .running) (error : TransferError) :
    startError s = some error ↔
      .started (.error error) ∈ s.log ∨ .allMulticastSet (.error error) ∈ s.log := by
  have htold := h.told
  unfold Ethernet.startError
  generalize s.stage = stage, s.startLastError = last, s.log = log at htold hover
  cases htold with
  | parked error' => simp [errorFromCode_errorCode, eq_comm]
  | running result entered readings before last calls hwaited hlast =>
    have hstarted : .started (.error error) ∉ before := fun hmem => by
      cases hwaited.started_mem hmem
    have hmulticast := hwaited.allMulticastSet_mem (.error error)
    cases result with
    | ok _ =>
      cases hlast <;>
        simp [hstarted, hmulticast, EthernetConfig.errorAfter, errorFromCode_noError]
    | error error' =>
      by_cases hall : config.allMulticast = true
      · cases hlast <;>
          simp [hstarted, hmulticast, hall, EthernetConfig.errorAfter, errorFromCode_errorCode,
            eq_comm]
      · cases hlast <;>
          simp [hstarted, hmulticast, hall, EthernetConfig.errorAfter, errorFromCode_noError]
  | _ => rcases hover with hover | hover <;> cases hover

end

/-! ### The wait ends -/

theorem step_running {s : Runner Q} {e : RunEvent} (h : s.stage = .running)
    (he : s.enabled e) : (s.step e).stage = .running := by
  cases e with
  | started result now => rw [show s.stage = .starting from he] at h; cases h
  | allMulticastSet result now => rw [show s.stage = .settingMulticast from he] at h; cases h
  | linkUp answer now =>
    obtain ⟨deadline, hdeadline⟩ := he
    rw [hdeadline] at h
    cases h
  | loop e => exact h

theorem step_waiting {s : Runner Q} {e : RunEvent} {deadline : UInt64}
    (h : s.stage = .waiting deadline) (he : s.enabled e) :
    (s.step e).stage = .running ∨ (s.step e).stage = .waiting deadline ∧
      ∀ answer now, e = .linkUp answer now → now < deadline := by
  cases e with
  | started result now => rw [show s.stage = .starting from he] at h; cases h
  | allMulticastSet result now => rw [show s.stage = .settingMulticast from he] at h; cases h
  | loop e => exact Or.inr ⟨h, nofun⟩
  | linkUp answer now =>
    have hstep : s.step (.linkUp answer now) = linkUp answer now deadline s := by
      simp only [Runner.step, h]
    rw [hstep]
    rcases answer with error | _ | _
    · exact Or.inl rfl
    · by_cases hover : deadline ≤ now
      · exact Or.inl (by simp only [linkUp, if_pos hover]; rfl)
      · right
        simp only [linkUp, if_neg hover]
        refine ⟨h, fun answer' now' heq => ?_⟩
        obtain ⟨_, rfl⟩ := RunEvent.linkUp.inj heq
        exact UInt64.not_le.mp hover
    · exact Or.inl rfl

theorem wait_ends {s t : Runner Q} {es : List RunEvent} {deadline : UInt64}
    (hstage : s.stage = .waiting deadline) (h : (clocked Q).Run s es t) :
    t.stage = .running ∨
      t.stage = .waiting deadline ∧ ∀ answer now, .linkUp answer now ∈ es → now < deadline := by
  induction h with
  | nil => exact Or.inr ⟨hstage, fun _ _ hmem => absurd hmem List.not_mem_nil⟩
  | snoc e _ he ih =>
    rcases ih with hrunning | ⟨hwaiting, hshort⟩
    · exact Or.inl (step_running hrunning he.1)
    · rcases step_waiting hwaiting he.1 with hrunning | ⟨hwaiting, hnow⟩
      · exact Or.inl hrunning
      · refine Or.inr ⟨hwaiting, fun answer now hmem => ?_⟩
        rcases List.mem_append.mp hmem with hmem | hmem
        · exact hshort answer now hmem
        · exact hnow answer now (List.mem_singleton.mp hmem).symm

/-- The link is reported once, `Down` iff the start failed and then with nothing after
it; `Up` comes when the wait is over and before any frame; the multicast filter is set
iff asked for, before the wait; the error kept is the one that was met; and a wait
whose clock gets to its deadline ends. -/
theorem bring_up_tells_the_truth_once (r : EthernetRunner Q) (es : List RunEvent) (s : Runner Q)
    (h : (clocked Q).Run (run r noError) es s) :
    (∀ before state after, s.log = before ++ .setLinkState state :: after →
      linkReports before = [] ∧
        (state = .down ↔ ∃ error, .started (.error error) ∈ s.log)) ∧
    (s.stage = .parked ∨ s.stage = .running → linkReports s.log ≠ []) ∧
    (∀ error, .started (.error error) ∈ s.log →
      s.log = [.startAsync r.config.mac, .started (.error error), .setLinkState .down]) ∧
    (∀ before after, s.log = before ++ .setLinkState .up :: after →
      ∃ result entered readings last,
        before = r.config.prelude result ++ .now entered :: polls readings ++ .isLinkUp :: last ∧
        (∀ t ∈ readings, t.toNat < entered.toNat + linkWaitUs.toNat) ∧
        WaitOver (entered.toNat + linkWaitUs.toNat) last) ∧
    (∀ before call after, s.log = before ++ .frames call :: after →
      .setLinkState .up ∈ before) ∧
    ((∃ enabled, .setAllMulticast enabled ∈ s.log) ↔
      r.config.allMulticast = true ∧ .started (.ok ()) ∈ s.log) ∧
    (∀ before enabled after, s.log = before ++ .setAllMulticast enabled :: after →
      enabled = true ∧ .isLinkUp ∉ before) ∧
    (s.stage = .parked ∨ s.stage = .running → ∀ error, startError s = some error ↔
      .started (.error error) ∈ s.log ∨ .allMulticastSet (.error error) ∈ s.log) ∧
    ∀ deadline, s.stage = .waiting deadline →
      (∀ answer now, s.enabled (.linkUp answer now)) ∧
      ∀ fs t, (clocked Q).Run s fs t →
        (∃ answer now, .linkUp answer now ∈ fs ∧ deadline ≤ now) → t.stage = .running := by
  have hs := run_truthful h
  refine ⟨fun _ _ _ => hs.told_once, hs.told_when_over, fun error hmem => (hs.failed hmem).2.2,
    fun before after hcut => ?_, fun before call after hcut => hs.inPlace before _ after hcut,
    hs.multicast, fun before enabled after hcut => ?_, hs.startError,
    fun deadline hstage => ⟨fun _ _ => ⟨deadline, hstage⟩, fun fs t hrun hpast => ?_⟩⟩
  · obtain ⟨result, entered, readings, log, last, hwaited, hover, hbefore⟩ :=
      hs.inPlace before _ after hcut
    refine ⟨result, entered, readings, last, ?_, hwaited.short, hover⟩
    rw [hbefore, hwaited.log_eq]
  · obtain ⟨henabled, _, rfl⟩ := hs.inPlace before _ after hcut
    exact ⟨henabled, by simp⟩
  · obtain ⟨answer, now, hmem, hle⟩ := hpast
    rcases wait_ends hstage hrun with hrunning | ⟨_, hshort⟩
    · exact hrunning
    · exact absurd hle (UInt64.not_le.mpr (hshort answer now hmem))

theorem clocked_step {r s : Runner Q} {es : List RunEvent} (h : (clocked Q).Run r es s)
    (e : RunEvent) (he : s.enabled e) (hreach : e.Reachable) :
    (clocked Q).Run r (es ++ [e]) (s.step e) :=
  h.snoc e ⟨he, hreach⟩

/-- The filter refused, a link found at the second poll and a receive under way. -/
theorem bring_up_tells_the_truth_once_unfiltered :
    ∃ s : Runner (fifoChannel mtu 1 1),
      (clocked _).Run
        (run (attach (fifoChannel mtu 1 1).new ⟨mtu⟩ ⟨⟨#[2, 0, 0, 0, 0, 1], rfl⟩, true⟩) noError)
        [.started (.ok ()) 0, .loop (.stackTransmit [7]), .allMulticastSet (.error .stall) 10,
          .linkUp (.ok false) 20, .linkUp (.ok true) 30, .loop (.issue 40)] s ∧
      s.stage = .running ∧ (∀ before call after, s.log = before ++ .frames call :: after →
        .setLinkState .up ∈ before) ∧
      (startError s = some .stall ↔
        .started (.error .stall) ∈ s.log ∨ .allMulticastSet (.error .stall) ∈ s.log) := by
  have hstarted := clocked_step (.nil (s := run (attach (fifoChannel mtu 1 1).new ⟨mtu⟩
    ⟨⟨#[2, 0, 0, 0, 0, 1], rfl⟩, true⟩) noError)) (.started (.ok ()) 0) rfl
    (show (0 : UInt64).toNat + linkWaitUs.toNat < 2 ^ 64 by decide)
  have hqueued := clocked_step hstarted (.loop (.stackTransmit [7]))
    ⟨trivial, Or.inr (Or.inr ⟨_, rfl⟩)⟩ trivial
  have hfilter := clocked_step hqueued (.allMulticastSet (.error .stall) 10) rfl
    (show (10 : UInt64).toNat + linkWaitUs.toNat < 2 ^ 64 by decide)
  have hpolled := clocked_step hfilter (.linkUp (.ok false) 20) ⟨_, rfl⟩ trivial
  have hlinked := clocked_step hpolled (.linkUp (.ok true) 30)
    ⟨10 + linkWaitUs, by decide⟩ trivial
  have hrun := clocked_step hlinked (.loop (.issue 40)) ⟨rfl, Or.inl (by decide)⟩ trivial
  have hs := bring_up_tells_the_truth_once _ _ _ hrun
  refine ⟨_, hrun, ?_, hs.2.2.2.2.1, hs.2.2.2.2.2.2.2.1 (Or.inr ?_) .stall⟩
  · decide
  · decide

end RpiHalEmbassy.Ethernet
