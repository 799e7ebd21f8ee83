import RpiHalEmbassy.Library.Machine
import RpiHalEmbassy.Wifi.Frames
import RpiHalEmbassy.Wifi.Watch

/-!
# `WifiRunner::run`

`pass` is one turn of the loop. `World` is the runner with its history, and
`wifi` interleaves passes with what the stack does to the queue pair and with
`request_counters`, which anyone may call.
-/

namespace RpiHalEmbassy.Wifi
open Machines Net

variable {H : Hal} {Q : Channel}

def sampleLink (a : Answers H) (c : Clock) (s : Runner H Q) : Runner H Q :=
  if s.quiet < linkQuietPasses then s
  else
    let s := s.call (.now c.sampleGate)
    if c.sampleGate < s.due then s
    else
      let s := s.call (.now c.sampleDue)
      let s := { s with due := c.sampleDue + linkInterval }
      let s := (s.call (.rssiDbm a.rssiDbm)).call (.linkRateKbps a.linkRateKbps)
      let sample := match a.rssiDbm, a.linkRateKbps with
        | .ok rssiDbm, .ok rateKbps => some ⟨rssiDbm, rateKbps⟩
        | _, _ => none
      { s with statics.link := sample }

def sampleCounters (a : Answers H) (s : Runner H Q) : Runner H Q :=
  let wanted := s.statics.countersWanted
  let s := { s with statics.countersWanted := false }
  if !wanted then s
  else
    let s := s.call (.counters a.counters)
    { s with statics.counters := some a.counters }

def requestCounters (s : Runner H Q) : Runner H Q :=
  { s with statics.counters := none, statics.countersWanted := true }

/-- `u32::saturating_add(1)`. -/
def saturatingIncr (n : UInt32) : UInt32 := if n = 4294967295 then n else n + 1

/-- The statements between the two frame halves and the rest of the pass. -/
def noteTraffic (c : Clock) (received sent : Bool) (s : Runner H Q) : Runner H Q :=
  let s := if received then { s.call (.now c.heard) with heard := c.heard } else s
  { s with quiet := if received || sent then 0 else saturatingIncr s.quiet }

/-- What one pass did: where `Watch` stood when it began, what its halves returned,
and the calls of each part. -/
structure Record (H : Hal) where
  was : Association
  received : Bool
  sent : Bool
  receive : List (Call H)
  transmit : List (Call H)
  note : List (Call H)
  sample : List (Call H)
  watch : List (Call H)
  counters : List (Call H)

def Record.calls (r : Record H) : List (Call H) :=
  r.receive ++ r.transmit ++ r.note ++ r.sample ++ r.watch ++ r.counters

def pass (a : Answers H) (c : Clock) (s : Runner H Q) : Runner H Q × Record H :=
  let s := { s with statics.passes := s.statics.passes + 1 }
  let received := receive a s.cut
  let sent := transmit a received.2.cut
  let noted := noteTraffic c received.1 sent.1 sent.2.cut
  let sampled := sampleLink a c noted.cut
  let watched := watchPass a c sampled.cut
  let counted := sampleCounters a watched.cut
  (counted,
    { was := s.watch.state
      received := received.1
      sent := sent.1
      receive := received.2.calls
      transmit := sent.2.calls
      note := noted.calls
      sample := sampled.calls
      watch := watched.calls
      counters := counted.calls })

/-- The readings `run` takes before its loop: `Watch::new`'s, `due`'s and `heard`'s. -/
structure Opening where
  watch : Nat
  due : Nat
  heard : Nat
  watch_le : watch ≤ due
  due_le : due ≤ heard

/-- `queued` and `taken` are the frames the stack has handed over and been given,
`requests` counts `request_counters`, `clock` is no earlier than any reading yet. -/
structure World (H : Hal) (Q : Channel) where
  runner : Runner H Q
  opening : List (Call H)
  records : List (Record H)
  queued : List Bytes
  taken : List Bytes
  requests : Nat
  clock : Nat

def World.calls (w : World H Q) : List (Call H) := w.opening ++ w.records.flatMap Record.calls

/-- `run` up to its loop, on a queue pair just built. -/
def start (Q : Channel) (reconnect : Option (Reconnect H)) (o : Opening) : World H Q where
  runner :=
    { queues := Q.setLinkState .up Q.new
      statics := { Statics.boot H with associated := true }
      watch := { reconnect := reconnect, state := .up, due := o.watch + probeInterval }
      due := o.due
      quiet := 0
      heard := o.heard
      calls := [] }
  opening := [.setLinkState .up, .now o.watch, .now o.due, .now o.heard]
  records := []
  queued := []
  taken := []
  requests := 0
  clock := o.heard

inductive Event (H : Hal) where
  | stackReceive
  | stackTransmit (frame : Bytes)
  | requestCounters
  | pass (a : Answers H) (c : Clock)

def step (w : World H Q) : Event H → World H Q
  | .stackReceive =>
    match Q.receive w.runner.queues with
    | none => w
    | some (f, q) => { w with runner.queues := q, taken := w.taken ++ [f] }
  | .stackTransmit f =>
    match Q.transmit f w.runner.queues with
    | none => w
    | some q => { w with runner.queues := q, queued := w.queued ++ [f] }
  | .requestCounters =>
    { w with runner := requestCounters w.runner, requests := w.requests + 1 }
  | .pass a c =>
    let r := pass a c w.runner
    { w with runner := r.1, records := w.records ++ [r.2], clock := c.last }

def enabled (w : World H Q) : Event H → Prop
  | .pass _ c => c.InOrder w.clock
  | _ => True

def wifi (H : Hal) (Q : Channel) : Machine (World H Q) (Event H) where
  enabled := enabled
  step := step

structure Frame (v w : World H Q) : Prop where
  opening : w.opening = v.opening
  records : w.records = v.records
  clock : w.clock = v.clock
  watch : w.runner.watch = v.runner.watch
  due : w.runner.due = v.runner.due
  quiet : w.runner.quiet = v.runner.quiet
  heard : w.runner.heard = v.runner.heard
  associated : w.runner.statics.associated = v.runner.statics.associated
  drops : w.runner.statics.drops = v.runner.statics.drops
  joins : w.runner.statics.joins = v.runner.statics.joins
  link : w.runner.statics.link = v.runner.statics.link

theorem step_frame (w : World H Q) (e : Event H) :
    (∃ a c, e = .pass a c) ∨ Frame w (step w e) := by
  have hrefl : Frame w w := by constructor <;> rfl
  cases e with
  | stackReceive =>
    right
    simp only [step]
    split
    · exact hrefl
    · constructor <;> rfl
  | stackTransmit f =>
    right
    simp only [step]
    split
    · exact hrefl
    · constructor <;> rfl
  | requestCounters =>
    right
    constructor <;> rfl
  | pass a c => exact Or.inl ⟨a, c, rfl⟩

theorem Frame.calls {v w : World H Q} (h : Frame v w) : w.calls = v.calls := by
  rw [World.calls, h.opening, h.records, World.calls]

theorem run_event {s w : World H Q} {es : List (Event H)} (h : (wifi H Q).Run s es w)
    (e : Event H) (he : enabled w e) : (wifi H Q).Run s (es ++ [e]) (step w e) :=
  h.snoc e he

theorem run_replicate (a : Answers H) {t : Nat} (n : Nat) {w : World H Q} (ht : w.clock ≤ t) :
    (wifi H Q).Run w (.replicate n (.pass a (.still t)))
      ((List.replicate n (.pass a (.still t))).foldl step w) := by
  induction n generalizing w with
  | zero => exact .nil
  | succ n ih => exact .cons (Clock.still_inOrder ht) (ih le_rfl)

/-! ### A chip to try things on -/

def unitHal : Hal := ⟨Unit, Unit, Unit⟩

abbrev powerOn (reconnect : Option (Reconnect unitHal)) : World unitHal (fifoChannel 1514 1 1) :=
  start _ reconnect ⟨0, 0, 0, le_rfl, le_rfl⟩

/-- A chip that answers everything, hears nothing and is on no network. -/
def offNetwork : Answers unitHal where
  recvEthernet _ := ⟨.ok none, []⟩
  sendEthernet := .ok ()
  rssiDbm := .ok (-40)
  linkRateKbps := .ok 65000
  bssid := .ok none
  startJoin := .ok ()
  setPowerManagement := .ok ()
  setAllMulticast := .ok ()
  counters := .ok ()

def onNetwork : Answers unitHal := { offNetwork with bssid := .ok (some [2, 0, 0, 0, 0, 1]) }

def hearing : Answers unitHal :=
  { onNetwork with
    recvEthernet := fun n => if n = 0 then ⟨.ok (some 3), [1, 2, 3]⟩ else ⟨.ok none, []⟩ }

def deadChip : Answers unitHal where
  recvEthernet _ := ⟨.error (.other ()), []⟩
  sendEthernet := .error (.other ())
  rssiDbm := .error (.other ())
  linkRateKbps := .error (.other ())
  bssid := .error (.other ())
  startJoin := .error (.other ())
  setPowerManagement := .error (.other ())
  setAllMulticast := .error (.other ())
  counters := .error (.other ())

end RpiHalEmbassy.Wifi
