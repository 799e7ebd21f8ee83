import Mathlib.Data.UInt
import Mathlib.Tactic.Simps.Basic
import RpiHalEmbassy.Net.Channel

/-!
# What the Wi-Fi runner reads and writes (`src/wifi.rs`)

Everything outside `wifi.rs` answers a pass of the runner from outside:
`Answers` holds what each call into `rpi_hal::wifi::Wifi` returns if the pass
makes it, and `Clock` what `Instant::now()` returns at each place that reads it.
Apart from `recv_ethernet` a pass reaches each of these places at most once.
`Call` is the trace a pass leaves.
-/

namespace RpiHalEmbassy.Wifi
open Net

/-! An `embassy_time::Instant` or `Duration` is a `Nat` of microsecond ticks. -/

def fromSecs (s : Nat) : Nat := s * 1000000
def fromMillis (ms : Nat) : Nat := ms * 1000

def rxBurst : Nat := 8
def linkInterval : Nat := fromSecs 5
def linkQuietPasses : UInt32 := 100
def rxSilence : Nat := fromSecs 10
def probeInterval : Nat := fromSecs 5
def joinPoll : Nat := fromMillis 250
def joinBudget : Nat := fromSecs 15
def retryInterval : Nat := fromSecs 10

/-- The types of `rpi_hal::wifi` the runner only passes on. `Fault` is the
variants of `Error` other than `TxBusy`, the one the runner tells apart. -/
structure Hal where
  Fault : Type
  Counters : Type
  PowerManagement : Type

inductive Error (H : Hal) where
  | txBusy
  | other (fault : H.Fault)

abbrev Result (H : Hal) (α : Type) := Except (Error H) α

structure Link where
  rssiDbm : Int32
  rateKbps : UInt32
  deriving DecidableEq

structure Reconnect (H : Hal) where
  ssid : String
  passphrase : String
  powerManagement : H.PowerManagement
  allMulticast : Bool

/-- `buffer` is the receive slot as the call left it. -/
structure Received (H : Hal) where
  answer : Result H (Option Nat)
  buffer : Bytes

/-- `recvEthernet n` answers the pass's call number `n`, from 0. -/
structure Answers (H : Hal) where
  recvEthernet : Nat → Received H
  sendEthernet : Result H Unit
  rssiDbm : Result H Int32
  linkRateKbps : Result H UInt32
  bssid : Result H (Option Bytes)
  startJoin : Result H Unit
  setPowerManagement : Result H Unit
  setAllMulticast : Result H Unit
  counters : Result H H.Counters

/-- The readings of one pass, in program order; `joinWatchDue` is `join`'s with
nothing to join with, the next two are its `Ok` branch, `joinRetryDue` its `Err`. -/
structure Clock where
  heard : Nat
  sampleGate : Nat
  sampleDue : Nat
  watchGate : Nat
  silenceGate : Nat
  probeDue : Nat
  associateDue : Nat
  pollDue : Nat
  deadlineGate : Nat
  retryDue : Nat
  joinWatchDue : Nat
  joinDeadline : Nat
  joinDue : Nat
  joinRetryDue : Nat

/-- The readings never go back, and none lies before `since`. -/
structure Clock.InOrder (since : Nat) (c : Clock) : Prop where
  heard : since ≤ c.heard
  sampleGate : c.heard ≤ c.sampleGate
  sampleDue : c.sampleGate ≤ c.sampleDue
  watchGate : c.sampleDue ≤ c.watchGate
  silenceGate : c.watchGate ≤ c.silenceGate
  probeDue : c.silenceGate ≤ c.probeDue
  associateDue : c.probeDue ≤ c.associateDue
  pollDue : c.associateDue ≤ c.pollDue
  deadlineGate : c.pollDue ≤ c.deadlineGate
  retryDue : c.deadlineGate ≤ c.retryDue
  joinWatchDue : c.retryDue ≤ c.joinWatchDue
  joinDeadline : c.joinWatchDue ≤ c.joinDeadline
  joinDue : c.joinDeadline ≤ c.joinDue
  joinRetryDue : c.joinDue ≤ c.joinRetryDue

def Clock.last (c : Clock) : Nat := c.joinRetryDue

def Clock.still (t : Nat) : Clock := ⟨t, t, t, t, t, t, t, t, t, t, t, t, t, t⟩

theorem Clock.still_inOrder {since t : Nat} (h : since ≤ t) :
    (Clock.still t).InOrder since :=
  ⟨h, le_rfl, le_rfl, le_rfl, le_rfl, le_rfl, le_rfl, le_rfl, le_rfl, le_rfl, le_rfl, le_rfl,
    le_rfl, le_rfl⟩

/-! The timers are set from readings between the watch's gate and the pass's last. -/

namespace Clock.InOrder
variable {since : Nat} {c : Clock}

theorem heard_le_watchGate (h : c.InOrder since) : c.heard ≤ c.watchGate :=
  h.sampleGate.trans (h.sampleDue.trans h.watchGate)

theorem since_le_watchGate (h : c.InOrder since) : since ≤ c.watchGate :=
  h.heard.trans h.heard_le_watchGate

theorem gate_le_probeDue (h : c.InOrder since) : c.watchGate ≤ c.probeDue :=
  h.silenceGate.trans h.probeDue

theorem gate_le_associateDue (h : c.InOrder since) : c.watchGate ≤ c.associateDue :=
  h.gate_le_probeDue.trans h.associateDue

theorem gate_le_pollDue (h : c.InOrder since) : c.watchGate ≤ c.pollDue :=
  h.gate_le_associateDue.trans h.pollDue

theorem gate_le_deadlineGate (h : c.InOrder since) : c.watchGate ≤ c.deadlineGate :=
  h.gate_le_pollDue.trans h.deadlineGate

theorem gate_le_retryDue (h : c.InOrder since) : c.watchGate ≤ c.retryDue :=
  h.gate_le_deadlineGate.trans h.retryDue

theorem probeDue_le_joinWatchDue (h : c.InOrder since) : c.probeDue ≤ c.joinWatchDue :=
  h.associateDue.trans (h.pollDue.trans (h.deadlineGate.trans (h.retryDue.trans h.joinWatchDue)))

theorem probeDue_le_joinDeadline (h : c.InOrder since) : c.probeDue ≤ c.joinDeadline :=
  h.probeDue_le_joinWatchDue.trans h.joinDeadline

theorem joinDue_le_last (h : c.InOrder since) : c.joinDue ≤ c.last := h.joinRetryDue

theorem joinDeadline_le_last (h : c.InOrder since) : c.joinDeadline ≤ c.last :=
  h.joinDue.trans h.joinDue_le_last

theorem joinWatchDue_le_last (h : c.InOrder since) : c.joinWatchDue ≤ c.last :=
  h.joinDeadline.trans h.joinDeadline_le_last

theorem retryDue_le_last (h : c.InOrder since) : c.retryDue ≤ c.last :=
  h.joinWatchDue.trans h.joinWatchDue_le_last

theorem deadlineGate_le_last (h : c.InOrder since) : c.deadlineGate ≤ c.last :=
  h.retryDue.trans h.retryDue_le_last

theorem pollDue_le_last (h : c.InOrder since) : c.pollDue ≤ c.last :=
  h.deadlineGate.trans h.deadlineGate_le_last

theorem associateDue_le_last (h : c.InOrder since) : c.associateDue ≤ c.last :=
  h.pollDue.trans h.pollDue_le_last

theorem probeDue_le_last (h : c.InOrder since) : c.probeDue ≤ c.last :=
  h.associateDue.trans h.associateDue_le_last

theorem silenceGate_le_last (h : c.InOrder since) : c.silenceGate ≤ c.last :=
  h.probeDue.trans h.probeDue_le_last

theorem watchGate_le_last (h : c.InOrder since) : c.watchGate ≤ c.last :=
  h.silenceGate.trans h.silenceGate_le_last

theorem sampleGate_le_last (h : c.InOrder since) : c.sampleGate ≤ c.last :=
  (h.sampleDue.trans h.watchGate).trans h.watchGate_le_last

theorem since_le_last (h : c.InOrder since) : since ≤ c.last :=
  h.since_le_watchGate.trans h.watchGate_le_last

end Clock.InOrder

inductive Call (H : Hal) where
  | now (reading : Nat)
  | recvEthernet (answer : Result H (Option Nat)) (buffer : Bytes)
  | sendEthernet (frame : Bytes) (answer : Result H Unit)
  | rssiDbm (answer : Result H Int32)
  | linkRateKbps (answer : Result H UInt32)
  | bssid (answer : Result H (Option Bytes))
  | startJoin (ssid passphrase : String) (answer : Result H Unit)
  | setPowerManagement (mode : H.PowerManagement) (answer : Result H Unit)
  | setAllMulticast (on : Bool) (answer : Result H Unit)
  | counters (answer : Result H H.Counters)
  | setLinkState (state : LinkState)

inductive Association where
  | up
  | joining (deadline : Nat)
  | down
  deriving DecidableEq

structure Watch (H : Hal) where
  reconnect : Option (Reconnect H)
  state : Association
  due : Nat

structure Statics (H : Hal) where
  associated : Bool
  drops : UInt32
  joins : UInt32
  passes : UInt32
  link : Option Link
  countersWanted : Bool
  counters : Option (Result H H.Counters)
  rxFrames : UInt32
  rxErrors : UInt32
  rxLastError : Option (Error H)
  txFrames : UInt32
  txBusyPasses : UInt32
  txFailures : UInt32
  txLastError : Option (Error H)

def Statics.boot (H : Hal) : Statics H where
  associated := false
  drops := 0
  joins := 0
  passes := 0
  link := none
  countersWanted := false
  counters := none
  rxFrames := 0
  rxErrors := 0
  rxLastError := none
  txFrames := 0
  txBusyPasses := 0
  txFailures := 0
  txLastError := none

/-- What `WifiRunner::run` holds between two statements of its loop, the statics,
and the calls made since the trace was last cut. -/
structure Runner (H : Hal) (Q : Channel) where
  queues : Q.State
  statics : Statics H
  watch : Watch H
  due : Nat
  quiet : UInt32
  heard : Nat
  calls : List (Call H)

@[simps] def Runner.call {H : Hal} {Q : Channel} (s : Runner H Q) (c : Call H) : Runner H Q :=
  { s with calls := s.calls ++ [c] }

@[simps] def Runner.cut {H : Hal} {Q : Channel} (s : Runner H Q) : Runner H Q :=
  { s with calls := [] }

end RpiHalEmbassy.Wifi
