import Mathlib.Tactic.Simps.Basic
import RpiHalEmbassy.Library.Machine
import RpiHalEmbassy.Net.Channel

/-!
# The Ethernet adapter's two frame loops

`receive_forever` and `transmit_forever`, joined, over one queue pair. Each loop
is a program counter: it stops where the source awaits, and the transmit loop
also between the atomic updates of its statics. The chip's answers, the clock and
the order in which the two loops and the stack move are the labels.
-/

namespace RpiHalEmbassy.Ethernet
open Machines Net

def mtu : Nat := 1514

def gapLongUs : UInt64 := 100

inductive TransferError where
  | stall
  | transactionError
  | babble
  | nak
  | nakTimeout
  | frameOverrun
  | dataToggleError
  | halted
  | timeout
  deriving DecidableEq

def noError : UInt8 := 0

def errorCode : TransferError → UInt8
  | .stall => 1
  | .transactionError => 2
  | .babble => 3
  | .nak => 4
  | .nakTimeout => 5
  | .frameOverrun => 6
  | .dataToggleError => 7
  | .halted => 8
  | .timeout => 9

def errorFromCode (code : UInt8) : Option TransferError :=
  match code with
  | 1 => some .stall
  | 2 => some .transactionError
  | 3 => some .babble
  | 4 => some .nak
  | 5 => some .nakTimeout
  | 6 => some .frameOverrun
  | 7 => some .dataToggleError
  | 8 => some .halted
  | 9 => some .timeout
  | _ => none

theorem errorFromCode_errorCode (error : TransferError) :
    errorFromCode (errorCode error) = some error := by
  cases error <;> rfl

theorem errorFromCode_noError : errorFromCode noError = none := rfl

structure Statics where
  rxFrames : UInt32
  rxUnusable : UInt32
  rxBatched : UInt32
  gapMaxUs : UInt32
  gapLong : UInt32
  rxFailures : UInt32
  rxLastError : UInt8
  txFrames : UInt32
  txFailures : UInt32
  txLastError : UInt8

def Statics.boot : Statics := ⟨0, 0, 0, 0, 0, 0, noError, 0, 0, noError⟩

def recordGap (microseconds : UInt64) (s : Statics) : Statics :=
  -- `u32::try_from(microseconds).unwrap_or(u32::MAX)`
  let gap := if microseconds ≤ 4294967295 then microseconds.toUInt32 else 4294967295
  let s := { s with gapMaxUs := max s.gapMaxUs gap }
  if gapLongUs ≤ microseconds then { s with gapLong := s.gapLong + 1 } else s

/-- What `receive_frames_async` returns: the frames of one transfer, or why it failed. -/
abbrev Transfer := Except TransferError (List Bytes)

inductive Call where
  | now (reading : UInt64)
  | receiveFrames
  | received (transfer : Transfer)
  | rxDone (frame : Bytes)
  | sendFrame (frame : Bytes)
  | sent (outcome : Except TransferError Unit)
  | txDone

/-- Where `receive_forever` stands: before the next transfer, awaiting it, or with
`frames` of it left to commit and `delivered` committed. -/
inductive Rx where
  | next
  | receiving
  | delivering (frames : List Bytes) (delivered : UInt32)

/-- Where `transmit_forever` stands: awaiting a frame, awaiting its transfer, and then
before each of the statements that follow it. -/
inductive Tx where
  | idle
  | sending
  | sent (outcome : Except TransferError Unit)
  | failing (error : TransferError)
  | storing (error : TransferError)
  | done

/-- The two loops, the queue pair and what has been done: `queued` and `taken` are the
frames the stack has handed over and been given. -/
structure World (Q : Channel) where
  queues : Q.State
  statics : Statics
  completedAt : Option UInt64
  rx : Rx
  tx : Tx
  calls : List Call
  queued : List Bytes
  taken : List Bytes

variable {Q : Channel}

@[simps]
def World.call (w : World Q) (call : Call) : World Q := { w with calls := w.calls ++ [call] }

/-- The frames loops as the join first polls them, on a queue pair the bring-up has
reported up. -/
def start (Q : Channel) : World Q where
  queues := Q.setLinkState .up Q.new
  statics := Statics.boot
  completedAt := none
  rx := .next
  tx := .idle
  calls := []
  queued := []
  taken := []

/-! ### `receive_forever` -/

def issue (now : UInt64) (w : World Q) : World Q :=
  let w := match w.completedAt with
    | none => w
    | some previous => { w.call (.now now) with statics := recordGap (now - previous) w.statics }
  { w.call .receiveFrames with rx := .receiving }

def complete (transfer : Transfer) (now : UInt64) (w : World Q) : World Q :=
  let w := { (w.call (.received transfer)).call (.now now) with completedAt := some now }
  match transfer with
  | .ok frames => { w with rx := .delivering frames 0 }
  | .error error =>
    { w with
      rx := .next
      statics.rxFailures := w.statics.rxFailures + 1
      statics.rxLastError := errorCode error }

def fitted (Q : Channel) (frame : Bytes) : Bytes := frame.take (min frame.length Q.mtu)

def deliver (frame : Bytes) (rest : List Bytes) (delivered : UInt32) (w : World Q) : World Q :=
  let len := min frame.length Q.mtu
  { w.call (.rxDone (frame.take len)) with
    queues := Q.rxDone (frame.take len) len w.queues
    rx := .delivering rest (delivered + 1) }

def finish (delivered : UInt32) (w : World Q) : World Q :=
  let w := { w with rx := .next }
  if delivered = 0 then { w with statics.rxUnusable := w.statics.rxUnusable + 1 }
  else
    let w := { w with statics.rxFrames := w.statics.rxFrames + delivered }
    if 1 < delivered then { w with statics.rxBatched := w.statics.rxBatched + 1 } else w

/-! ### `transmit_forever` -/

def submit (frame : Bytes) (w : World Q) : World Q :=
  { w.call (.sendFrame frame) with tx := .sending }

def answer (outcome : Except TransferError Unit) (w : World Q) : World Q :=
  { w.call (.sent outcome) with tx := .sent outcome }

def advance (w : World Q) : World Q :=
  match w.tx with
  | .sent outcome =>
    { w with
      statics.txFrames := w.statics.txFrames + 1
      tx := match outcome with
        | .ok () => .done
        | .error error => .failing error }
  | .failing error =>
    { w with statics.txFailures := w.statics.txFailures + 1, tx := .storing error }
  | .storing error => { w with statics.txLastError := errorCode error, tx := .done }
  | .done => { w.call .txDone with queues := Q.txDone w.queues, tx := .idle }
  | _ => w

/-! ### The machine -/

inductive Event where
  | issue (now : UInt64)
  | complete (transfer : Transfer) (now : UInt64)
  | deliver
  | finish
  | submit
  | answer (outcome : Except TransferError Unit)
  | advance
  | stackReceive
  | stackTransmit (frame : Bytes)

/-- A loop moves only where it stands: `deliver` needs the free slot that `rx_buf` waits
for, `submit` the queued frame that `tx_buf` does. -/
def enabled (w : World Q) : Event → Prop
  | .issue _ => w.rx = .next
  | .complete _ _ => w.rx = .receiving
  | .deliver => (∃ frame rest n, w.rx = .delivering (frame :: rest) n) ∧ Q.tryRxBuf w.queues = true
  | .finish => ∃ n, w.rx = .delivering [] n
  | .submit => w.tx = .idle ∧ ∃ frame, Q.tryTxBuf w.queues = some frame
  | .answer _ => w.tx = .sending
  | .advance => w.tx ≠ .idle ∧ w.tx ≠ .sending
  | .stackReceive => True
  | .stackTransmit _ => True

def step (w : World Q) : Event → World Q
  | .issue now => issue now w
  | .complete transfer now => complete transfer now w
  | .deliver =>
    match w.rx with
    | .delivering (frame :: rest) n => deliver frame rest n w
    | _ => w
  | .finish =>
    match w.rx with
    | .delivering [] n => finish n w
    | _ => w
  | .submit =>
    match Q.tryTxBuf w.queues with
    | some frame => submit frame w
    | none => w
  | .answer outcome => answer outcome w
  | .advance => advance w
  | .stackReceive =>
    match Q.receive w.queues with
    | none => w
    | some (f, q) => { w with queues := q, taken := w.taken ++ [f] }
  | .stackTransmit f =>
    match Q.transmit f w.queues with
    | none => w
    | some q => { w with queues := q, queued := w.queued ++ [f] }

def ethernet (Q : Channel) : Machine (World Q) Event where
  enabled := enabled
  step := step

end RpiHalEmbassy.Ethernet
