import Mathlib.Data.List.Basic

/-!
# The queue pair

Both network adapters stand on `embassy-net-driver-channel`, which is not part
of this repository: a pair of bounded packet queues between the stack's `Device`
and the adapter's `Runner`. It is a parameter here, a structure of its
operations with what they are documented to do. `rxQueue` holds the frames the
runner has committed and the stack has not taken, `txQueue` those the stack has
queued and the runner has not released.
-/

namespace RpiHalEmbassy.Net

abbrev Bytes := List UInt8

inductive LinkState where
  | down
  | up
  deriving DecidableEq

structure Channel where
  State : Type
  new : State
  mtu : Nat
  depthRx : Nat
  depthTx : Nat
  rxQueue : State → List Bytes
  txQueue : State → List Bytes
  /-- Whether `try_rx_buf` finds a free slot; a slot is `mtu` bytes. -/
  tryRxBuf : State → Bool
  /-- `rx_done(len)` on a slot that now holds `buffer`. -/
  rxDone (buffer : Bytes) (len : Nat) : State → State
  tryTxBuf : State → Option Bytes
  txDone : State → State
  setLinkState : LinkState → State → State
  receive : State → Option (Bytes × State)
  transmit (frame : Bytes) : State → Option State
  rxQueue_new : rxQueue new = []
  txQueue_new : txQueue new = []
  tryRxBuf_iff : ∀ q, tryRxBuf q = true ↔ (rxQueue q).length < depthRx
  rxQueue_rxDone : ∀ buffer len q, tryRxBuf q = true →
    rxQueue (rxDone buffer len q) = rxQueue q ++ [buffer.take len]
  txQueue_rxDone : ∀ buffer len q, txQueue (rxDone buffer len q) = txQueue q
  tryTxBuf_eq : ∀ q, tryTxBuf q = (txQueue q).head?
  rxQueue_txDone : ∀ q, rxQueue (txDone q) = rxQueue q
  txQueue_txDone : ∀ q, txQueue (txDone q) = (txQueue q).tail
  rxQueue_setLinkState : ∀ l q, rxQueue (setLinkState l q) = rxQueue q
  txQueue_setLinkState : ∀ l q, txQueue (setLinkState l q) = txQueue q
  receive_some : ∀ q f q', receive q = some (f, q') →
    rxQueue q = f :: rxQueue q' ∧ txQueue q' = txQueue q ∧ (txQueue q).length < depthTx
  transmit_some : ∀ f q q', transmit f q = some q' →
    txQueue q' = txQueue q ++ [f] ∧ rxQueue q' = rxQueue q ∧ (txQueue q).length < depthTx

attribute [simp] Channel.rxQueue_new Channel.txQueue_new Channel.txQueue_rxDone
  Channel.rxQueue_txDone Channel.txQueue_txDone Channel.rxQueue_setLinkState
  Channel.txQueue_setLinkState

namespace Channel

theorem txQueue_of_tryTxBuf (Q : Channel) {q : Q.State} {f : Bytes}
    (h : Q.tryTxBuf q = some f) : Q.txQueue q = f :: (Q.txQueue q).tail := by
  rw [Q.tryTxBuf_eq] at h
  exact (List.cons_head?_tail h).symm

theorem txQueue_of_tryTxBuf_none (Q : Channel) {q : Q.State} (h : Q.tryTxBuf q = none) :
    Q.txQueue q = [] := by
  rw [Q.tryTxBuf_eq] at h
  exact List.head?_eq_none_iff.mp h

end Channel

/-- A slot each way, and the stack is given a frame that waits as soon as it has a slot to
answer it in. -/
structure Serving (Q : Channel) : Prop where
  depthRx : 0 < Q.depthRx
  depthTx : 0 < Q.depthTx
  receive : ∀ q, Q.rxQueue q ≠ [] → (Q.txQueue q).length < Q.depthTx → Q.receive q ≠ none

/-! ### One queue pair that keeps these promises -/

structure Fifo where
  rx : List Bytes
  tx : List Bytes
  link : LinkState

def fifoReceive (depthTx : Nat) (q : Fifo) : Option (Bytes × Fifo) :=
  match q.rx with
  | [] => none
  | f :: rest => if q.tx.length < depthTx then some (f, { q with rx := rest }) else none

def fifoTransmit (depthTx : Nat) (frame : Bytes) (q : Fifo) : Option Fifo :=
  if q.tx.length < depthTx then some { q with tx := q.tx ++ [frame] } else none

theorem fifoReceive_some {depthTx : Nat} {q q' : Fifo} {f : Bytes}
    (h : fifoReceive depthTx q = some (f, q')) :
    q.rx = f :: q'.rx ∧ q'.tx = q.tx ∧ q.tx.length < depthTx := by
  unfold fifoReceive at h
  split at h
  · cases h
  · next g rest hrx =>
    split at h
    · next hfree =>
      obtain ⟨rfl, rfl⟩ := Prod.mk.inj (Option.some.inj h)
      exact ⟨hrx, rfl, hfree⟩
    · cases h

theorem fifoTransmit_some {depthTx : Nat} {frame : Bytes} {q q' : Fifo}
    (h : fifoTransmit depthTx frame q = some q') :
    q'.tx = q.tx ++ [frame] ∧ q'.rx = q.rx ∧ q.tx.length < depthTx := by
  unfold fifoTransmit at h
  split at h
  · next hfree =>
    cases Option.some.inj h
    exact ⟨rfl, rfl, hfree⟩
  · cases h

def fifoChannel (mtu depthRx depthTx : Nat) : Channel where
  State := Fifo
  new := ⟨[], [], .down⟩
  mtu := mtu
  depthRx := depthRx
  depthTx := depthTx
  rxQueue q := q.rx
  txQueue q := q.tx
  tryRxBuf q := q.rx.length < depthRx
  rxDone buffer len q := { q with rx := q.rx ++ [buffer.take len] }
  tryTxBuf q := q.tx.head?
  txDone q := { q with tx := q.tx.tail }
  setLinkState l q := { q with link := l }
  receive := fifoReceive depthTx
  transmit := fifoTransmit depthTx
  rxQueue_new := rfl
  txQueue_new := rfl
  tryRxBuf_iff _ := decide_eq_true_iff
  rxQueue_rxDone _ _ _ _ := rfl
  txQueue_rxDone _ _ _ := rfl
  tryTxBuf_eq _ := rfl
  rxQueue_txDone _ := rfl
  txQueue_txDone _ := rfl
  rxQueue_setLinkState _ _ := rfl
  txQueue_setLinkState _ _ := rfl
  receive_some _ _ _ h := fifoReceive_some h
  transmit_some _ _ _ h := fifoTransmit_some h

theorem fifoChannel_serving {mtu depthRx depthTx : Nat} (hrx : 0 < depthRx) (htx : 0 < depthTx) :
    Serving (fifoChannel mtu depthRx depthTx) where
  depthRx := hrx
  depthTx := htx
  receive q hq hroom := by
    obtain ⟨frame, rest, hcons⟩ := List.exists_cons_of_ne_nil hq
    have hwaiting : q.rx = frame :: rest := hcons
    have hfree : q.tx.length < depthTx := hroom
    simp [fifoChannel, fifoReceive, hwaiting, hfree]

end RpiHalEmbassy.Net
