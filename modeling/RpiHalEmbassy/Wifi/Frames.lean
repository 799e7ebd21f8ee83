import RpiHalEmbassy.Wifi.State

/-!
# Moving frames: `receive` and `transmit`
-/

namespace RpiHalEmbassy.Wifi
open Net

variable {H : Hal} {Q : Channel}

def Runner.deliver (s : Runner H Q) (buffer : Bytes) (len : Nat) : Runner H Q :=
  { s with
    statics.rxFrames := s.statics.rxFrames + 1
    queues := Q.rxDone buffer len s.queues }

def Runner.receiveFailed (s : Runner H Q) (error : Error H) : Runner H Q :=
  { s with
    statics.rxErrors := s.statics.rxErrors + 1
    statics.rxLastError := some error }

def Runner.sent (s : Runner H Q) : Runner H Q :=
  { s with
    statics.txFrames := s.statics.txFrames + 1
    queues := Q.txDone s.queues }

def Runner.sendBusy (s : Runner H Q) : Runner H Q :=
  { s with statics.txBusyPasses := s.statics.txBusyPasses + 1 }

def Runner.sendFailed (s : Runner H Q) (error : Error H) : Runner H Q :=
  { s with
    statics.txFailures := s.statics.txFailures + 1
    statics.txLastError := some error
    queues := Q.txDone s.queues }

/-- The receive loop with `n` of its `rxBurst` turns left. -/
def receiveLoop (a : Answers H) : Nat → Bool → Runner H Q → Bool × Runner H Q
  | 0, received, s => (received, s)
  | n + 1, received, s =>
    if Q.tryRxBuf s.queues then
      let r := a.recvEthernet (rxBurst - (n + 1))
      let s := s.call (.recvEthernet r.answer r.buffer)
      match r.answer with
      | .ok none => (received, s)
      | .ok (some len) => receiveLoop a n true (s.deliver r.buffer len)
      | .error error => (true, s.receiveFailed error)
    else (received, s)

def receive (a : Answers H) (s : Runner H Q) : Bool × Runner H Q := receiveLoop a rxBurst false s

def transmit (a : Answers H) (s : Runner H Q) : Bool × Runner H Q :=
  match Q.tryTxBuf s.queues with
  | none => (false, s)
  | some frame =>
    let s := s.call (.sendEthernet frame a.sendEthernet)
    match a.sendEthernet with
    | .ok () => (true, s.sent)
    | .error .txBusy => (true, s.sendBusy)
    | .error error => (true, s.sendFailed error)

/-- The loop rule of `receive`: what each of its three answers keeps, it keeps. -/
theorem receiveLoop_keeps {a : Answers H} {P : Bool → Runner H Q → Prop}
    (idle : ∀ received s buffer, P received s → Q.tryRxBuf s.queues = true →
      P received (s.call (.recvEthernet (.ok none) buffer)))
    (deliver : ∀ received s buffer len, P received s → Q.tryRxBuf s.queues = true →
      P true ((s.call (.recvEthernet (.ok (some len)) buffer)).deliver buffer len))
    (failed : ∀ received s buffer error, P received s → Q.tryRxBuf s.queues = true →
      P true ((s.call (.recvEthernet (.error error) buffer)).receiveFailed error))
    (n : Nat) (received : Bool) (s : Runner H Q) (start : P received s) :
    P (receiveLoop a n received s).1 (receiveLoop a n received s).2 := by
  induction n generalizing received s with
  | zero => exact start
  | succ n ih =>
    simp only [receiveLoop]
    split
    · next hfree =>
      obtain ⟨answer, buffer⟩ := a.recvEthernet (rxBurst - (n + 1))
      match answer with
      | .ok none => exact idle received s buffer start hfree
      | .ok (some len) => exact ih true _ (deliver received s buffer len start hfree)
      | .error error => exact failed received s buffer error start hfree
    · exact start

theorem receive_keeps {a : Answers H} {P : Bool → Runner H Q → Prop} {s : Runner H Q}
    (start : P false s)
    (idle : ∀ received s buffer, P received s → Q.tryRxBuf s.queues = true →
      P received (s.call (.recvEthernet (.ok none) buffer)))
    (deliver : ∀ received s buffer len, P received s → Q.tryRxBuf s.queues = true →
      P true ((s.call (.recvEthernet (.ok (some len)) buffer)).deliver buffer len))
    (failed : ∀ received s buffer error, P received s → Q.tryRxBuf s.queues = true →
      P true ((s.call (.recvEthernet (.error error) buffer)).receiveFailed error)) :
    P (receive a s).1 (receive a s).2 :=
  receiveLoop_keeps idle deliver failed rxBurst false s start

theorem receiveLoop_calls (a : Answers H) (n : Nat) (received : Bool) (s : Runner H Q) :
    s.calls <+: (receiveLoop a n received s).2.calls :=
  receiveLoop_keeps (P := fun _ t => s.calls <+: t.calls)
    (fun _ _ _ h _ => h.trans (List.prefix_append _ _))
    (fun _ _ _ _ h _ => h.trans (List.prefix_append _ _))
    (fun _ _ _ _ h _ => h.trans (List.prefix_append _ _)) n received s List.prefix_rfl

theorem receive_full (a : Answers H) {s : Runner H Q} (h : Q.tryRxBuf s.queues = false) :
    receive a s = (false, s) := by
  unfold receive rxBurst receiveLoop
  rw [if_neg (Bool.eq_false_iff.mp h)]

theorem receive_first (a : Answers H) {s : Runner H Q} (h : Q.tryRxBuf s.queues = true) :
    .recvEthernet (a.recvEthernet 0).answer (a.recvEthernet 0).buffer ∈ (receive a s).2.calls := by
  unfold receive rxBurst receiveLoop
  rw [if_pos h]
  have hfirst : Call.recvEthernet (a.recvEthernet 0).answer (a.recvEthernet 0).buffer ∈
      s.calls ++ [.recvEthernet (a.recvEthernet 0).answer (a.recvEthernet 0).buffer] :=
    List.mem_append_right _ (List.mem_singleton_self _)
  dsimp only
  split
  · exact hfirst
  · exact (receiveLoop_calls a 7 true _).subset hfirst
  · exact hfirst

theorem receive_error (a : Answers H) {s : Runner H Q} {error : Error H}
    (h : Q.tryRxBuf s.queues = true) (ha : (a.recvEthernet 0).answer = .error error) :
    (receive a s).1 = true := by
  unfold receive rxBurst receiveLoop
  rw [if_pos h]
  dsimp only
  rw [show rxBurst - 8 = 0 from rfl, ha]

theorem receiveLoop_true (a : Answers H) (n : Nat) (s : Runner H Q) :
    (receiveLoop a n true s).1 = true :=
  receiveLoop_keeps (P := fun received _ => received = true) (fun _ _ _ h _ => h)
    (fun _ _ _ _ _ _ => rfl) (fun _ _ _ _ _ _ => rfl) n true s rfl

theorem receive_false_iff (a : Answers H) (s : Runner H Q) :
    (receive a s).1 = false ↔
      Q.tryRxBuf s.queues = false ∨ (a.recvEthernet 0).answer = .ok none := by
  cases hfree : Q.tryRxBuf s.queues with
  | false => exact iff_of_true (congrArg Prod.fst (receive_full a hfree)) (Or.inl rfl)
  | true =>
    unfold receive rxBurst receiveLoop
    rw [if_pos hfree]
    dsimp only
    split
    · next ha => exact iff_of_true rfl (Or.inr ha)
    · next len ha =>
      refine iff_of_false (fun h => ?_) (fun h => ?_)
      · rw [receiveLoop_true a 7] at h
        cases h
      · rcases h with h | h
        · cases h
        · cases ha.symm.trans h
    · next error ha =>
      refine iff_of_false (fun h => by cases h) (fun h => ?_)
      rcases h with h | h
      · cases h
      · cases ha.symm.trans h

theorem receive_txQueue (a : Answers H) (s : Runner H Q) :
    Q.txQueue (receive a s).2.queues = Q.txQueue s.queues :=
  receive_keeps (P := fun _ t => Q.txQueue t.queues = Q.txQueue s.queues) rfl
    (fun _ _ _ h _ => h) (fun _ _ _ _ h _ => (Q.txQueue_rxDone _ _ _).trans h)
    (fun _ _ _ _ h _ => h)

inductive TransmitStep (a : Answers H) (s : Runner H Q) : Bool × Runner H Q → Prop
  | nothing (h : Q.tryTxBuf s.queues = none) : TransmitStep a s (false, s)
  | sent (frame : Bytes) (h : Q.tryTxBuf s.queues = some frame) (ha : a.sendEthernet = .ok ()) :
      TransmitStep a s (true, (s.call (.sendEthernet frame (.ok ()))).sent)
  | busy (frame : Bytes) (h : Q.tryTxBuf s.queues = some frame)
      (ha : a.sendEthernet = .error .txBusy) :
      TransmitStep a s (true, (s.call (.sendEthernet frame (.error .txBusy))).sendBusy)
  | failed (frame : Bytes) (fault : H.Fault) (h : Q.tryTxBuf s.queues = some frame)
      (ha : a.sendEthernet = .error (.other fault)) :
      TransmitStep a s
        (true, (s.call (.sendEthernet frame (.error (.other fault)))).sendFailed (.other fault))

theorem transmit_step (a : Answers H) (s : Runner H Q) :
    TransmitStep a s (transmit a s) := by
  unfold transmit
  split
  · next h => exact .nothing h
  · next frame h =>
    dsimp only
    match ha : a.sendEthernet with
    | .ok () => exact .sent frame h ha
    | .error .txBusy => exact .busy frame h ha
    | .error (.other fault) => exact .failed frame fault h ha

theorem transmit_false_iff (a : Answers H) (s : Runner H Q) :
    (transmit a s).1 = false ↔ Q.txQueue s.queues = [] := by
  have h := transmit_step a s
  generalize transmit a s = r at h ⊢
  cases h with
  | nothing h => exact iff_of_true rfl (Q.txQueue_of_tryTxBuf_none h)
  | sent frame h | busy frame h | failed frame _ h =>
    refine iff_of_false (fun h => by cases h) fun hnil => ?_
    have := Q.txQueue_of_tryTxBuf h
    rw [hnil] at this
    cases this

end RpiHalEmbassy.Wifi
