import RpiHalEmbassy.Wifi.Association

/-!
# No frame lost, repeated, reordered or made up

Outbound, what the stack queued is what the chip has answered for good followed
by the transmit queue; inbound, what the stack took and what waits for it is
what the chip delivered. Only `receive` and `transmit` move either.
-/

namespace RpiHalEmbassy.Wifi
open Machines Net Logs

variable {H : Hal} {Q : Channel}

def Call.received? : Call H → Option (Received H)
  | .recvEthernet answer buffer => some ⟨answer, buffer⟩
  | _ => none

def Call.sent? : Call H → Option (Bytes × Result H Unit)
  | .sendEthernet frame answer => some (frame, answer)
  | _ => none

abbrev receptions (calls : List (Call H)) : List (Received H) := calls.filterMap Call.received?
abbrev sends (calls : List (Call H)) : List (Bytes × Result H Unit) := calls.filterMap Call.sent?

def Received.frame? (r : Received H) : Option Bytes :=
  match r.answer with
  | .ok (some len) => some (r.buffer.take len)
  | _ => none

def Received.failed (r : Received H) : Bool :=
  match r.answer with
  | .error _ => true
  | .ok _ => false

def committed (rs : List (Received H)) : List Bytes := rs.filterMap Received.frame?

def accepted : Bytes × Result H Unit → Bool
  | (_, .ok ()) => true
  | _ => false

def busy : Bytes × Result H Unit → Bool
  | (_, .error .txBusy) => true
  | _ => false

def refused : Bytes × Result H Unit → Bool
  | (_, .error (.other _)) => true
  | _ => false

/-- The frames answered for good, each at the answer that released it. -/
def released (attempts : List (Bytes × Result H Unit)) : List Bytes :=
  (attempts.filter fun attempt => !busy attempt).map Prod.fst

@[simp] theorem committed_append (k l : List (Received H)) :
    committed (k ++ l) = committed k ++ committed l := List.filterMap_append
@[simp] theorem released_append (k l : List (Bytes × Result H Unit)) :
    released (k ++ l) = released k ++ released l := by
  simp [released]

structure SameFrames (s t : Runner H Q) : Prop where
  rx : Q.rxQueue t.queues = Q.rxQueue s.queues
  tx : Q.txQueue t.queues = Q.txQueue s.queues
  rxFrames : t.statics.rxFrames = s.statics.rxFrames
  rxErrors : t.statics.rxErrors = s.statics.rxErrors
  txFrames : t.statics.txFrames = s.statics.txFrames
  txBusyPasses : t.statics.txBusyPasses = s.statics.txBusyPasses
  txFailures : t.statics.txFailures = s.statics.txFailures

theorem SameFrames.trans {s t u : Runner H Q} (h : SameFrames s t) (k : SameFrames t u) :
    SameFrames s u :=
  ⟨k.rx.trans h.rx, k.tx.trans h.tx, k.rxFrames.trans h.rxFrames, k.rxErrors.trans h.rxErrors,
    k.txFrames.trans h.txFrames, k.txBusyPasses.trans h.txBusyPasses,
    k.txFailures.trans h.txFailures⟩

theorem noteTraffic_frames (c : Clock) (received sent : Bool) (s : Runner H Q) :
    SameFrames s (noteTraffic c received sent s) := by
  cases received <;> constructor <;> simp [noteTraffic]

theorem sampleLink_frames (a : Answers H) (c : Clock) (s : Runner H Q) :
    SameFrames s (sampleLink a c s) := by
  have h := sampleLink_step a c s
  generalize sampleLink a c s = t at h ⊢
  cases h <;> constructor <;> simp

theorem join_frames (a : Answers H) (c : Clock) (s : Runner H Q) : SameFrames s (join a c s) := by
  have h := join_step a c s
  generalize join a c s = t at h ⊢
  cases h <;> constructor <;> simp

theorem watchPass_frames (a : Answers H) (c : Clock) (s : Runner H Q) :
    SameFrames s (watchPass a c s) := by
  have h := watchPass_step a c s
  generalize watchPass a c s = t at h ⊢
  cases h with
  | lost =>
    have hlose : SameFrames s (lose (probedUp a c s)) := by
      constructor <;> simp [lose, probedUp]
    exact hlose.trans (join_frames a c _)
  | asked =>
    have hprobed : SameFrames s (probed a c s) := by constructor <;> simp [probed]
    exact hprobed.trans (join_frames a c _)
  | landed =>
    unfold associate restore
    cases (probed a c s).watch.reconnect <;> constructor <;> simp [probed]
  | _ => constructor <;> simp [probedUp, polled, probed]

theorem sampleCounters_frames (a : Answers H) (s : Runner H Q) :
    SameFrames s (sampleCounters a s) := by
  have h := sampleCounters_step a s
  generalize sampleCounters a s = t at h ⊢
  cases h <;> constructor <;> simp

theorem cut_frames (s : Runner H Q) : SameFrames s s.cut := by
  constructor <;> rfl

theorem pass_frames (a : Answers H) (c : Clock) (s : Runner H Q) :
    SameFrames (emitted a s).2 (pass a c s).1 := by
  have hmoved : SameFrames (emitted a s).2 (moved a c s) :=
    (cut_frames _).trans (noteTraffic_frames c _ _ _)
  have hsampled : SameFrames (moved a c s) (sampled a c s) :=
    (cut_frames _).trans (sampleLink_frames a c _)
  have hwatched : SameFrames (sampled a c s) (watched a c s) :=
    (cut_frames _).trans (watchPass_frames a c _)
  have hcounted : SameFrames (watched a c s) (pass a c s).1 := by
    rw [pass_eq]
    exact (cut_frames _).trans (sampleCounters_frames a _)
  exact ((hmoved.trans hsampled).trans hwatched).trans hcounted

/-! ### The frame halves -/

structure Inbound (s t : Runner H Q) : Prop where
  rx : Q.rxQueue t.queues = Q.rxQueue s.queues ++ committed (receptions t.calls)
  tx : Q.txQueue t.queues = Q.txQueue s.queues
  rxFrames : t.statics.rxFrames =
    s.statics.rxFrames + UInt32.ofNat (committed (receptions t.calls)).length
  rxErrors : t.statics.rxErrors =
    s.statics.rxErrors + UInt32.ofNat ((receptions t.calls).countP Received.failed)
  txFrames : t.statics.txFrames = s.statics.txFrames
  txBusyPasses : t.statics.txBusyPasses = s.statics.txBusyPasses
  txFailures : t.statics.txFailures = s.statics.txFailures

theorem receive_inbound (a : Answers H) (s : Runner H Q) :
    Inbound s (receive a s.cut).2 := by
  refine receive_keeps (P := fun _ t => Inbound s t) ?_ ?_ ?_ ?_
  · exact ⟨(List.append_nil _).symm, rfl, (UInt32.add_zero _).symm, (UInt32.add_zero _).symm,
      rfl, rfl, rfl⟩
  · intro _ t buffer ht _
    have hcalls : receptions (t.call (.recvEthernet (.ok none) buffer)).calls =
        receptions t.calls ++ [⟨.ok none, buffer⟩] := List.filterMap_append
    refine ⟨?_, ht.tx, ?_, ?_, ht.txFrames, ht.txBusyPasses, ht.txFailures⟩
    · rw [hcalls, committed_append]
      exact ht.rx.trans (congrArg _ (List.append_nil _).symm)
    · rw [hcalls, committed_append]
      exact ht.rxFrames.trans (congrArg (fun l : List Bytes => _ + UInt32.ofNat l.length)
        (List.append_nil _).symm)
    · rw [hcalls, List.countP_append]
      exact ht.rxErrors
  · intro _ t buffer len ht hfree
    have hcalls : receptions ((t.call (.recvEthernet (.ok (some len)) buffer)).deliver
        buffer len).calls = receptions t.calls ++ [⟨.ok (some len), buffer⟩] :=
      List.filterMap_append
    refine ⟨?_, ?_, ?_, ?_, ht.txFrames, ht.txBusyPasses, ht.txFailures⟩
    · rw [hcalls, committed_append, ← List.append_assoc, ← ht.rx]
      exact Q.rxQueue_rxDone buffer len t.queues hfree
    · exact (Q.txQueue_rxDone buffer len t.queues).trans ht.tx
    · rw [hcalls, committed_append, List.length_append]
      exact count_succ ht.rxFrames
    · rw [hcalls, List.countP_append]
      exact ht.rxErrors
  · intro _ t buffer error ht _
    have hcalls : receptions ((t.call (.recvEthernet (.error error) buffer)).receiveFailed
        error).calls = receptions t.calls ++ [⟨.error error, buffer⟩] := List.filterMap_append
    refine ⟨?_, ht.tx, ?_, ?_, ht.txFrames, ht.txBusyPasses, ht.txFailures⟩
    · rw [hcalls, committed_append]
      exact ht.rx.trans (congrArg _ (List.append_nil _).symm)
    · rw [hcalls, committed_append]
      exact ht.rxFrames.trans (congrArg (fun l : List Bytes => _ + UInt32.ofNat l.length)
        (List.append_nil _).symm)
    · rw [hcalls, List.countP_append]
      exact count_succ ht.rxErrors

structure Outbound (s t : Runner H Q) : Prop where
  rx : Q.rxQueue t.queues = Q.rxQueue s.queues
  tx : Q.txQueue s.queues = released (sends t.calls) ++ Q.txQueue t.queues
  head : ∀ pre f answer post, sends t.calls = pre ++ (f, answer) :: post →
    pre = [] ∧ (Q.txQueue s.queues).head? = some f
  rxFrames : t.statics.rxFrames = s.statics.rxFrames
  rxErrors : t.statics.rxErrors = s.statics.rxErrors
  txFrames : t.statics.txFrames =
    s.statics.txFrames + UInt32.ofNat ((sends t.calls).countP accepted)
  txBusyPasses : t.statics.txBusyPasses =
    s.statics.txBusyPasses + UInt32.ofNat ((sends t.calls).countP busy)
  txFailures : t.statics.txFailures =
    s.statics.txFailures + UInt32.ofNat ((sends t.calls).countP refused)

theorem transmit_outbound (a : Answers H) (s : Runner H Q) :
    Outbound s (transmit a s.cut).2 := by
  have h := transmit_step a s.cut
  generalize transmit a s.cut = r at h ⊢
  have hone : ∀ {g f : Bytes} {b answer : Result H Unit} {pre post},
      Q.tryTxBuf s.queues = some g → [(g, b)] = pre ++ (f, answer) :: post →
      pre = [] ∧ (Q.txQueue s.queues).head? = some f := by
    intro g f b answer pre post hg heq
    rcases snoc_eq_append_cons (l := []) heq with ⟨rfl, hf⟩ | ⟨post', hnil⟩
    · rw [← Q.tryTxBuf_eq, hg, (Prod.mk.inj hf).1]
      exact ⟨rfl, rfl⟩
    · simp at hnil
  cases h with
  | nothing h =>
    refine ⟨rfl, rfl, fun pre f answer post hnil => ?_, rfl, rfl, (UInt32.add_zero _).symm,
      (UInt32.add_zero _).symm, (UInt32.add_zero _).symm⟩
    simp [sends] at hnil
  | sent frame h ha =>
    refine ⟨Q.rxQueue_txDone _, ?_, fun _ _ _ _ heq => hone h heq, rfl, rfl, rfl,
      (UInt32.add_zero _).symm, (UInt32.add_zero _).symm⟩
    exact (Q.txQueue_of_tryTxBuf h).trans (congrArg (frame :: ·) (Q.txQueue_txDone _).symm)
  | busy frame h ha =>
    exact ⟨rfl, rfl, fun _ _ _ _ heq => hone h heq, rfl, rfl, (UInt32.add_zero _).symm, rfl,
      (UInt32.add_zero _).symm⟩
  | failed frame fault h ha =>
    refine ⟨Q.rxQueue_txDone _, ?_, fun _ _ _ _ heq => hone h heq, rfl, rfl,
      (UInt32.add_zero _).symm, (UInt32.add_zero _).symm, rfl⟩
    exact (Q.txQueue_of_tryTxBuf h).trans (congrArg (frame :: ·) (Q.txQueue_txDone _).symm)

/-! ### Over a run -/

structure Delivered (w : World H Q) : Prop where
  tx : w.queued = released (sends w.calls) ++ Q.txQueue w.runner.queues
  attempts : ∀ pre f answer post, sends w.calls = pre ++ (f, answer) :: post →
    w.queued[(released pre).length]? = some f
  txFrames : w.runner.statics.txFrames = UInt32.ofNat ((sends w.calls).countP accepted)
  txBusyPasses : w.runner.statics.txBusyPasses = UInt32.ofNat ((sends w.calls).countP busy)
  txFailures : w.runner.statics.txFailures = UInt32.ofNat ((sends w.calls).countP refused)
  rx : w.taken ++ Q.rxQueue w.runner.queues = committed (receptions w.calls)
  rxFrames : w.runner.statics.rxFrames = UInt32.ofNat (committed (receptions w.calls)).length
  rxErrors : w.runner.statics.rxErrors =
    UInt32.ofNat ((receptions w.calls).countP Received.failed)

theorem start_delivered (reconnect : Option (Reconnect H)) (o : Opening) :
    Delivered (start Q reconnect o) where
  tx := ((Q.txQueue_setLinkState .up Q.new).trans Q.txQueue_new).symm
  attempts pre f answer post h := by
    rw [show sends (start Q reconnect o).calls = [] from rfl] at h
    simp at h
  txFrames := rfl
  txBusyPasses := rfl
  txFailures := rfl
  rx := (Q.rxQueue_setLinkState .up Q.new).trans Q.rxQueue_new
  rxFrames := rfl
  rxErrors := rfl

theorem pass_receptions (a : Answers H) (c : Clock) (s : Runner H Q) :
    receptions (pass a c s).2.calls = receptions (drained a s).2.calls :=
  (pass_parted a c s).filterMap (k := .receive) (by decide) fun call h => by
    cases call <;> first | rfl | exact absurd rfl h

theorem pass_sends (a : Answers H) (c : Clock) (s : Runner H Q) :
    sends (pass a c s).2.calls = sends (emitted a s).2.calls :=
  (pass_parted a c s).filterMap (k := .transmit) (by decide) fun call h => by
    cases call <;> first | rfl | exact absurd rfl h

theorem pass_delivered {w : World H Q} (hw : Delivered w) (a : Answers H) (c : Clock) :
    Delivered (step w (.pass a c)) := by
  have hin : Inbound w.runner (drained a w.runner).2 := by
    have h := receive_inbound a w.runner.countPass
    exact ⟨h.rx, h.tx, h.rxFrames, h.rxErrors, h.txFrames, h.txBusyPasses, h.txFailures⟩
  have hout : Outbound (drained a w.runner).2 (emitted a w.runner).2 := transmit_outbound a _
  have hout' := hout.head
  have hrest := pass_frames a c w.runner
  have hsends : sends (step w (.pass a c)).calls =
      sends w.calls ++ sends (emitted a w.runner).2.calls := by
    rw [calls_pass, ← pass_sends]
    exact List.filterMap_append
  have hreceptions : receptions (step w (.pass a c)).calls =
      receptions w.calls ++ receptions (drained a w.runner).2.calls := by
    rw [calls_pass, ← pass_receptions]
    exact List.filterMap_append
  have htxQueue : Q.txQueue w.runner.queues = released (sends (emitted a w.runner).2.calls) ++
      Q.txQueue (step w (.pass a c)).runner.queues := by
    rw [← hin.tx, show Q.txQueue (step w (.pass a c)).runner.queues = _ from hrest.tx]
    exact hout.tx
  constructor
  · rw [hsends, released_append, List.append_assoc, ← htxQueue]
    exact hw.tx
  · intro pre f answer post h
    rw [hsends] at h
    -- The head of the transmit queue is the frame behind those released so far.
    have hhead : ∀ g, (Q.txQueue w.runner.queues).head? = some g →
        w.queued[(released (sends w.calls)).length]? = some g := fun g hg => by
      rw [hw.tx, List.getElem?_append_right le_rfl, Nat.sub_self, ← List.head?_eq_getElem?]
      exact hg
    rw [hin.tx] at hout'
    rcases List.append_eq_append_iff.mp h with ⟨as, rfl, hlast⟩ | ⟨bs, hbefore, hlast⟩
    · obtain ⟨rfl, hf⟩ := hout' _ _ _ _ hlast
      rw [List.append_nil]
      exact hhead f hf
    · cases bs with
      | nil =>
        rw [List.append_nil] at hbefore
        exact hbefore ▸ hhead f (hout' [] _ _ _ hlast.symm).2
      | cons b bs =>
        obtain ⟨rfl, _⟩ := List.cons.inj hlast
        exact hw.attempts pre f answer bs hbefore
  · rw [hsends, List.countP_append, UInt32.ofNat_add, ← hw.txFrames, ← hin.txFrames]
    exact hrest.txFrames.trans hout.txFrames
  · rw [hsends, List.countP_append, UInt32.ofNat_add, ← hw.txBusyPasses, ← hin.txBusyPasses]
    exact hrest.txBusyPasses.trans hout.txBusyPasses
  · rw [hsends, List.countP_append, UInt32.ofNat_add, ← hw.txFailures, ← hin.txFailures]
    exact hrest.txFailures.trans hout.txFailures
  · rw [hreceptions, committed_append, ← hw.rx, List.append_assoc, ← hin.rx, ← hout.rx]
    exact congrArg _ hrest.rx
  · rw [hreceptions, committed_append, List.length_append, UInt32.ofNat_add, ← hw.rxFrames]
    exact (hrest.rxFrames.trans hout.rxFrames).trans hin.rxFrames
  · rw [hreceptions, List.countP_append, UInt32.ofNat_add, ← hw.rxErrors]
    exact (hrest.rxErrors.trans hout.rxErrors).trans hin.rxErrors

theorem stackReceive_delivered {w : World H Q} (hw : Delivered w) {f : Bytes} {q : Q.State}
    (h : Q.receive w.runner.queues = some (f, q)) :
    Delivered { w with runner.queues := q, taken := w.taken ++ [f] } := by
  obtain ⟨hrx, htx, _⟩ := Q.receive_some _ _ _ h
  refine ⟨?_, hw.attempts, hw.txFrames, hw.txBusyPasses, hw.txFailures, ?_, hw.rxFrames,
    hw.rxErrors⟩
  · exact hw.tx.trans (congrArg _ htx.symm)
  · rw [List.append_assoc, List.singleton_append, ← hrx]
    exact hw.rx

theorem stackTransmit_delivered {w : World H Q} (hw : Delivered w) {f : Bytes} {q : Q.State}
    (h : Q.transmit f w.runner.queues = some q) :
    Delivered { w with runner.queues := q, queued := w.queued ++ [f] } := by
  obtain ⟨htx, hrx, _⟩ := Q.transmit_some _ _ _ h
  refine ⟨?_, fun pre g answer post heq => ?_, hw.txFrames, hw.txBusyPasses, hw.txFailures, ?_,
    hw.rxFrames, hw.rxErrors⟩
  · rw [show Q.txQueue ({ w with runner.queues := q, queued := w.queued ++ [f] } :
      World H Q).runner.queues = _ from htx, ← List.append_assoc]
    exact congrArg (· ++ [f]) hw.tx
  · obtain ⟨hlt, hg⟩ := List.getElem?_eq_some_iff.mp (hw.attempts pre g answer post heq)
    rw [List.getElem?_append_left hlt, List.getElem?_eq_getElem hlt, hg]
  · exact (congrArg _ hrx).trans hw.rx

theorem step_delivered {w : World H Q} (hw : Delivered w) (e : Event H) :
    Delivered (step w e) := by
  cases e with
  | stackReceive =>
    simp only [step]
    split
    · exact hw
    · next h => exact stackReceive_delivered hw h
  | stackTransmit f =>
    simp only [step]
    split
    · exact hw
    · next h => exact stackTransmit_delivered hw h
  | requestCounters =>
    exact ⟨hw.tx, hw.attempts, hw.txFrames, hw.txBusyPasses, hw.txFailures, hw.rx, hw.rxFrames,
      hw.rxErrors⟩
  | pass a c => exact pass_delivered hw a c

theorem released_length (attempts : List (Bytes × Result H Unit)) :
    (released attempts).length = attempts.countP accepted + attempts.countP refused := by
  induction attempts with
  | nil => rfl
  | cons attempt attempts ih =>
    obtain ⟨f, (_ | _) | _⟩ := attempt <;>
      simp [released, List.countP_cons, accepted, busy, refused] at ih ⊢ <;> omega

theorem frameNo_lt_of_final {pre mid : List (Bytes × Result H Unit)} {f : Bytes}
    {answer : Result H Unit} (h : busy (f, answer) = false) :
    (released pre).length < (released (pre ++ (f, answer) :: mid)).length := by
  simp [released, h]

theorem exists_final (attempts : List (Bytes × Result H Unit)) (k : Nat) (f : Bytes)
    (h : (released attempts)[k]? = some f) :
    ∃ pre answer post, attempts = pre ++ (f, answer) :: post ∧ busy (f, answer) = false ∧
      (released pre).length = k := by
  induction attempts generalizing k with
  | nil => simp [released] at h
  | cons attempt attempts ih =>
    cases hbusy : busy attempt with
    | true =>
      have hskip : released (attempt :: attempts) = released attempts := by simp [released, hbusy]
      obtain ⟨pre, answer, post, rfl, hfinal, hk⟩ := ih k (hskip ▸ h)
      exact ⟨attempt :: pre, answer, post, rfl, hfinal, by simp [released, hbusy] at hk ⊢; exact hk⟩
    | false =>
      have hhead : released (attempt :: attempts) = attempt.1 :: released attempts := by
        simp [released, hbusy]
      rw [hhead] at h
      cases k with
      | zero =>
        obtain rfl := Option.some.inj h
        exact ⟨[], attempt.2, attempts, rfl, hbusy, rfl⟩
      | succ k =>
        obtain ⟨pre, answer, post, rfl, hfinal, hk⟩ := ih k h
        refine ⟨attempt :: pre, answer, post, rfl, hfinal, ?_⟩
        simp [released, hbusy] at hk ⊢
        exact hk

/-- Outbound, the attempt behind `pre` is on the frame numbered by the final answers
in `pre`, so each frame is held through its `TxBusy` answers and released by its first
other one; inbound, the frames the chip delivered come out as they went in. -/
theorem frames_delivered (reconnect : Option (Reconnect H)) (o : Opening) (es : List (Event H))
    (w : World H Q) (h : (wifi H Q).Run (start Q reconnect o) es w) :
    (w.queued = released (sends w.calls) ++ Q.txQueue w.runner.queues ∧
      (∀ pre f answer post, sends w.calls = pre ++ (f, answer) :: post →
        w.queued[(released pre).length]? = some f ∧
        (busy (f, answer) = false → ∀ mid g b post', post = mid ++ (g, b) :: post' →
          (released pre).length < (released (pre ++ (f, answer) :: mid)).length)) ∧
      (∀ k f, (released (sends w.calls))[k]? = some f → ∃ pre answer post,
        sends w.calls = pre ++ (f, answer) :: post ∧ busy (f, answer) = false ∧
          (released pre).length = k) ∧
      w.runner.statics.txFrames + w.runner.statics.txFailures =
        UInt32.ofNat (released (sends w.calls)).length ∧
      w.runner.statics.txFrames = UInt32.ofNat ((sends w.calls).countP accepted) ∧
      w.runner.statics.txBusyPasses = UInt32.ofNat ((sends w.calls).countP busy)) ∧
    (w.taken ++ Q.rxQueue w.runner.queues = committed (receptions w.calls) ∧
      w.runner.statics.rxFrames = UInt32.ofNat (committed (receptions w.calls)).length ∧
      w.runner.statics.rxErrors = UInt32.ofNat ((receptions w.calls).countP Received.failed)) := by
  have hw := h.invariant (start_delivered reconnect o) fun _ e hu _ => step_delivered hu e
  refine ⟨⟨hw.tx, fun pre f answer post hcut => ⟨hw.attempts _ _ _ _ hcut, ?_⟩,
    exists_final _, ?_, hw.txFrames, hw.txBusyPasses⟩, hw.rx, hw.rxFrames, hw.rxErrors⟩
  · exact fun hfinal mid g b post' _ => frameNo_lt_of_final hfinal
  · rw [released_length, UInt32.ofNat_add, hw.txFrames, hw.txFailures]

theorem frames_delivered_after_a_busy_pass :
    ∃ w : World unitHal (fifoChannel 1514 1 1),
      (wifi unitHal (fifoChannel 1514 1 1)).Run (powerOn none)
        [.stackTransmit [7, 8],
          .pass { offNetwork with sendEthernet := .error .txBusy } (.still 1000),
          .pass hearing (.still 2000), .stackReceive] w ∧
      w.taken = [[1, 2, 3]] ∧ released (sends w.calls) = [[7, 8]] ∧
      w.queued = released (sends w.calls) ++ (fifoChannel 1514 1 1).txQueue w.runner.queues ∧
      w.runner.statics.txBusyPasses = UInt32.ofNat ((sends w.calls).countP busy) := by
  have hqueue := run_event (.nil (s := powerOn none)) (.stackTransmit [7, 8]) trivial
  have hbusy := run_event hqueue
    (.pass { offNetwork with sendEthernet := .error .txBusy } (.still 1000))
    (Clock.still_inOrder (by decide))
  have hsent := run_event hbusy (.pass hearing (.still 2000)) (Clock.still_inOrder (by decide))
  have hrun := run_event hsent .stackReceive trivial
  have hw := frames_delivered none _ _ _ hrun
  exact ⟨_, hrun, by decide +kernel, by decide +kernel, hw.1.1, hw.1.2.2.2.2.2⟩

end RpiHalEmbassy.Wifi
