import RpiHalEmbassy.Wifi.Delivery

/-!
# The credit window

The firmware takes a frame only while it has credit, and gives credit only in the
headers of the frames read from it. `window` is the frame halves of the loop, the
stack and such a chip. With both queues full and the credit spent nobody can move:
`receive` has no slot to read into, `transmit` is refused, and the stack is given
nothing while it has nowhere to answer.
-/

namespace RpiHalEmbassy.Wifi
open Machines Net

variable {H : Hal} {Q : Channel}

/-- A frame waiting in the chip: what `recv_ethernet` makes of it, and the credit
its header leaves. -/
structure Waiting (H : Hal) where
  received : Received H
  advance : Nat → Nat

structure Window (H : Hal) (Q : Channel) where
  runner : Runner H Q
  waiting : List (Waiting H)
  credit : Nat

def Received.empty : Received H := ⟨.ok none, []⟩

def Window.creditAfter (w : Window H Q) (n : Nat) : Nat :=
  (w.waiting.take n).foldl (fun credit f => f.advance credit) w.credit

/-- The chip's answers to a pass; the rest of `a`, and what it makes of a frame it
has credit for, is left open. -/
def Window.reading (w : Window H Q) (a : Answers H) : Answers H :=
  { a with recvEthernet := fun n => ((w.waiting.map Waiting.received)[n]?).getD .empty }

def Window.sending (credit : Nat) (a : Answers H) : Answers H :=
  { a with sendEthernet := if credit = 0 then .error .txBusy else a.sendEthernet }

def Window.pass (a : Answers H) (w : Window H Q) : Window H Q :=
  let received := (receive (w.reading a) w.runner.cut).2
  let n := (receptions received.calls).length
  let credit := w.creditAfter n
  let sent := (transmit (Window.sending credit a) received.cut).2
  { runner := sent
    waiting := w.waiting.drop n
    credit := credit - (sends sent.calls).countP accepted }

inductive Flow (H : Hal) where
  | stackReceive
  | stackTransmit (frame : Bytes)
  | arrive (f : Waiting H)
  | pass (a : Answers H)

def flow (w : Window H Q) : Flow H → Window H Q
  | .stackReceive =>
    match Q.receive w.runner.queues with
    | none => w
    | some (_, q) => { w with runner.queues := q }
  | .stackTransmit f =>
    match Q.transmit f w.runner.queues with
    | none => w
    | some q => { w with runner.queues := q }
  | .arrive f => { w with waiting := w.waiting ++ [f] }
  | .pass a => w.pass a

def window (H : Hal) (Q : Channel) : Machine (Window H Q) (Flow H) where
  enabled _ _ := True
  step := flow

def Window.boot (Q : Channel) (reconnect : Option (Reconnect H)) (o : Opening) (credit : Nat) :
    Window H Q :=
  ⟨(start Q reconnect o).runner, [], credit⟩

structure Stuck (w : Window H Q) : Prop where
  rx : Q.depthRx ≤ (Q.rxQueue w.runner.queues).length
  tx : Q.depthTx ≤ (Q.txQueue w.runner.queues).length
  credit : w.credit = 0

/-- Stuck, over a frame that would have put it right. -/
def Wedged (w : Window H Q) : Prop := Stuck w ∧ ∃ f ∈ w.waiting, 0 < f.advance 0

/-! ### What a pass reads -/

/-- What `receive` reads with `n` turns and `k` slots left. -/
def burst : Nat → Nat → List (Received H) → List (Received H)
  | 0, _, _ => []
  | _, 0, _ => []
  | _ + 1, _ + 1, [] => [.empty]
  | n + 1, k + 1, r :: rest =>
    match r.answer with
    | .ok (some _) => r :: burst n k rest
    | _ => [r]

def Window.burst (w : Window H Q) : List (Received H) :=
  Wifi.burst rxBurst (Q.depthRx - (Q.rxQueue w.runner.queues).length)
    (w.waiting.map Waiting.received)

theorem receiveLoop_burst {a : Answers H} {ws : List (Received H)} (n : Nat) (hn : n ≤ rxBurst)
    (received : Bool) (s : Runner H Q)
    (ha : ∀ j, a.recvEthernet (rxBurst - n + j) = (ws[j]?).getD .empty) :
    receptions (receiveLoop a n received s).2.calls =
      receptions s.calls ++ burst n (Q.depthRx - (Q.rxQueue s.queues).length) ws := by
  induction n generalizing received s ws with
  | zero => exact (List.append_nil _).symm
  | succ n ih =>
    have hfirst : a.recvEthernet (rxBurst - (n + 1)) = (ws[0]?).getD .empty := ha 0
    have hcall : ∀ r : Received H, receptions (s.calls ++ [.recvEthernet r.answer r.buffer]) =
        receptions s.calls ++ [r] := fun r => List.filterMap_append
    simp only [receiveLoop, hfirst]
    cases hfree : Q.tryRxBuf s.queues with
    | false =>
      have hfull := mt (Q.tryRxBuf_iff s.queues).mpr (Bool.eq_false_iff.mp hfree)
      rw [if_neg (by decide), Nat.sub_eq_zero_of_le (Nat.le_of_not_lt hfull)]
      exact (List.append_nil _).symm
    | true =>
      have hslot := (Q.tryRxBuf_iff s.queues).mp hfree
      obtain ⟨k, hk⟩ : ∃ k, Q.depthRx - (Q.rxQueue s.queues).length = k + 1 :=
        ⟨_, (Nat.succ_pred_eq_of_pos (Nat.sub_pos_of_lt hslot)).symm⟩
      rw [if_pos rfl, hk]
      cases ws with
      | nil => exact hcall .empty
      | cons r rest =>
        obtain ⟨answer, buffer⟩ := r
        have hrest : ∀ j, a.recvEthernet (rxBurst - n + j) = (rest[j]?).getD .empty := fun j => by
          rw [show rxBurst - n + j = rxBurst - (n + 1) + (j + 1) by omega, ha]
          rfl
        simp only [List.getElem?_cons_zero, Option.getD_some, burst]
        rcases answer with error | _ | len
        · exact hcall ⟨.error error, buffer⟩
        · exact hcall ⟨.ok none, buffer⟩
        · let t := (s.call (.recvEthernet (.ok (some len)) buffer)).deliver buffer len
          have hslots : Q.depthRx - (Q.rxQueue t.queues).length = k := by
            rw [show Q.rxQueue t.queues = _ from Q.rxQueue_rxDone buffer len s.queues hfree,
              List.length_append, List.length_singleton]
            omega
          have hlast := ih (Nat.le_of_succ_le hn) true t hrest
          rw [hslots, show receptions t.calls = _ from hcall ⟨.ok (some len), buffer⟩,
            List.append_assoc] at hlast
          exact hlast

theorem receive_burst (w : Window H Q) (a : Answers H) :
    receptions (receive (w.reading a) w.runner.cut).2.calls = w.burst :=
  receiveLoop_burst rxBurst le_rfl false w.runner.cut fun j => by
    rw [Nat.sub_self, Nat.zero_add]
    rfl

structure Passed (w t : Window H Q) : Prop where
  rx : (Q.rxQueue t.runner.queues).length =
    (Q.rxQueue w.runner.queues).length + (committed w.burst).length
  tx : ((Q.txQueue t.runner.queues).length = (Q.txQueue w.runner.queues).length ∧
      t.credit = w.creditAfter w.burst.length) ∨
    ((Q.txQueue t.runner.queues).length + 1 = (Q.txQueue w.runner.queues).length ∧
      0 < w.creditAfter w.burst.length)

theorem pass_passed (w : Window H Q) (a : Answers H) : Passed w (w.pass a) := by
  have hin := receive_inbound (w.reading a) w.runner
  have hread := receive_burst w a
  unfold Window.pass
  generalize (receive (w.reading a) w.runner.cut).2 = r at hin hread ⊢
  simp only [hread]
  have hout := transmit_outbound (Window.sending (w.creditAfter w.burst.length) a) r
  have h := transmit_step (Window.sending (w.creditAfter w.burst.length) a) r.cut
  generalize transmit (Window.sending (w.creditAfter w.burst.length) a) r.cut = t at hout h ⊢
  have hrx : (Q.rxQueue t.2.queues).length =
      (Q.rxQueue w.runner.queues).length + (committed w.burst).length := by
    rw [hout.rx, hin.rx, hread, List.length_append]
  have htx : (Q.txQueue w.runner.queues).length =
      (released (sends t.2.calls)).length + (Q.txQueue t.2.queues).length := by
    rw [← hin.tx, hout.tx, List.length_append]
  have hcredit : (Window.sending (w.creditAfter w.burst.length) a).sendEthernet ≠
      .error .txBusy → 0 < w.creditAfter w.burst.length := fun hne => by
    refine Nat.pos_of_ne_zero fun hzero => hne ?_
    simp [Window.sending, hzero]
  refine ⟨hrx, ?_⟩
  cases h with
  | nothing h => exact Or.inl ⟨by simpa [released, sends] using htx.symm, rfl⟩
  | sent frame h ha =>
    refine Or.inr ⟨?_, hcredit (by rw [ha]; exact fun h => by cases h)⟩
    rw [htx]
    exact Nat.add_comm _ _
  | busy frame h ha => exact Or.inl ⟨(htx.trans (Nat.zero_add _)).symm, rfl⟩
  | failed frame fault h ha =>
    refine Or.inr ⟨?_, hcredit (by rw [ha]; exact fun h => by cases h)⟩
    rw [htx]
    exact Nat.add_comm _ _

/-! ### Over a run -/

/-- The stack takes the last transmit slot only while there is credit or a free
receive slot, and a pass that finds the transmit queue full is left with one of
the two by what it reads. -/
def KeepsRoom (w : Window H Q) : Flow H → Prop
  | .stackTransmit f => (Q.transmit f w.runner.queues).isSome →
      Q.depthTx ≤ (Q.txQueue w.runner.queues).length + 1 →
      (Q.rxQueue w.runner.queues).length < Q.depthRx ∨ 0 < w.credit
  | .pass _ => Q.depthTx ≤ (Q.txQueue w.runner.queues).length →
      (Q.rxQueue w.runner.queues).length + (committed w.burst).length < Q.depthRx ∨
        0 < w.creditAfter w.burst.length
  | _ => True

def Bounded (w : Window H Q) : Prop := (Q.txQueue w.runner.queues).length ≤ Q.depthTx

theorem flow_bounded {w : Window H Q} (hw : Bounded w) (e : Flow H) : Bounded (flow w e) := by
  unfold Bounded at *
  cases e with
  | stackReceive =>
    simp only [flow]
    split
    · exact hw
    · next h => exact (Q.receive_some _ _ _ h).2.1 ▸ hw
  | stackTransmit f =>
    simp only [flow]
    split
    · exact hw
    · next h =>
      obtain ⟨htx, _, hfree⟩ := Q.transmit_some _ _ _ h
      rw [htx, List.length_append]
      exact hfree
  | arrive f => exact hw
  | pass a =>
    have htx := (pass_passed w a).tx
    simp only [flow]
    omega

theorem stuck_iff (w : Window H Q) : Stuck w ↔ Q.depthRx ≤ (Q.rxQueue w.runner.queues).length ∧
    Q.depthTx ≤ (Q.txQueue w.runner.queues).length ∧ w.credit = 0 :=
  ⟨fun h => ⟨h.rx, h.tx, h.credit⟩, fun h => ⟨h.1, h.2.1, h.2.2⟩⟩

theorem pass_stuck_iff {w : Window H Q} (hw : Bounded w) (a : Answers H) :
    ¬ Stuck (w.pass a) ↔ KeepsRoom w (.pass a) := by
  have hpass := pass_passed w a
  unfold Bounded at hw
  rw [stuck_iff, hpass.rx]
  unfold KeepsRoom
  rcases hpass.tx with ⟨htx, hcredit⟩ | ⟨htx, hcredit⟩
  · rw [htx, hcredit]
    omega
  · omega

theorem stackTransmit_stuck_iff {w : Window H Q} (hgood : ¬ Stuck w) (f : Bytes) :
    ¬ Stuck (flow w (.stackTransmit f)) ↔ KeepsRoom w (.stackTransmit f) := by
  simp only [flow, KeepsRoom]
  split
  · next h =>
    rw [h]
    exact iff_of_true hgood fun hsome => by cases hsome
  · next q h =>
    obtain ⟨htx, hrx, hfree⟩ := Q.transmit_some _ _ _ h
    rw [stuck_iff, htx, hrx, h, List.length_append, List.length_singleton]
    simp only [Option.isSome_some, true_implies]
    omega

theorem flow_stuck_iff {w : Window H Q} (hw : Bounded w) (hgood : ¬ Stuck w) (e : Flow H) :
    ¬ Stuck (flow w e) ↔ KeepsRoom w e := by
  cases e with
  | stackReceive =>
    refine iff_of_true (fun hstuck => ?_) trivial
    simp only [flow] at hstuck
    split at hstuck
    · exact hgood hstuck
    · next h =>
      obtain ⟨_, htx, hfree⟩ := Q.receive_some _ _ _ h
      exact Nat.not_le_of_lt hfree (htx ▸ hstuck.tx)
  | stackTransmit f => exact stackTransmit_stuck_iff hgood f
  | arrive f => exact iff_of_true (fun h => hgood ⟨h.rx, h.tx, h.credit⟩) trivial
  | pass a => exact pass_stuck_iff hw a

theorem boot_txQueue (reconnect : Option (Reconnect H)) (o : Opening) (credit : Nat) :
    Q.txQueue (Window.boot Q reconnect o credit).runner.queues = [] :=
  (Q.txQueue_setLinkState .up Q.new).trans Q.txQueue_new

theorem boot_not_stuck (hdepth : 0 < Q.depthTx) (reconnect : Option (Reconnect H)) (o : Opening)
    (credit : Nat) : ¬ Stuck (Window.boot Q reconnect o credit) := fun h => by
  have hfull := h.tx
  rw [boot_txQueue] at hfull
  exact Nat.not_le_of_lt hdepth hfull

theorem stuck_iff_wedged_next (w : Window H Q) :
    Stuck w ↔ ∃ f, Wedged (flow w (.arrive f)) := by
  constructor
  · exact fun h => ⟨⟨.empty, fun _ => 1⟩, ⟨h.rx, h.tx, h.credit⟩, _,
      List.mem_append_right _ (List.mem_singleton_self _), Nat.one_pos⟩
  · exact fun ⟨_, h, _⟩ => ⟨h.rx, h.tx, h.credit⟩

/-- No state of a run is wedged, nor the next arrival away from it, exactly when
every step keeps room. -/
theorem not_wedged_iff (hdepth : 0 < Q.depthTx) (reconnect : Option (Reconnect H)) (o : Opening)
    (credit : Nat) (es : List (Flow H)) (w : Window H Q)
    (h : (window H Q).Run (.boot Q reconnect o credit) es w) :
    (∀ fs v, fs <+: es → (window H Q).Run (.boot Q reconnect o credit) fs v →
        ¬ Wedged v ∧ ∀ f, ¬ Wedged (flow v (.arrive f))) ↔
      ((window H Q).restrict KeepsRoom).Run (.boot Q reconnect o credit) es w := by
  have hbounded : Bounded (Window.boot Q reconnect o credit) := by
    unfold Bounded
    rw [boot_txQueue]
    exact Nat.zero_le _
  rw [← h.good_iff_restrict hbounded (fun _ e hu _ => flow_bounded hu e)
    (boot_not_stuck hdepth reconnect o credit)
    (fun _ e hu hgood _ => flow_stuck_iff hu hgood e)]
  refine forall₄_congr fun fs v _ _ => ?_
  rw [stuck_iff_wedged_next v, not_exists]
  constructor
  · exact fun h => h.2
  · intro hnext
    refine ⟨fun hv => ?_, hnext⟩
    obtain ⟨f, hf⟩ := (stuck_iff_wedged_next v).mp hv.1
    exact hnext f hf

def replenishing : Waiting unitHal := ⟨⟨.ok (some 1), [0]⟩, fun _ => 1⟩

def oneCredit : Window unitHal (fifoChannel 1514 1 1) :=
  .boot _ none ⟨0, 0, 0, Nat.le_refl 0, Nat.le_refl 0⟩ 1

theorem keeps_room_step {s w : Window H Q} {es : List (Flow H)}
    (h : ((window H Q).restrict KeepsRoom).Run s es w) (e : Flow H) (he : KeepsRoom w e) :
    ((window H Q).restrict KeepsRoom).Run s (es ++ [e]) (flow w e) :=
  h.snoc e ⟨trivial, he⟩

theorem not_wedged_over_a_replenishing_frame :
    ∃ w, (window unitHal (fifoChannel 1514 1 1)).Run oneCredit
      [.stackTransmit [1], .pass offNetwork, .stackTransmit [2], .arrive replenishing,
        .pass offNetwork] w ∧
      (fifoChannel 1514 1 1).rxQueue w.runner.queues = [[0]] ∧ ¬ Wedged w ∧
      ¬ Wedged (flow w (.arrive replenishing)) := by
  have hfirst := keeps_room_step (.nil (s := oneCredit)) (.stackTransmit [1])
    fun _ _ => Or.inl (by decide +kernel)
  have hsent := keeps_room_step hfirst (.pass offNetwork) fun _ => Or.inl (by decide +kernel)
  have hsecond := keeps_room_step hsent (.stackTransmit [2])
    fun _ _ => Or.inl (by decide +kernel)
  have hwaiting := keeps_room_step hsecond (.arrive replenishing) trivial
  have hrun := keeps_room_step hwaiting (.pass offNetwork)
    fun _ => Or.inr (by decide +kernel)
  have hroom := (not_wedged_iff Nat.one_pos none _ 1 _ _ hrun.of_restrict).mpr hrun _ _
    List.prefix_rfl hrun.of_restrict
  exact ⟨_, hrun.of_restrict, by decide +kernel, hroom.1, hroom.2 _⟩

/-- One frame sent, a second queued, one received, and the chip holds the credit
that nobody can read. -/
theorem wedged_over_a_frame :
    ∃ w, (window unitHal (fifoChannel 1514 1 1)).Run oneCredit
      [.stackTransmit [1], .pass offNetwork, .stackTransmit [2],
        .arrive ⟨replenishing.received, id⟩, .pass offNetwork, .arrive replenishing] w ∧
      Wedged w := by
  have hboot : (window unitHal (fifoChannel 1514 1 1)).Run oneCredit [] oneCredit := .nil
  have hfirst := hboot.snoc (.stackTransmit [1]) trivial
  have hsecond := (hfirst.snoc (.pass offNetwork) trivial).snoc (.stackTransmit [2]) trivial
  have hfull := (hsecond.snoc (.arrive ⟨replenishing.received, id⟩) trivial).snoc
    (.pass offNetwork) trivial
  have hrun := hfull.snoc (.arrive replenishing) trivial
  refine ⟨_, hrun, ⟨by decide +kernel, by decide +kernel, by decide +kernel⟩, replenishing, ?_,
    Nat.one_pos⟩
  exact List.mem_append_right _ (List.mem_singleton_self _)

end RpiHalEmbassy.Wifi
