import RpiHalEmbassy.Library.Log
import RpiHalEmbassy.Ethernet.Loops

/-!
# Each direction is a lossless FIFO

Inbound, what the stack took and what waits for it, followed by what is left of the
transfer being drained, is what the completed transfers carried. Outbound, what the
stack queued is what was submitted followed by what was not yet, and a submission
holds its slot until it is answered. Each loop touches one side only.
-/

namespace RpiHalEmbassy.Ethernet
open Machines Net Logs

variable {Q : Channel}

@[simp]
def Call.received? : Call → Option Transfer
  | .received transfer => some transfer
  | _ => none

@[simp]
def Call.rxDone? : Call → Option Bytes
  | .rxDone frame => some frame
  | _ => none

@[simp]
def Call.sendFrame? : Call → Option Bytes
  | .sendFrame frame => some frame
  | _ => none

@[simp]
def Call.sent? : Call → Option (Except TransferError Unit)
  | .sent outcome => some outcome
  | _ => none

@[simp]
def Call.txDone? : Call → Option Unit
  | .txDone => some ()
  | _ => none

abbrev transfers (calls : List Call) : List Transfer := calls.filterMap Call.received?
abbrev commits (calls : List Call) : List Bytes := calls.filterMap Call.rxDone?
abbrev sends (calls : List Call) : List Bytes := calls.filterMap Call.sendFrame?
abbrev answers (calls : List Call) : List (Except TransferError Unit) := calls.filterMap Call.sent?
def releases (calls : List Call) : Nat := (calls.filterMap Call.txDone?).length

@[simp]
def Transfer.frames : Transfer → List Bytes
  | .ok frames => frames
  | .error _ => []

/-- The frames of the transfers completed. -/
def handed (calls : List Call) : List Bytes := (transfers calls).flatMap Transfer.frames

@[simp] theorem releases_append (k l : List Call) :
    releases (k ++ l) = releases k + releases l := by
  rw [releases, List.filterMap_append, List.length_append, releases, releases]
@[simp] theorem releases_cons (call : Call) (l : List Call) :
    releases (call :: l) = call.txDone?.toList.length + releases l := by
  rw [releases, filterMap_cons_toList, List.length_append, releases]
@[simp] theorem releases_nil : releases [] = 0 := rfl

@[simp] theorem handed_append (k l : List Call) : handed (k ++ l) = handed k ++ handed l := by
  simp [handed]
@[simp] theorem handed_cons (call : Call) (l : List Call) :
    handed (call :: l) = call.received?.toList.flatMap Transfer.frames ++ handed l := by
  simp [handed]
@[simp] theorem handed_nil : handed [] = [] := rfl

@[simp]
def Rx.left : Rx → List Bytes
  | .delivering frames _ => frames
  | _ => []

/-- Frames submitted and still in their slot. -/
@[simp]
def Tx.held : Tx → Nat
  | .idle => 0
  | _ => 1

@[simp]
def Tx.answered : Tx → Nat
  | .idle => 0
  | .sending => 0
  | _ => 1

theorem fitted_eq_take (Q : Channel) (frame : Bytes) : fitted Q frame = frame.take Q.mtu := by
  rw [fitted, List.take_eq_take_iff]
  omega

/-! ### Inbound -/

/-- What was committed is what the chip handed over, cut to fit, up to what is left of
the transfer being drained. -/
def Drained (w : World Q) : Prop :=
  commits w.calls ++ w.rx.left.map (fitted Q) = (handed w.calls).map (fitted Q)

structure Inbound (w : World Q) : Prop where
  fifo : w.taken ++ Q.rxQueue w.queues = commits w.calls
  drained : commits w.calls ++ w.rx.left.map (fitted Q) = (handed w.calls).map (fitted Q)
  left : w.rx.left <:+ handed w.calls

structure SameInbound (w v : World Q) : Prop where
  rx : v.rx = w.rx
  queue : v.taken ++ Q.rxQueue v.queues = w.taken ++ Q.rxQueue w.queues
  commits : commits v.calls = commits w.calls
  handed : handed v.calls = handed w.calls

theorem Drained.of_same {w v : World Q} (hw : Drained w) (h : SameInbound w v) : Drained v := by
  unfold Drained at hw ⊢
  rw [h.commits, h.rx, h.handed, hw]

theorem Inbound.of_same {w v : World Q} (hw : Inbound w) (h : SameInbound w v) : Inbound v where
  fifo := by rw [h.queue, h.commits, hw.fifo]
  drained := Drained.of_same hw.drained h
  left := by rw [h.rx, h.handed]; exact hw.left

theorem issue_drained {w : World Q} (hw : Drained w) (now : UInt64) (h : w.rx = .next) :
    Drained (issue now w) := by
  unfold Drained at hw ⊢
  rw [h] at hw
  unfold issue
  split <;> simpa using hw

theorem complete_drained {w : World Q} (hw : Drained w) (transfer : Transfer) (now : UInt64)
    (h : w.rx = .receiving) : Drained (complete transfer now w) := by
  unfold Drained at hw ⊢
  rw [h] at hw
  have hdone : commits w.calls = (handed w.calls).map (fitted Q) := by simpa using hw
  cases transfer <;> simp [complete, hdone]

theorem deliver_drained {w : World Q} (hw : Drained w) {frame : Bytes} {rest : List Bytes}
    {n : UInt32} (h : w.rx = .delivering (frame :: rest) n) : Drained (deliver frame rest n w) := by
  unfold Drained at hw ⊢
  rw [h] at hw
  simpa [deliver, fitted] using hw

theorem finish_drained {w : World Q} (hw : Drained w) {n : UInt32}
    (h : w.rx = .delivering [] n) : Drained (finish n w) := by
  unfold Drained at hw ⊢
  rw [h] at hw
  unfold finish
  split
  · exact hw
  · split
    · exact hw
    · exact hw

theorem advance_same_inbound (w : World Q) : SameInbound w (advance w) := by
  unfold advance
  split <;> constructor <;> simp

theorem issue_inbound {w : World Q} (hw : Inbound w) (now : UInt64) (h : w.rx = .next) :
    Inbound (issue now w) := by
  refine ⟨?_, issue_drained hw.drained now h, ?_⟩
  · have hfifo := hw.fifo
    unfold issue
    split <;> simpa using hfifo
  · unfold issue
    split <;> exact List.nil_suffix

theorem complete_inbound {w : World Q} (hw : Inbound w) (transfer : Transfer) (now : UInt64)
    (h : w.rx = .receiving) : Inbound (complete transfer now w) := by
  have hdrained := complete_drained hw.drained transfer now h
  cases transfer with
  | ok frames =>
    refine ⟨by simpa [complete] using hw.fifo, hdrained, ?_⟩
    simp [complete, List.suffix_append]
  | error error => exact ⟨by simpa [complete] using hw.fifo, hdrained, List.nil_suffix⟩

theorem deliver_inbound {w : World Q} (hw : Inbound w) {frame : Bytes} {rest : List Bytes}
    {n : UInt32} (h : w.rx = .delivering (frame :: rest) n) (hslot : Q.tryRxBuf w.queues = true) :
    Inbound (deliver frame rest n w) := by
  have hcommit : (frame.take (min frame.length Q.mtu)).take (min frame.length Q.mtu) =
      fitted Q frame := by
    rw [List.take_take, Nat.min_self, fitted]
  refine ⟨?_, deliver_drained hw.drained h, ?_⟩
  · simp only [deliver, World.call_calls, World.call_taken, List.filterMap_append,
      filterMap_cons_toList, Call.rxDone?, Option.toList_some, List.filterMap_nil, List.append_nil]
    rw [Q.rxQueue_rxDone _ _ _ hslot, ← List.append_assoc, hw.fifo, hcommit, fitted]
  · have hleft := hw.left
    rw [h] at hleft
    simpa [deliver] using (List.suffix_cons frame rest).trans hleft

theorem finish_inbound {w : World Q} (hw : Inbound w) {n : UInt32}
    (h : w.rx = .delivering [] n) : Inbound (finish n w) := by
  refine ⟨?_, finish_drained hw.drained h, ?_⟩
  · unfold finish
    split
    · exact hw.fifo
    · split <;> exact hw.fifo
  · unfold finish
    split
    · exact List.nil_suffix
    · split <;> exact List.nil_suffix

/-- What the four events of the receive loop keep, and every other step leaves alone. -/
theorem step_receive {P : World Q → Prop} {w : World Q} {e : Event} (he : enabled w e)
    (hissue : ∀ now, w.rx = .next → P (issue now w))
    (hcomplete : ∀ transfer now, w.rx = .receiving → P (complete transfer now w))
    (hdeliver : ∀ frame rest n, w.rx = .delivering (frame :: rest) n →
      Q.tryRxBuf w.queues = true → P (deliver frame rest n w))
    (hfinish : ∀ n, w.rx = .delivering [] n → P (finish n w))
    (hsame : SameInbound w (step w e) → P (step w e)) : P (step w e) := by
  cases e with
  | issue now => exact hissue now he
  | complete transfer now => exact hcomplete transfer now he
  | deliver =>
    obtain ⟨⟨frame, rest, n, hrx⟩, hslot⟩ := he
    simp only [step, hrx]
    exact hdeliver frame rest n hrx hslot
  | finish =>
    obtain ⟨n, hrx⟩ := he
    simp only [step, hrx]
    exact hfinish n hrx
  | submit =>
    obtain ⟨_, frame, hhead⟩ := he
    apply hsame
    simp only [step, hhead]
    exact ⟨rfl, rfl, by simp [submit], by simp [submit]⟩
  | answer outcome => exact hsame ⟨rfl, rfl, by simp [step, answer], by simp [step, answer]⟩
  | advance => exact hsame (advance_same_inbound w)
  | stackReceive =>
    apply hsame
    simp only [step]
    split
    · constructor <;> rfl
    · next h =>
      obtain ⟨hrx, _, _⟩ := Q.receive_some _ _ _ h
      exact ⟨rfl, by simp [hrx], rfl, rfl⟩
  | stackTransmit f =>
    apply hsame
    simp only [step]
    split
    · constructor <;> rfl
    · next h =>
      obtain ⟨_, hrx, _⟩ := Q.transmit_some _ _ _ h
      exact ⟨rfl, by rw [hrx], rfl, rfl⟩

theorem step_drained {w : World Q} (hw : Drained w) {e : Event} (he : enabled w e) :
    Drained (step w e) :=
  step_receive he (issue_drained hw) (complete_drained hw)
    (fun _ _ _ h _ => deliver_drained hw h) (fun _ => finish_drained hw) hw.of_same

theorem step_inbound {w : World Q} (hw : Inbound w) (e : Event) (he : enabled w e) :
    Inbound (step w e) :=
  step_receive he (issue_inbound hw) (complete_inbound hw)
    (fun _ _ _ => deliver_inbound hw) (fun _ => finish_inbound hw) hw.of_same

/-! ### Outbound -/

/-- The frame submitted and not released is the head of the queue. -/
structure Outbound (w : World Q) : Prop where
  fifo : w.queued = sends w.calls ++ (Q.txQueue w.queues).drop w.tx.held
  held : (sends w.calls).drop (releases w.calls) = (Q.txQueue w.queues).take w.tx.held
  sends : (sends w.calls).length = releases w.calls + w.tx.held
  answers : (answers w.calls).length = releases w.calls + w.tx.answered

structure SameOutbound (w v : World Q) : Prop where
  tx : v.tx = w.tx
  queued : v.queued = w.queued
  queue : Q.txQueue v.queues = Q.txQueue w.queues
  sends : sends v.calls = sends w.calls
  answers : answers v.calls = answers w.calls
  releases : releases v.calls = releases w.calls

theorem Outbound.of_same {w v : World Q} (hw : Outbound w) (h : SameOutbound w v) :
    Outbound v where
  fifo := by rw [h.queued, h.sends, h.queue, h.tx, hw.fifo]
  held := by rw [h.sends, h.releases, h.queue, h.tx, hw.held]
  sends := by rw [h.sends, h.releases, h.tx, hw.sends]
  answers := by rw [h.answers, h.releases, h.tx, hw.answers]

theorem issue_same_outbound (now : UInt64) (w : World Q) : SameOutbound w (issue now w) := by
  unfold issue
  split <;> constructor <;> simp

theorem complete_same_outbound (transfer : Transfer) (now : UInt64) (w : World Q) :
    SameOutbound w (complete transfer now w) := by
  cases transfer <;> constructor <;> simp [complete]

theorem deliver_same_outbound (frame : Bytes) (rest : List Bytes) (n : UInt32) (w : World Q) :
    SameOutbound w (deliver frame rest n w) := by
  constructor <;> simp [deliver]

theorem finish_same_outbound (n : UInt32) (w : World Q) : SameOutbound w (finish n w) := by
  unfold finish
  split
  · constructor <;> rfl
  · split <;> constructor <;> rfl

theorem Outbound.held_le {w : World Q} (hw : Outbound w) :
    w.tx.held ≤ (Q.txQueue w.queues).length := by
  have hlen := congrArg List.length hw.held
  rw [List.length_drop, hw.sends, List.length_take] at hlen
  omega

theorem submit_outbound {w : World Q} (hw : Outbound w) {frame : Bytes} (h : w.tx = .idle)
    (hhead : Q.tryTxBuf w.queues = some frame) : Outbound (submit frame w) := by
  have hqueue := Q.txQueue_of_tryTxBuf hhead
  obtain ⟨hfifo, hheld, hsends, hanswers⟩ := hw
  rw [h] at hfifo hsends hanswers
  constructor
  · simp only [submit, World.call_calls, World.call_queued, World.call_queues,
      List.filterMap_append, hfifo]
    rw [hqueue]
    simp
  · simp only [submit, World.call_calls, World.call_queues, List.filterMap_append,
      releases_append]
    rw [hqueue]
    simp [hsends]
  · simpa [submit] using hsends
  · simpa [submit] using hanswers

theorem answer_outbound {w : World Q} (hw : Outbound w) (outcome : Except TransferError Unit)
    (h : w.tx = .sending) : Outbound (answer outcome w) := by
  obtain ⟨hfifo, hheld, hsends, hanswers⟩ := hw
  rw [h] at hfifo hheld hsends hanswers
  exact ⟨by simpa [answer] using hfifo, by simpa [answer] using hheld,
    by simpa [answer] using hsends, by simpa [answer] using hanswers⟩

theorem advance_outbound {w : World Q} (hw : Outbound w) : Outbound (advance w) := by
  obtain ⟨hfifo, hheld, hsends, hanswers⟩ := hw
  unfold advance
  split
  · next outcome h =>
    rw [h] at hfifo hheld hsends hanswers
    cases outcome <;> exact ⟨hfifo, hheld, hsends, hanswers⟩
  · next h =>
    rw [h] at hfifo hheld hsends hanswers
    exact ⟨hfifo, hheld, hsends, hanswers⟩
  · next h =>
    rw [h] at hfifo hheld hsends hanswers
    exact ⟨hfifo, hheld, hsends, hanswers⟩
  · next h =>
    rw [h] at hfifo hheld hsends hanswers
    refine ⟨by simpa using hfifo, ?_, by simpa using hsends, by simpa using hanswers⟩
    simpa using Nat.le_of_eq hsends
  · exact ⟨hfifo, hheld, hsends, hanswers⟩

theorem step_outbound {w : World Q} (hw : Outbound w) (e : Event) (he : enabled w e) :
    Outbound (step w e) := by
  cases e with
  | issue now => exact hw.of_same (issue_same_outbound now w)
  | complete transfer now => exact hw.of_same (complete_same_outbound transfer now w)
  | deliver =>
    obtain ⟨⟨frame, rest, n, hrx⟩, _⟩ := he
    simp only [step, hrx]
    exact hw.of_same (deliver_same_outbound frame rest n w)
  | finish =>
    obtain ⟨n, hrx⟩ := he
    simp only [step, hrx]
    exact hw.of_same (finish_same_outbound n w)
  | submit =>
    obtain ⟨htx, frame, hhead⟩ := he
    simp only [step, hhead]
    exact submit_outbound hw htx hhead
  | answer outcome => exact answer_outbound hw outcome he
  | advance => exact advance_outbound hw
  | stackReceive =>
    simp only [step]
    split
    · exact hw
    · next h =>
      obtain ⟨_, htx, _⟩ := Q.receive_some _ _ _ h
      exact hw.of_same ⟨rfl, rfl, htx, rfl, rfl, rfl⟩
  | stackTransmit f =>
    simp only [step]
    split
    · exact hw
    · next h =>
      obtain ⟨htx, _, _⟩ := Q.transmit_some _ _ _ h
      have hle := hw.held_le
      refine ⟨?_, ?_, hw.sends, hw.answers⟩
      · rw [htx, List.drop_append_of_le_length hle, ← List.append_assoc, ← hw.fifo]
      · rw [htx, List.take_append_of_le_length hle, ← hw.held]

/-! ### The order of the calls -/

/-- What a call finds done when it is made. -/
def InTurn (Q : Channel) (before : List Call) : Call → Prop
  | .receiveFrames => commits before = (handed before).map (fitted Q)
  | .received _ => commits before = (handed before).map (fitted Q)
  | .sendFrame _ => releases before = (sends before).length
  | .txDone => releases before + 1 = (sends before).length ∧
      (answers before).length = (sends before).length
  | _ => True

theorem Inbound.all_committed {w : World Q} (hw : Inbound w) (h : w.rx.left = []) :
    commits w.calls = (handed w.calls).map (fitted Q) := by
  have hdrained := hw.drained
  rwa [h, List.map_nil, List.append_nil] at hdrained

theorem step_inTurn {w : World Q} (hin : Inbound w) (hout : Outbound w)
    (hw : Each (InTurn Q) w.calls) (e : Event) (he : enabled w e) :
    Each (InTurn Q) (step w e).calls := by
  cases e with
  | issue now =>
    have hdone := hin.all_committed (by rw [show w.rx = .next from he]; rfl)
    simp only [step, issue]
    split
    · exact hw.snoc .receiveFrames hdone
    · refine (hw.snoc (.now now) trivial).snoc .receiveFrames ?_
      simpa [InTurn] using hdone
  | complete transfer now =>
    have hdone := hin.all_committed (by rw [show w.rx = .receiving from he]; rfl)
    have hboth := (hw.snoc (.received transfer) hdone).snoc (.now now) trivial
    cases transfer <;> exact hboth
  | deliver =>
    obtain ⟨⟨frame, rest, n, hrx⟩, _⟩ := he
    simp only [step, hrx]
    exact hw.snoc (.rxDone _) trivial
  | finish =>
    obtain ⟨n, hrx⟩ := he
    simp only [step, hrx, finish]
    split
    · exact hw
    · split <;> exact hw
  | submit =>
    obtain ⟨htx, frame, hhead⟩ := he
    have hsends := hout.sends
    rw [htx] at hsends
    simp only [step, hhead]
    exact hw.snoc (.sendFrame frame) hsends.symm
  | answer outcome => exact hw.snoc (.sent outcome) trivial
  | advance =>
    simp only [step, advance]
    split
    · exact hw
    · exact hw
    · exact hw
    · next h =>
      have hsends := hout.sends
      have hanswers := hout.answers
      rw [h] at hsends hanswers
      exact hw.snoc .txDone ⟨hsends.symm, hanswers.trans hsends.symm⟩
    · exact hw
  | stackReceive =>
    simp only [step]
    split <;> exact hw
  | stackTransmit f =>
    simp only [step]
    split <;> exact hw

/-! ### Frames of at most an MTU -/

def Event.Fits : Event → Prop
  | .complete (.ok frames) _ => ∀ frame ∈ frames, frame.length ≤ mtu
  | _ => True

def Event.frames : Event → List Bytes
  | .complete transfer _ => transfer.frames
  | _ => []

theorem Event.Fits.frames {e : Event} (he : e.Fits) : ∀ frame ∈ e.frames, frame.length ≤ mtu := by
  cases e with
  | complete transfer now =>
    cases transfer with
    | ok frames => exact he
    | error error => exact fun _ h => absurd h List.not_mem_nil
  | _ => exact fun _ h => absurd h List.not_mem_nil

theorem step_handed (w : World Q) (e : Event) :
    handed (step w e).calls = handed w.calls ++ e.frames := by
  cases e with
  | issue now =>
    simp only [step, issue, Event.frames]
    split <;> simp
  | complete transfer now => cases transfer <;> simp [step, complete, Event.frames]
  | deliver =>
    simp only [step, Event.frames]
    split <;> simp [deliver]
  | finish =>
    simp only [step, finish, Event.frames, List.append_nil]
    split
    · split
      · rfl
      · split <;> rfl
    · rfl
  | submit =>
    simp only [step, Event.frames]
    split <;> simp [submit]
  | answer outcome => simp [step, answer, Event.frames]
  | advance =>
    simp only [step, advance, Event.frames]
    split <;> simp
  | stackReceive =>
    simp only [step, Event.frames, List.append_nil]
    split <;> rfl
  | stackTransmit f =>
    simp only [step, Event.frames, List.append_nil]
    split <;> rfl

theorem map_fitted_eq (hmtu : Q.mtu = mtu) {frames : List Bytes}
    (h : ∀ frame ∈ frames, frame.length ≤ mtu) : frames.map (fitted Q) = frames := by
  refine (List.map_congr_left fun frame hf => ?_).trans frames.map_id
  rw [fitted_eq_take, hmtu]
  exact List.take_of_length_le (h frame hf)

/-! ### The transmit loop gets through what is queued -/

def Tx.progress : Tx → Nat
  | .idle => 0
  | .sending => 1
  | .sent _ => 2
  | .failing _ => 3
  | .storing _ => 4
  | .done => 5

theorem Tx.progress_lt (t : Tx) : t.progress < 6 := by
  cases t <;> simp [Tx.progress]

def work (w : World Q) : Nat := 6 * (Q.txQueue w.queues).length - w.tx.progress

def Event.transmits (outcome : Except TransferError Unit) (e : Event) : Prop :=
  e = .submit ∨ e = .answer outcome ∨ e = .advance

theorem advance_work {w : World Q} (hheld : w.tx.held ≤ (Q.txQueue w.queues).length)
    (hidle : w.tx ≠ .idle) (hsending : w.tx ≠ .sending) : work (advance w) < work w := by
  unfold advance
  split
  · next outcome h =>
    rw [h] at hheld
    cases outcome <;>
    · simp only [work, h, Tx.progress, Tx.held] at hheld ⊢
      omega
  · next h =>
    simp only [work, h, Tx.progress, Tx.held] at hheld ⊢
    omega
  · next h =>
    simp only [work, h, Tx.progress, Tx.held] at hheld ⊢
    omega
  · next h =>
    simp only [work, h, Tx.progress, Tx.held, Q.txQueue_txDone, List.length_tail] at hheld ⊢
    omega
  · next hsent hfailing hstoring hdone =>
    cases h : w.tx with
    | idle => exact absurd h hidle
    | sending => exact absurd h hsending
    | sent outcome => exact absurd h (hsent outcome)
    | failing error => exact absurd h (hfailing error)
    | storing error => exact absurd h (hstoring error)
    | done => exact absurd h hdone

theorem advance_queued (w : World Q) : (advance w).queued = w.queued := by
  unfold advance
  split <;> rfl

theorem transmit_progress {w : World Q} (hw : Outbound w) (hwork : 0 < work w)
    (outcome : Except TransferError Unit) : ∃ e, Event.transmits outcome e ∧ enabled w e ∧
      work (step w e) < work w ∧ (step w e).queued = w.queued := by
  have hheld := hw.held_le
  by_cases hidle : w.tx = .idle
  · unfold work at hwork
    rw [hidle] at hwork
    obtain ⟨frame, rest, hqueue⟩ : ∃ frame rest, Q.txQueue w.queues = frame :: rest :=
      List.exists_cons_of_ne_nil fun h => by simp [h] at hwork
    have hhead : Q.tryTxBuf w.queues = some frame := by rw [Q.tryTxBuf_eq, hqueue]; rfl
    refine ⟨.submit, Or.inl rfl, ⟨hidle, frame, hhead⟩, ?_, ?_⟩
    · simp only [step, hhead, submit, work, World.call_queues, hidle, hqueue, Tx.progress,
        List.length_cons]
      omega
    · simp [step, hhead, submit]
  · by_cases hsending : w.tx = .sending
    · rw [hsending] at hheld
      refine ⟨.answer outcome, Or.inr (Or.inl rfl), hsending, ?_, rfl⟩
      simp only [step, answer, work, World.call_queues, hsending, Tx.progress, Tx.held] at hheld ⊢
      omega
    · exact ⟨.advance, Or.inr (Or.inr rfl), ⟨hidle, hsending⟩, advance_work hheld hidle hsending,
        advance_queued w⟩

/-- Left to itself, with every transfer answered `outcome`, the loop submits and
releases all that is queued. -/
theorem transmit_drains (outcome : Except TransferError Unit) (n : Nat) {w : World Q}
    (hw : Outbound w) (hn : work w ≤ n) : ∃ es v, (ethernet Q).Run w es v ∧
      (∀ e ∈ es, Event.transmits outcome e) ∧
      sends v.calls = w.queued ∧ releases v.calls = w.queued.length := by
  induction n generalizing w with
  | zero =>
    have hle := hw.held_le
    have hempty : Q.txQueue w.queues = [] := by
      have hlt := w.tx.progress_lt
      unfold work at hn
      exact List.length_eq_zero_iff.mp (by omega)
    have hheld : w.tx.held = 0 := by simpa [hempty] using hle
    have hqueued : w.queued = sends w.calls := by
      rw [hw.fifo, hempty, List.drop_nil, List.append_nil]
    refine ⟨[], w, .nil, fun _ h => absurd h List.not_mem_nil, hqueued.symm, ?_⟩
    rw [hqueued, hw.sends, hheld, Nat.add_zero]
  | succ n ih =>
    rcases Nat.eq_zero_or_pos (work w) with hzero | hpos
    · exact ih hw (hzero ▸ Nat.zero_le n)
    · obtain ⟨e, he, hen, hless, hqueued⟩ := transmit_progress hw hpos outcome
      obtain ⟨es, v, hrun, hes, hsends, hreleases⟩ :=
        ih (step_outbound hw e hen) (by omega)
      exact ⟨e :: es, v, .cons hen hrun, List.forall_mem_cons.mpr ⟨he, hes⟩,
        hqueued ▸ hsends, hqueued ▸ hreleases⟩

/-! ### Over a run -/

structure Kept (w : World Q) : Prop where
  inbound : Inbound w
  outbound : Outbound w
  inTurn : Each (InTurn Q) w.calls

theorem start_kept (Q : Channel) : Kept (start Q) where
  inbound := ⟨by simp [start], by simp [start], List.nil_suffix⟩
  outbound := ⟨by simp [start], by simp [start], by simp [start], by simp [start]⟩
  inTurn := each_nil _

theorem step_kept {w : World Q} (hw : Kept w) (e : Event) (he : enabled w e) :
    Kept (step w e) where
  inbound := step_inbound hw.inbound e he
  outbound := step_outbound hw.outbound e he
  inTurn := step_inTurn hw.inbound hw.outbound hw.inTurn e he

theorem run_kept {es : List Event} {w : World Q} (h : (ethernet Q).Run (start Q) es w) :
    Kept w :=
  h.invariant (start_kept Q) fun _ e hu he => step_kept hu e he

abbrev withinMtu (Q : Channel) : Machine (World Q) Event :=
  (ethernet Q).restrict fun _ e => e.Fits

theorem run_handed_fits {es : List Event} {w : World Q}
    (h : (withinMtu Q).Run (start Q) es w) : ∀ frame ∈ handed w.calls, frame.length ≤ mtu :=
  h.invariant (P := fun v => ∀ frame ∈ handed v.calls, frame.length ≤ mtu)
    (fun _ h => absurd h List.not_mem_nil) fun u e hu he => by
      rw [show handed ((withinMtu Q).step u e).calls = _ from step_handed u e]
      exact List.forall_mem_append.mpr ⟨hu, he.2.frames⟩

theorem queued_eq_released {w : World Q} (hw : Outbound w) :
    w.queued = (sends w.calls).take (releases w.calls) ++ Q.txQueue w.queues := by
  calc w.queued = sends w.calls ++ (Q.txQueue w.queues).drop w.tx.held := hw.fifo
    _ = (sends w.calls).take (releases w.calls) ++ (sends w.calls).drop (releases w.calls) ++
        (Q.txQueue w.queues).drop w.tx.held := by rw [List.take_append_drop]
    _ = _ := by rw [hw.held, List.append_assoc, List.take_append_drop]

/-- Inbound, the frames committed and those left of the transfer being drained are the
frames of the transfers completed; all are committed before the next is issued, and
between a transfer and the next its own frames are. Outbound, the frames queued are
those submitted and those not yet; a submission follows the release of the one before
it and is released once, after its answer, and whatever the answers the loop gets
through the queue. -/
theorem frames_kept_in_order (hmtu : Q.mtu = mtu) (es : List Event) (w : World Q)
    (h : (withinMtu Q).Run (start Q) es w) :
    (w.taken ++ Q.rxQueue w.queues = commits w.calls ∧
      commits w.calls ++ w.rx.left = handed w.calls ∧
      (∀ pre post, w.calls = pre ++ .receiveFrames :: post → commits pre = handed pre) ∧
      (∀ pre transfer mid post, w.calls = pre ++ .received transfer :: (mid ++ post) →
        transfers mid = [] →
          (∀ post', post = .receiveFrames :: post' → commits mid = transfer.frames) ∧
          (post = [] → commits mid ++ w.rx.left = transfer.frames))) ∧
    (w.queued = sends w.calls ++ (Q.txQueue w.queues).drop w.tx.held ∧
      w.queued = (sends w.calls).take (releases w.calls) ++ Q.txQueue w.queues ∧
      (∀ pre frame post, w.calls = pre ++ .sendFrame frame :: post →
        releases pre = (sends pre).length) ∧
      (∀ pre post, w.calls = pre ++ .txDone :: post →
        releases pre + 1 = (sends pre).length ∧ (answers pre).length = (sends pre).length) ∧
      ∀ outcome, ∃ fs v, (ethernet Q).Run w fs v ∧ (∀ e ∈ fs, Event.transmits outcome e) ∧
        sends v.calls = w.queued ∧ releases v.calls = w.queued.length) := by
  have hw := run_kept h.of_restrict
  have hfits := run_handed_fits h
  have hmap : ∀ pre post, w.calls = pre ++ post → (handed pre).map (fitted Q) = handed pre :=
    fun pre post hcut => map_fitted_eq hmtu fun frame hf =>
      hfits frame (by rw [hcut, handed_append]; exact List.mem_append_left _ hf)
  have hissued : ∀ pre post, w.calls = pre ++ .receiveFrames :: post →
      commits pre = handed pre := fun pre post hcut =>
    (hw.inTurn pre .receiveFrames post hcut).trans (hmap pre _ hcut)
  have hleft : commits w.calls ++ w.rx.left = handed w.calls := by
    have hrest := map_fitted_eq hmtu fun frame hf => hfits frame (hw.inbound.left.subset hf)
    have hdrained := hw.inbound.drained
    rwa [hrest, hmap w.calls [] (List.append_nil _).symm] at hdrained
  refine ⟨⟨hw.inbound.fifo, hleft, hissued, fun pre transfer mid post hcut hmid => ?_⟩,
    hw.outbound.fifo, queued_eq_released hw.outbound,
    fun pre frame post hcut => hw.inTurn pre _ post hcut,
    fun pre post hcut => hw.inTurn pre _ post hcut,
    fun outcome => transmit_drains outcome _ hw.outbound (Nat.le_refl _)⟩
  have hbefore : commits pre = handed pre :=
    (hw.inTurn pre _ _ hcut).trans (hmap pre _ hcut)
  have hhanded : handed (pre ++ .received transfer :: mid) = handed pre ++ transfer.frames := by
    simp [show handed mid = [] by rw [handed, hmid]; rfl]
  have hcommits : commits (pre ++ .received transfer :: mid) = handed pre ++ commits mid := by
    simp [hbefore]
  constructor
  · rintro post' rfl
    have hafter := hissued (pre ++ .received transfer :: mid) post'
      (by rw [hcut, List.append_assoc, List.cons_append])
    rw [hhanded, hcommits] at hafter
    exact List.append_cancel_left hafter
  · rintro rfl
    rw [List.append_nil] at hcut
    rw [hcut, hhanded, hcommits, List.append_assoc] at hleft
    exact List.append_cancel_left hleft

theorem within_step {v w : World Q} {es : List Event} (h : (withinMtu Q).Run v es w) (e : Event)
    (he : enabled w e) (hfits : e.Fits) : (withinMtu Q).Run v (es ++ [e]) (step w e) :=
  h.snoc e ⟨he, hfits⟩

theorem frames_kept_in_order_while_parked :
    ∃ w : World (fifoChannel mtu 1 2), (withinMtu (fifoChannel mtu 1 2)).Run (start _)
        [.issue 0, .stackTransmit [9], .complete (.ok [[1], [2, 3]]) 5, .deliver, .submit,
          .answer (.error .timeout), .advance, .advance, .advance, .advance, .stackReceive,
          .deliver, .finish, .issue 40] w ∧
      w.taken = [[1]] ∧ w.queued = [[9]] ∧ releases w.calls = 1 ∧
      w.taken ++ (fifoChannel mtu 1 2).rxQueue w.queues = commits w.calls ∧
      commits w.calls ++ w.rx.left = handed w.calls ∧
      w.queued = sends w.calls ++ ((fifoChannel mtu 1 2).txQueue w.queues).drop w.tx.held := by
  have hissued := within_step (.nil (s := start (fifoChannel mtu 1 2))) (.issue 0) rfl trivial
  have hqueued := within_step hissued (.stackTransmit [9]) trivial trivial
  have hreceived := within_step hqueued (.complete (.ok [[1], [2, 3]]) 5) rfl
    (by simp [Event.Fits, mtu])
  have hparked := within_step hreceived .deliver ⟨⟨_, _, _, rfl⟩, rfl⟩ trivial
  have hsending := within_step hparked .submit ⟨rfl, _, rfl⟩ trivial
  have hfailed := within_step hsending (.answer (.error .timeout)) rfl trivial
  have hcounted := within_step hfailed .advance ⟨nofun, nofun⟩ trivial
  have hstoring := within_step hcounted .advance ⟨nofun, nofun⟩ trivial
  have hdone := within_step hstoring .advance ⟨nofun, nofun⟩ trivial
  have hreleased := within_step hdone .advance ⟨nofun, nofun⟩ trivial
  have htaken := within_step hreleased .stackReceive trivial trivial
  have hdrained := within_step htaken .deliver ⟨⟨_, _, _, rfl⟩, rfl⟩ trivial
  have hfinished := within_step hdrained .finish ⟨_, rfl⟩ trivial
  have hrun := within_step hfinished (.issue 40) rfl trivial
  have hw := frames_kept_in_order rfl _ _ hrun
  exact ⟨_, hrun, rfl, rfl, rfl, hw.1.1, hw.1.2.1, hw.2.1⟩

end RpiHalEmbassy.Ethernet
