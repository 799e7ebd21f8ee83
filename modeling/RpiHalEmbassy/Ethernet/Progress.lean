import RpiHalEmbassy.Ethernet.Runner
import RpiHalEmbassy.Library.Trace

/-!
# Neither direction stops for good

The two directions wait for one another: the stack is given a frame only while there is
a slot to answer it in, which takes a release by the transmit loop, and the receive loop
waits for the stack. Nothing in this is circular: with both loops polled, submissions
answered and a stack that takes a frame now and then, every frame queued is released and
every frame of a completed transfer is taken.
-/

namespace RpiHalEmbassy.Ethernet
open Machines Net

variable {Q : Channel}

/-- A step of the transmit loop, whatever its submission is answered. -/
def Event.OfTransmit (e : Event) : Prop := ∃ outcome, e.transmits outcome

/-! ### What a step does to either queue -/

/-- The steps the transmit loop is from having released `n` frames. -/
def pending (n : Nat) (w : World Q) : Nat := 6 * (n - releases w.calls) - w.tx.progress

theorem advance_pending {n : Nat} {w : World Q} (hn : releases w.calls < n)
    (hidle : w.tx ≠ .idle) (hsending : w.tx ≠ .sending) :
    pending n (advance w) < pending n w := by
  unfold advance
  split
  · next outcome h =>
    cases outcome <;>
    · simp only [pending, h, Tx.progress]
      omega
  · next h =>
    simp only [pending, h, Tx.progress]
    omega
  · next h =>
    simp only [pending, h, Tx.progress]
    omega
  · next h =>
    simp only [pending, h, Tx.progress, World.call_calls, releases_append, releases_cons,
      Call.txDone?, Option.toList_some, List.length_singleton, releases_nil]
    omega
  · next hsent hfailing hstoring hdone =>
    cases h : w.tx with
    | idle => exact absurd h hidle
    | sending => exact absurd h hsending
    | sent outcome => exact absurd h (hsent outcome)
    | failing error => exact absurd h (hfailing error)
    | storing error => exact absurd h (hstoring error)
    | done => exact absurd h hdone

theorem transmits_pending {n : Nat} {w : World Q} (hn : releases w.calls < n) {e : Event}
    (hturn : e.OfTransmit) (he : enabled w e) : pending n (step w e) < pending n w := by
  obtain ⟨outcome, rfl | rfl | rfl⟩ := hturn
  · obtain ⟨hidle, frame, hhead⟩ := he
    simp only [step, hhead, submit, pending, hidle, Tx.progress, World.call_calls,
      releases_append, releases_cons, Call.txDone?, Option.toList_none, List.length_nil,
      releases_nil]
    omega
  · have hsending : w.tx = .sending := he
    simp only [step, answer, pending, hsending, Tx.progress, World.call_calls,
      releases_append, releases_cons, Call.txDone?, Option.toList_none, List.length_nil,
      releases_nil]
    omega
  · exact advance_pending hn he.1 he.2

theorem step_pending_le {n : Nat} {w : World Q} (hn : releases w.calls < n) {e : Event}
    (he : enabled w e) : pending n (step w e) ≤ pending n w := by
  have hsame : ∀ v : World Q, SameOutbound w v → pending n v ≤ pending n w := fun v h => by
    rw [pending, h.tx, h.releases, pending]
  cases e with
  | issue now => exact hsame _ (issue_same_outbound now w)
  | complete transfer now => exact hsame _ (complete_same_outbound transfer now w)
  | deliver =>
    obtain ⟨⟨frame, rest, m, hrx⟩, _⟩ := he
    simp only [step, hrx]
    exact hsame _ (deliver_same_outbound frame rest m w)
  | finish =>
    obtain ⟨m, hrx⟩ := he
    simp only [step, hrx]
    exact hsame _ (finish_same_outbound m w)
  | submit => exact (transmits_pending hn ⟨.ok (), Or.inl rfl⟩ he).le
  | answer outcome => exact (transmits_pending hn ⟨outcome, Or.inr (Or.inl rfl)⟩ he).le
  | advance => exact (transmits_pending hn ⟨.ok (), Or.inr (Or.inr rfl)⟩ he).le
  | stackReceive =>
    simp only [step]
    split <;> exact le_rfl
  | stackTransmit frame =>
    simp only [step]
    split <;> exact le_rfl

theorem queued_length {w : World Q} (hw : Outbound w) :
    w.queued.length = releases w.calls + (Q.txQueue w.queues).length := by
  have hsends := hw.sends
  rw [queued_eq_released hw, List.length_append, List.length_take]
  omega

/-- Short of its goal the transmit loop has a step to take. -/
theorem transmit_offered {w : World Q} (hw : Outbound w)
    (h : releases w.calls < w.queued.length) : ∃ e, e.OfTransmit ∧ enabled w e := by
  have hlen := queued_length hw
  have hlt := w.tx.progress_lt
  obtain ⟨e, hturn, he, _, _⟩ := transmit_progress hw (by unfold work; omega) (.ok ())
  exact ⟨e, ⟨.ok (), hturn⟩, he⟩

/-- The stack's own step, or one that leaves what was queued as it was. -/
theorem step_queued (w : World Q) (e : Event) :
    (step w e).queued = w.queued ∨ ∃ frame, (step w e).queued = w.queued ++ [frame] ∧
      (Q.txQueue w.queues).length < Q.depthTx := by
  cases e with
  | issue now =>
    simp only [step, issue]
    split <;> exact Or.inl rfl
  | complete transfer now => cases transfer <;> exact Or.inl rfl
  | deliver =>
    simp only [step]
    split <;> exact Or.inl rfl
  | finish =>
    simp only [step, finish]
    split
    · split
      · exact Or.inl rfl
      · split <;> exact Or.inl rfl
    · exact Or.inl rfl
  | submit =>
    simp only [step]
    split <;> exact Or.inl rfl
  | answer outcome => exact Or.inl rfl
  | advance => exact Or.inl (advance_queued w)
  | stackReceive =>
    simp only [step]
    split <;> exact Or.inl rfl
  | stackTransmit frame =>
    simp only [step]
    split
    · exact Or.inl rfl
    · next h => exact Or.inr ⟨frame, rfl, (Q.transmit_some _ _ _ h).2.2⟩

theorem step_queued_grows (w : World Q) (e : Event) : w.queued <+: (step w e).queued := by
  rcases step_queued w e with h | ⟨frame, h, _⟩
  · exact ⟨[], by rw [h, List.append_nil]⟩
  · exact ⟨[frame], h.symm⟩

/-- What a step does to what the stack takes and what waits for it. -/
inductive Inflow (w v : World Q) : Prop
  | same (taken : v.taken = w.taken) (queue : Q.rxQueue v.queues = Q.rxQueue w.queues)
  | committed (frame : Bytes) (taken : v.taken = w.taken)
      (queue : Q.rxQueue v.queues = Q.rxQueue w.queues ++ [frame])
  | taken (frame : Bytes) (taken : v.taken = w.taken ++ [frame])
      (queue : Q.rxQueue w.queues = frame :: Q.rxQueue v.queues)

theorem deliver_inflow {w : World Q} (he : enabled w .deliver) :
    ∃ frame, (step w .deliver).taken = w.taken ∧
      Q.rxQueue (step w .deliver).queues = Q.rxQueue w.queues ++ [frame] := by
  obtain ⟨⟨frame, rest, n, hrx⟩, hslot⟩ := he
  simp only [step, hrx]
  exact ⟨_, rfl, Q.rxQueue_rxDone _ _ _ hslot⟩

theorem stackReceive_inflow {w : World Q} (h : Q.receive w.queues ≠ none) :
    ∃ frame, (step w .stackReceive).taken = w.taken ++ [frame] ∧
      Q.rxQueue w.queues = frame :: Q.rxQueue (step w .stackReceive).queues := by
  obtain ⟨⟨frame, q⟩, hsome⟩ := Option.ne_none_iff_exists'.mp h
  simp only [step, hsome]
  exact ⟨frame, rfl, (Q.receive_some _ _ _ hsome).1⟩

theorem step_inflow {w : World Q} {e : Event} (he : enabled w e) : Inflow w (step w e) := by
  cases e with
  | issue now =>
    simp only [step, issue]
    split <;> exact .same rfl rfl
  | complete transfer now => cases transfer <;> exact .same rfl rfl
  | deliver =>
    obtain ⟨frame, htaken, hqueue⟩ := deliver_inflow he
    exact .committed frame htaken hqueue
  | finish =>
    simp only [step, finish]
    split
    · split
      · exact .same rfl rfl
      · split <;> exact .same rfl rfl
    · exact .same rfl rfl
  | submit =>
    simp only [step]
    split <;> exact .same rfl rfl
  | answer outcome => exact .same rfl rfl
  | advance =>
    simp only [step, advance]
    split
    · exact .same rfl rfl
    · exact .same rfl rfl
    · exact .same rfl rfl
    · exact .same rfl (Q.rxQueue_txDone _)
    · exact .same rfl rfl
  | stackReceive =>
    by_cases h : Q.receive w.queues = none
    · simp only [step, h]
      exact .same rfl rfl
    · obtain ⟨frame, htaken, hqueue⟩ := stackReceive_inflow h
      exact .taken frame htaken hqueue
  | stackTransmit frame =>
    simp only [step]
    split
    · exact .same rfl rfl
    · next h => exact .same rfl (Q.transmit_some _ _ _ h).2.1

/-! ### The loops left to themselves -/

section Loops
variable {τ : Trace (ethernet Q)}

theorem trace_kept (hstart : Kept (τ.state 0)) (n : Nat) : Kept (τ.state n) :=
  τ.always hstart (fun _ e hw he => step_kept hw e he) n

theorem trace_queued_grows {n k : Nat} (hnk : n ≤ k) :
    (τ.state n).queued <+: (τ.state k).queued := by
  refine τ.holds (P := fun w => (τ.state n).queued <+: w.queued) List.prefix_rfl ?_ k hnk
  exact fun j e _ ih _ _ => ih.trans (step_queued_grows (τ.state j) e)

theorem trace_handed_grows {n k : Nat} (hnk : n ≤ k) :
    handed (τ.state n).calls <+: handed (τ.state k).calls := by
  refine τ.holds (P := fun w => handed (τ.state n).calls <+: handed w.calls) List.prefix_rfl ?_ k
    hnk
  intro j e _ ih _ _
  refine ih.trans ?_
  rw [show handed ((ethernet Q).step _ e).calls = _ from step_handed (τ.state j) e]
  exact List.prefix_append _ _

/-- The frames queued by now will all have been released. -/
theorem queued_leadsTo_released (hstart : Kept (τ.state 0))
    (htransmit : τ.WeaklyFair Event.OfTransmit) (n : Nat) :
    LeadsTo (fun k => n ≤ (τ.state k).queued.length)
      fun k => n ≤ releases (τ.state k).calls := by
  -- What has been queued stays queued; `pending` falls until `n` have been released.
  have hstep : ∀ k e, n ≤ (τ.state k).queued.length ∧ releases (τ.state k).calls < n →
      τ.label k = some e → n ≤ releases (τ.state (k + 1)).calls ∨
        n ≤ (τ.state (k + 1)).queued.length ∧ releases (τ.state (k + 1)).calls < n := by
    rintro k e ⟨hqueued, _⟩ _
    rcases Nat.lt_or_ge (releases (τ.state (k + 1)).calls) n with hlt | hge
    · exact Or.inr ⟨hqueued.trans (trace_queued_grows (Nat.le_succ k)).length_le, hlt⟩
    · exact Or.inl hge
  have hwaits : LeadsTo
      (fun k => n ≤ (τ.state k).queued.length ∧ releases (τ.state k).calls < n)
      fun k => n ≤ releases (τ.state k).calls := by
    refine LeadsTo.measure (fun k => pending n (τ.state k)) fun r => ?_
    refine htransmit.descends (P := fun w => n ≤ w.queued.length ∧ releases w.calls < n)
      (f := pending n) ?_ ?_ ?_
    · rintro k ⟨hqueued, hlt⟩ _
      exact transmit_offered (trace_kept hstart k).outbound (hlt.trans_le hqueued)
    · intro k e hP he
      obtain ⟨hen, hs⟩ := τ.moves k e he
      refine (hstep k e hP he).imp Or.inr fun hnext => ⟨hnext, ?_⟩
      rw [hs]
      exact step_pending_le hP.2 hen
    · intro k e hturn hP _ he
      obtain ⟨hen, hs⟩ := τ.moves k e he
      refine (hstep k e hP he).imp Or.inr fun hnext => ⟨hnext, ?_⟩
      rw [hs]
      exact transmits_pending hP.2 hturn hen
  intro k hqueued
  rcases Nat.lt_or_ge (releases (τ.state k).calls) n with hlt | hge
  · exact hwaits k ⟨hqueued, hlt⟩
  · exact ⟨k, le_rfl, hge⟩

/-- A full transmit queue takes no more, so the releases owed make room in it. -/
theorem room_recurs (hstart : Kept (τ.state 0)) (htransmit : τ.WeaklyFair Event.OfTransmit)
    (hdepth : 0 < Q.depthTx) (n : Nat) :
    ∃ k, n ≤ k ∧ (Q.txQueue (τ.state k).queues).length < Q.depthTx := by
  by_contra hnone
  have hfull : ∀ k, n ≤ k → ¬ (Q.txQueue (τ.state k).queues).length < Q.depthTx :=
    fun k hk hroom => hnone ⟨k, hk, hroom⟩
  have hsame : ∀ k, n ≤ k → (τ.state k).queued = (τ.state n).queued := by
    refine τ.holds (P := fun w => w.queued = (τ.state n).queued) rfl fun k e hk ih _ _ => ?_
    rcases step_queued (τ.state k) e with h | ⟨_, _, hroom⟩
    · exact h.trans ih
    · exact absurd hroom (hfull k hk)
  obtain ⟨k, hk, hreleased⟩ := queued_leadsTo_released hstart htransmit _ n le_rfl
  have hlen := queued_length (trace_kept hstart k).outbound
  rw [hsame k hk] at hlen
  exact hfull k hk (by omega)

/-- The stack's next frame is committed: the receive loop has it and finds a slot free. -/
theorem handed_leadsTo_committed (hQ : Serving Q) (hstart : Kept (τ.state 0))
    (hdeliver : τ.WeaklyFair (· = .deliver)) (n : Nat) :
    LeadsTo
      (fun k => (n < (handed (τ.state k).calls).length ∧ (τ.state k).taken.length = n) ∧
        Q.rxQueue (τ.state k).queues = [])
      fun k => (τ.state k).taken.length = n ∧ Q.rxQueue (τ.state k).queues ≠ [] := by
  refine hdeliver.leadsTo
    (P := fun w => (n < (handed w.calls).length ∧ w.taken.length = n) ∧
      Q.rxQueue w.queues = []) ?_ ?_ ?_
  · rintro k ⟨⟨hhanded, htaken⟩, hempty⟩
    refine ⟨.deliver, rfl, ?_, ?_⟩
    · have hin := (trace_kept hstart k).inbound
      have hdrained := congrArg List.length hin.drained
      rw [← hin.fifo, hempty] at hdrained
      cases hrx : (τ.state k).rx with
      | delivering frames m =>
        cases frames with
        | cons frame rest => exact ⟨frame, rest, m, rfl⟩
        | nil =>
          simp only [hrx, Rx.left, List.map_nil, List.append_nil, List.length_map] at hdrained
          omega
      | next | receiving =>
        simp only [hrx, Rx.left, List.map_nil, List.append_nil, List.length_map] at hdrained
        omega
    · rw [Q.tryRxBuf_iff, hempty]
      exact hQ.depthRx
  · rintro k e ⟨⟨hhanded, htaken⟩, hempty⟩ he
    obtain ⟨hen, hs⟩ := τ.moves k e he
    have hmore := hhanded.trans_le (trace_handed_grows (Nat.le_succ k)).length_le
    have hflow := step_inflow hen
    rw [show step (τ.state k) e = τ.state (k + 1) from hs.symm] at hflow
    cases hflow with
    | same hsame hqueue =>
      exact Or.inl ⟨⟨hmore, hsame ▸ htaken⟩, hqueue.trans hempty⟩
    | committed frame hsame hqueue =>
      refine Or.inr (Or.inr ⟨hsame ▸ htaken, ?_⟩)
      simp [hqueue]
    | taken frame _ hqueue => cases hempty.symm.trans hqueue
  · rintro k e rfl ⟨⟨_, htaken⟩, _⟩ he
    obtain ⟨hen, hs⟩ := τ.moves k _ he
    obtain ⟨frame, hsame, hqueue⟩ := deliver_inflow hen
    rw [show step (τ.state k) .deliver = τ.state (k + 1) from hs.symm] at hsame hqueue
    refine Or.inr ⟨hsame ▸ htaken, ?_⟩
    simp [hqueue]

/-- The stack takes what is committed: it is held up only while the transmit queue is full. -/
theorem committed_leadsTo_taken (hQ : Serving Q) (hstart : Kept (τ.state 0))
    (htransmit : τ.WeaklyFair Event.OfTransmit)
    (hstack : τ.StronglyFair (fun w => Q.receive w.queues ≠ none) .stackReceive) (n : Nat) :
    LeadsTo (fun k => (τ.state k).taken.length = n ∧ Q.rxQueue (τ.state k).queues ≠ [])
      fun k => n < (τ.state k).taken.length := by
  have hkeeps : ∀ k e, (τ.state k).taken.length = n ∧ Q.rxQueue (τ.state k).queues ≠ [] →
      τ.label k = some e →
      ((τ.state (k + 1)).taken.length = n ∧ Q.rxQueue (τ.state (k + 1)).queues ≠ []) ∨
        n < (τ.state k).taken.length ∨ n < (τ.state (k + 1)).taken.length := by
    rintro k e ⟨htaken, hwaiting⟩ he
    obtain ⟨hen, hs⟩ := τ.moves k e he
    have hflow := step_inflow hen
    rw [show step (τ.state k) e = τ.state (k + 1) from hs.symm] at hflow
    cases hflow with
    | same hsame hqueue => exact Or.inl ⟨hsame ▸ htaken, hqueue ▸ hwaiting⟩
    | committed frame hsame hqueue =>
      refine Or.inl ⟨hsame ▸ htaken, ?_⟩
      simp [hqueue]
    | taken frame htaken' _ =>
      refine Or.inr (Or.inr ?_)
      rw [htaken', List.length_append, htaken]
      exact Nat.lt_succ_self n
  refine hstack.leadsTo
    (P := fun w => w.taken.length = n ∧ Q.rxQueue w.queues ≠ []) ?_ hkeeps ?_
  · intro k hP
    by_cases hQk : ∃ l, k ≤ l ∧ n < (τ.state l).taken.length
    · obtain ⟨l, hkl, hl⟩ := hQk
      exact ⟨l, hkl, Or.inl hl⟩
    · obtain ⟨l, hkl, hroom⟩ := room_recurs hstart htransmit hQ.depthTx k
      have hl := τ.stays (P := fun w => w.taken.length = n ∧ Q.rxQueue w.queues ≠ [])
        hkeeps hP hQk l hkl
      exact ⟨l, hkl, Or.inr ⟨hQ.receive _ hl.2 hroom, trivial⟩⟩
  · rintro k ⟨htaken, _⟩ hreceive he
    obtain ⟨frame, htaken', _⟩ := stackReceive_inflow hreceive
    have hs : τ.state (k + 1) = step (τ.state k) .stackReceive := (τ.moves k _ he).2
    refine Or.inr ?_
    rw [hs, htaken', List.length_append, htaken]
    exact Nat.lt_succ_self n

/-- The frames handed over by now will all have been taken, one after the other. -/
theorem handed_leadsTo_taken (hQ : Serving Q) (hstart : Kept (τ.state 0))
    (htransmit : τ.WeaklyFair Event.OfTransmit) (hdeliver : τ.WeaklyFair (· = .deliver))
    (hstack : τ.StronglyFair (fun w => Q.receive w.queues ≠ none) .stackReceive) (n : Nat) :
    LeadsTo (fun k => n ≤ (handed (τ.state k).calls).length)
      fun k => n ≤ (τ.state k).taken.length := by
  induction n with
  | zero => exact fun k _ => ⟨k, le_rfl, Nat.zero_le _⟩
  | succ n ih =>
    intro k hhanded
    obtain ⟨l, hkl, htaken⟩ := ih k (Nat.le_of_succ_le hhanded)
    have hmore := hhanded.trans (trace_handed_grows hkl).length_le
    have htake := committed_leadsTo_taken hQ hstart htransmit hstack n
    rcases Nat.lt_or_ge n (τ.state l).taken.length with hlt | hge
    · exact ⟨l, hkl, hlt⟩
    · have hn : (τ.state l).taken.length = n := le_antisymm hge htaken
      by_cases hempty : Q.rxQueue (τ.state l).queues = []
      · obtain ⟨m, hlm, hm⟩ := (handed_leadsTo_committed hQ hstart hdeliver n).trans htake l
          ⟨⟨hmore, hn⟩, hempty⟩
        exact ⟨m, hkl.trans hlm, hm⟩
      · obtain ⟨m, hlm, hm⟩ := htake l ⟨hn, hempty⟩
        exact ⟨m, hkl.trans hlm, hm⟩

/-- Released, that is, in the order in which they were queued. -/
theorem queued_released (hstart : Kept (τ.state 0)) (htransmit : τ.WeaklyFair Event.OfTransmit)
    (n : Nat) : ∃ k, n ≤ k ∧ (τ.state n).queued <+:
      (sends (τ.state k).calls).take (releases (τ.state k).calls) := by
  obtain ⟨k, hk, hreleased⟩ := queued_leadsTo_released hstart htransmit _ n le_rfl
  have hout := (trace_kept hstart k).outbound
  have hqueued := trace_queued_grows (τ := τ) hk
  rw [queued_eq_released hout] at hqueued
  refine ⟨k, hk, List.prefix_of_prefix_length_le hqueued (List.prefix_append _ _) ?_⟩
  rw [List.length_take, hout.sends, Nat.min_eq_left (Nat.le_add_right _ _)]
  exact hreleased

/-- Taken, that is, in the order in which the transfers carried them. -/
theorem handed_taken (hQ : Serving Q) (hstart : Kept (τ.state 0))
    (htransmit : τ.WeaklyFair Event.OfTransmit) (hdeliver : τ.WeaklyFair (· = .deliver))
    (hstack : τ.StronglyFair (fun w => Q.receive w.queues ≠ none) .stackReceive) (n : Nat) :
    ∃ k, n ≤ k ∧ (handed (τ.state n).calls).map (fitted Q) <+: (τ.state k).taken := by
  obtain ⟨k, hk, htaken⟩ := handed_leadsTo_taken hQ hstart htransmit hdeliver hstack _ n le_rfl
  have hhanded := (trace_handed_grows (τ := τ) hk).map (fitted Q)
  have hin := (trace_kept hstart k).inbound
  rw [← hin.drained, ← hin.fifo, List.append_assoc] at hhanded
  refine ⟨k, hk, List.prefix_of_prefix_length_le hhanded (List.prefix_append _ _) ?_⟩
  rw [List.length_map]
  exact htaken

end Loops

/-! ### Within the run -/

theorem running_step {s : Runner Q} {e : RunEvent} (hs : s.stage = .running)
    (he : s.enabled e) : ∃ i, e = .loop i ∧ enabled s.world i ∧ (s.step e).stage = .running ∧
      (s.step e).world = step s.world i := by
  cases e with
  | started result now => exact Stage.noConfusion (hs.symm.trans (he : s.stage = .starting))
  | allMulticastSet result now =>
    exact Stage.noConfusion (hs.symm.trans (he : s.stage = .settingMulticast))
  | linkUp answer now =>
    obtain ⟨deadline, hwaiting⟩ := he
    exact Stage.noConfusion (hs.symm.trans hwaiting)
  | loop i => exact ⟨i, rfl, he.1, hs, rfl⟩

def RunEvent.loop? : RunEvent → Option Event
  | .loop i => some i
  | _ => none

theorem trace_running {τ : Trace (ethernetRun Q)} {n : Nat} (hn : (τ.state n).stage = .running)
    (k : Nat) : (τ.state (n + k)).stage = .running := by
  induction k with
  | zero => exact hn
  | succ k ih =>
    rw [← Nat.add_assoc]
    cases hi : τ.label (n + k) with
    | none => rwa [τ.rests _ hi]
    | some e =>
      obtain ⟨he, hs⟩ := τ.moves _ e hi
      obtain ⟨_, _, _, hrunning, _⟩ := running_step ih he
      rw [hs]
      exact hrunning

/-- The frame loops from position `n` on, where they have been joined. -/
def loops (τ : Trace (ethernetRun Q)) (n : Nat) (hn : (τ.state n).stage = .running) :
    Trace (ethernet Q) where
  state k := (τ.state (n + k)).world
  label k := (τ.label (n + k)).bind RunEvent.loop?
  rests k hk := by
    cases hi : τ.label (n + k) with
    | none => rw [← Nat.add_assoc, τ.rests _ hi]
    | some e =>
      obtain ⟨i, rfl, _⟩ := running_step (trace_running hn k) (τ.moves _ e hi).1
      rw [hi] at hk
      cases hk
  moves k i hk := by
    obtain ⟨e, hi, he⟩ := Option.bind_eq_some_iff.mp hk
    obtain ⟨hen, hs⟩ := τ.moves _ e hi
    obtain ⟨j, rfl, hj, _, hstep⟩ := running_step (trace_running hn k) hen
    obtain rfl : j = i := Option.some.inj he
    rw [← Nat.add_assoc, hs]
    exact ⟨hj, hstep⟩

theorem loops_weaklyFair {τ : Trace (ethernetRun Q)} {n : Nat}
    (hn : (τ.state n).stage = .running) {A : Event → Prop}
    (hfair : τ.WeaklyFair fun e => ∃ i, e = .loop i ∧ A i) : (loops τ n hn).WeaklyFair A := by
  intro m hoffered
  have hshift : ∀ k, n + m ≤ k → n + (k - n) = k := fun k hk =>
    Nat.add_sub_cancel' (Nat.le_of_add_right_le hk)
  obtain ⟨k, e, hk, ⟨i, rfl, hA⟩, hi⟩ := hfair (n + m) fun k hk => by
    obtain ⟨i, hA, hi⟩ := hoffered (k - n) (by omega)
    have hrunning := trace_running hn (k - n)
    have hen : enabled (τ.state (n + (k - n))).world i := hi
    rw [hshift k hk] at hen hrunning
    exact ⟨.loop i, ⟨i, rfl, hA⟩, hen, Or.inl hrunning⟩
  refine ⟨k - n, i, by omega, hA, ?_⟩
  show (τ.label (n + (k - n))).bind RunEvent.loop? = some i
  rw [hshift k hk, hi]
  rfl

theorem loops_stronglyFair {τ : Trace (ethernetRun Q)} {n : Nat}
    (hn : (τ.state n).stage = .running) {P : World Q → Prop} {i : Event}
    (hfair : τ.StronglyFair (fun s => P s.world) (.loop i)) :
    (loops τ n hn).StronglyFair P i := by
  intro m hrecurs
  have hshift : ∀ k, n + m ≤ k → n + (k - n) = k := fun k hk =>
    Nat.add_sub_cancel' (Nat.le_of_add_right_le hk)
  obtain ⟨k, hk, hP, hi⟩ := hfair (n + m) fun k hk => by
    obtain ⟨l, hl, hP, hen⟩ := hrecurs (k - n) (by omega)
    exact ⟨n + l, by omega, hP, hen, Or.inl (trace_running hn l)⟩
  refine ⟨k - n, by omega, ?_, ?_⟩
  · show P (τ.state (n + (k - n))).world
    rwa [hshift k hk]
  · show (τ.label (n + (k - n))).bind RunEvent.loop? = some i
    rw [hshift k hk, hi]
    rfl

/-- Once the frame loops run, with either loop polled, every submission answered and a stack
that time and again takes a frame it can be given: what the stack has queued by now will
have been submitted and released, and what the transfers have carried by now will have
been taken, each cut to a slot, in order. -/
theorem frames_get_through (hQ : Serving Q) (r : EthernetRunner Q)
    (hfresh : Q.rxQueue r.runner = []) (code : UInt8) (τ : Trace (ethernetRun Q))
    (hstart : τ.state 0 = run r code)
    (htransmit : τ.WeaklyFair fun e => ∃ i : Event, e = .loop i ∧ i.OfTransmit)
    (hdeliver : τ.WeaklyFair (· = .loop .deliver))
    (hstack : τ.StronglyFair (fun s => Q.receive s.world.queues ≠ none) (.loop .stackReceive))
    (n : Nat) (hn : (τ.state n).stage = .running) :
    (∃ k, n ≤ k ∧ (τ.state n).world.queued <+:
      (sends (τ.state k).world.calls).take (releases (τ.state k).world.calls)) ∧
    ∃ k, n ≤ k ∧ (handed (τ.state n).world.calls).map (fitted Q) <+: (τ.state k).world.taken := by
  have hreached : Kept ((loops τ n hn).state 0) := by
    obtain ⟨es, hes⟩ := τ.reached n
    exact ethernetRun_kept hfresh (hstart ▸ hes)
  have htransmit := loops_weaklyFair hn htransmit
  have hdeliver := loops_weaklyFair hn (A := (· = .deliver)) (by simpa using hdeliver)
  have hstack := loops_stronglyFair hn (P := fun w => Q.receive w.queues ≠ none) hstack
  constructor
  · obtain ⟨k, _, hreleased⟩ := queued_released hreached htransmit 0
    exact ⟨n + k, Nat.le_add_right n k, hreleased⟩
  · obtain ⟨k, _, htaken⟩ := handed_taken hQ hreached htransmit hdeliver hstack 0
    exact ⟨n + k, Nat.le_add_right n k, htaken⟩

def slotEach : EthernetRunner (fifoChannel mtu 1 1) :=
  attach ⟨[], [], .down⟩ ⟨mtu⟩ (.new (Vector.replicate 6 2))

/-- Two frames of one transfer for the one slot, while a reply holds the other. -/
def crossing : List RunEvent :=
  [.started (.ok ()) 0, .linkUp (.ok true) 0, .loop (.stackTransmit [9]), .loop (.issue 0),
    .loop (.complete (.ok [[1], [2, 3]]) 5), .loop .deliver, .loop .stackReceive, .loop .submit,
    .loop (.answer (.ok ())), .loop .advance, .loop .advance, .loop .stackReceive,
    .loop .deliver, .loop .stackReceive, .loop .finish]

theorem frames_get_through_one_slot :
    ∃ τ : Trace (ethernetRun (fifoChannel mtu 1 1)), τ.state 0 = run slotEach noError ∧
      (τ.state 5).world.queued = [[9]] ∧ handed (τ.state 5).world.calls = [[1], [2, 3]] ∧
      (∃ k, 5 ≤ k ∧ [[9]] <+:
        (sends (τ.state k).world.calls).take (releases (τ.state k).world.calls)) ∧
      ∃ k, 5 ≤ k ∧ [[1], [2, 3]] <+: (τ.state k).world.taken := by
  have hallowed : (ethernetRun (fifoChannel mtu 1 1)).Allowed (run slotEach noError) crossing :=
    ⟨rfl, ⟨_, rfl⟩, ⟨trivial, Or.inl rfl⟩, ⟨rfl, Or.inl rfl⟩, ⟨rfl, Or.inl rfl⟩,
      ⟨⟨⟨_, _, _, rfl⟩, rfl⟩, Or.inl rfl⟩, ⟨trivial, Or.inl rfl⟩, ⟨⟨rfl, _, rfl⟩, Or.inl rfl⟩,
      ⟨rfl, Or.inl rfl⟩, ⟨⟨Tx.noConfusion, Tx.noConfusion⟩, Or.inl rfl⟩,
      ⟨⟨Tx.noConfusion, Tx.noConfusion⟩, Or.inl rfl⟩, ⟨trivial, Or.inl rfl⟩,
      ⟨⟨⟨_, _, _, rfl⟩, rfl⟩, Or.inl rfl⟩, ⟨trivial, Or.inl rfl⟩, ⟨⟨_, rfl⟩, Or.inl rfl⟩, trivial⟩
  let τ := Trace.resting _ _ crossing hallowed
  -- It rests with both loops back where they await the chip and the stack.
  have htransmit : τ.WeaklyFair fun e => ∃ i : Event, e = .loop i ∧ i.OfTransmit := by
    refine Trace.resting_weaklyFair hallowed ?_
    rintro e ⟨i, rfl, outcome, rfl | rfl | rfl⟩ ⟨hen, _⟩
    · obtain ⟨_, frame, hhead⟩ := hen
      cases (hhead : none = some frame)
    · cases (hen : Tx.idle = .sending)
    · exact hen.1 rfl
  have hdeliver : τ.WeaklyFair (· = .loop .deliver) := by
    refine Trace.resting_weaklyFair hallowed ?_
    rintro e rfl ⟨⟨⟨frame, rest, n, hrx⟩, _⟩, _⟩
    cases (hrx : Rx.next = .delivering (frame :: rest) n)
  have hstack : τ.StronglyFair
      (fun s => (fifoChannel mtu 1 1).receive s.world.queues ≠ none) (.loop .stackReceive) :=
    Trace.resting_stronglyFair hallowed fun h => h rfl
  have h := frames_get_through (fifoChannel_serving (by decide) (by decide)) slotEach rfl
    noError τ rfl htransmit hdeliver hstack 5 rfl
  exact ⟨τ, rfl, rfl, rfl, h⟩

end RpiHalEmbassy.Ethernet
