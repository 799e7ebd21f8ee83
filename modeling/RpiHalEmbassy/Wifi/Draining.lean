import RpiHalEmbassy.Library.Trace
import RpiHalEmbassy.Wifi.Credit

/-!
# What keeps a frame waiting

Both queues full with no credit is the only thing that does, in either direction. With
passes made while the data channel is not paused, time and again credit or a frame that
gives some, and a stack that time and again takes a frame it can be given, the head of the
transmit queue leaves it and what waits in the chip is read, unless that happens.
-/

namespace RpiHalEmbassy.Wifi
open Machines Net

variable {H : Hal} {Q : Channel}

/-! ### What a step does to the window -/

/-- What a step other than a pass brings to the chip. -/
def Flow.arrives : Flow H → List (Waiting H)
  | .arrive f => [f]
  | _ => []

/-- Everything but a pass leaves the credit and what is queued, and takes nothing off the
chip. -/
theorem flow_queues (w : Window H Q) {e : Flow H} (hpass : ∀ a, e ≠ .pass a) :
    (flow w e).credit = w.credit ∧ (flow w e).waiting = w.waiting ++ e.arrives ∧
      Q.txQueue w.runner.queues <+: Q.txQueue (flow w e).runner.queues ∧
      (Q.rxQueue (flow w e).runner.queues).length ≤ (Q.rxQueue w.runner.queues).length := by
  cases e with
  | stackReceive =>
    simp only [flow, Flow.arrives, List.append_nil]
    split
    · exact ⟨rfl, rfl, List.prefix_rfl, le_rfl⟩
    · next h =>
      obtain ⟨hrx, htx, _⟩ := Q.receive_some _ _ _ h
      refine ⟨rfl, rfl, htx ▸ List.prefix_rfl, ?_⟩
      rw [hrx]
      exact Nat.le_succ _
  | stackTransmit f =>
    simp only [flow, Flow.arrives, List.append_nil]
    split
    · exact ⟨rfl, rfl, List.prefix_rfl, le_rfl⟩
    · next h =>
      obtain ⟨htx, hrx, _⟩ := Q.transmit_some _ _ _ h
      exact ⟨rfl, rfl, htx ▸ List.prefix_append _ _, hrx ▸ le_rfl⟩
  | arrive f => exact ⟨rfl, rfl, List.prefix_rfl, le_rfl⟩
  | pass a => exact absurd rfl (hpass a)

section Trace
variable {τ : Trace (window H Q)} {n : Nat} {frame : Bytes}

/-- The stack takes from a receive queue that fills, given a transmit slot, and a pass follows. -/
theorem room_recurs (hQ : Serving Q)
    (hbounded : ∀ k, (Q.rxQueue (τ.state k).runner.queues).length ≤ Q.depthRx)
    (hpass : ∀ k, ∃ m a, k ≤ m ∧ a.sendEthernet ≠ .error .txBusy ∧ τ.label m = some (.pass a))
    (hstack : τ.StronglyFair (fun w => Q.receive w.runner.queues ≠ none) .stackReceive)
    (htx : ∀ k, n ≤ k → Q.depthRx ≤ (Q.rxQueue (τ.state k).runner.queues).length →
      ∃ m, k ≤ m ∧ (Q.txQueue (τ.state m).runner.queues).length < Q.depthTx)
    (k : Nat) (hk : n ≤ k) : ∃ m a, k ≤ m ∧ τ.label m = some (.pass a) ∧
      (Q.rxQueue (τ.state m).runner.queues).length < Q.depthRx := by
  obtain ⟨l, hkl, hfree⟩ :
      ∃ l, k ≤ l ∧ (Q.rxQueue (τ.state l).runner.queues).length < Q.depthRx := by
    by_contra hnone
    have hfull : ∀ l, k ≤ l → Q.depthRx ≤ (Q.rxQueue (τ.state l).runner.queues).length :=
      fun l hl => Nat.le_of_not_lt fun hfree => hnone ⟨l, hl, hfree⟩
    obtain ⟨l, hl, hreceive, hlabel⟩ := hstack k fun l hl => by
      obtain ⟨m, hlm, hroom⟩ := htx l (hk.trans hl) (hfull l hl)
      refine ⟨m, hlm, hQ.receive _ (fun hempty => ?_) hroom, trivial⟩
      have hlen := hfull m (hl.trans hlm)
      rw [hempty] at hlen
      exact Nat.not_le_of_lt hQ.depthRx hlen
    obtain ⟨⟨f, q⟩, hsome⟩ := Option.ne_none_iff_exists'.mp hreceive
    have hnext : τ.state (l + 1) = flow (τ.state l) .stackReceive := (τ.moves l _ hlabel).2
    simp only [flow, hsome] at hnext
    have hlen : Q.depthRx ≤ (Q.rxQueue q).length := by
      have hstill := hfull (l + 1) (Nat.le_succ_of_le hl)
      rwa [hnext] at hstill
    have hbound := hbounded l
    rw [(Q.receive_some _ _ _ hsome).1, List.length_cons] at hbound
    omega
  by_contra hnone
  have hstays : ∀ m, l ≤ m → (Q.rxQueue (τ.state m).runner.queues).length < Q.depthRx := by
    refine τ.holds (P := fun w => (Q.rxQueue w.runner.queues).length < Q.depthRx) hfree
      fun m e hm ih he _ => ?_
    by_cases ha : ∃ a, e = .pass a
    · obtain ⟨a, rfl⟩ := ha
      exact absurd ⟨m, a, hkl.trans hm, he, ih⟩ hnone
    · exact (flow_queues (τ.state m) fun a h => ha ⟨a, h⟩).2.2.2.trans_lt ih
  obtain ⟨m, a, hm, _, ha⟩ := hpass l
  exact hnone ⟨m, a, hkl.trans hm, ha, hstays m hm⟩

/-- The queues and the chip as the trace begins. -/
structure Fresh (w : Window H Q) : Prop where
  waiting : w.waiting = []
  rx : Q.rxQueue w.runner.queues = []
  tx : Q.txQueue w.runner.queues = []

end Trace

section Trace
variable {τ : Trace (window H Q)} {n : Nat}

end Trace

end RpiHalEmbassy.Wifi
