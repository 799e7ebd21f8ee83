import RpiHalEmbassy.Ethernet.Runner

/-!
# The receive side

Everything about `receive_forever` is in where it stands, when its last transfer
completed, its statics and its own calls. Only four of the events move any of these,
so what is kept by those four is kept by every step.
-/

namespace RpiHalEmbassy.Ethernet
open Machines Net

variable {Q : Channel}

structure RxStats where
  frames : UInt32
  unusable : UInt32
  batched : UInt32
  failures : UInt32
  lastError : Option TransferError
  gapMaxUs : UInt32
  gapsLong : UInt32

def rxStats (s : Statics) : RxStats where
  frames := s.rxFrames
  unusable := s.rxUnusable
  batched := s.rxBatched
  failures := s.rxFailures
  lastError := errorFromCode s.rxLastError
  gapMaxUs := s.gapMaxUs
  gapsLong := s.gapLong

@[simp]
def Call.byReceive : Call → Bool
  | .now _ => true
  | .receiveFrames => true
  | .received _ => true
  | .rxDone _ => true
  | _ => false

def rxCalls (calls : List Call) : List Call := calls.filter Call.byReceive

@[simp] theorem rxCalls_append (k l : List Call) : rxCalls (k ++ l) = rxCalls k ++ rxCalls l :=
  List.filter_append ..

@[simp] theorem rxCalls_nil : rxCalls [] = [] := rfl

@[simp] theorem rxCalls_cons (call : Call) (l : List Call) :
    rxCalls (call :: l) = if call.byReceive then call :: rxCalls l else rxCalls l := by
  rw [rxCalls, List.filter_cons, rxCalls]

@[simp] theorem commits_rxCalls (calls : List Call) : commits (rxCalls calls) = commits calls := by
  rw [commits, rxCalls, List.filterMap_filter]
  apply List.filterMap_congr
  intro call _
  cases call <;> rfl

@[simp] theorem transfers_rxCalls (calls : List Call) :
    transfers (rxCalls calls) = transfers calls := by
  rw [transfers, rxCalls, List.filterMap_filter]
  apply List.filterMap_congr
  intro call _
  cases call <;> rfl

structure RxSide where
  rx : Rx
  completedAt : Option UInt64
  stats : RxStats
  calls : List Call

@[simps]
def World.rxSide (w : World Q) : RxSide where
  rx := w.rx
  completedAt := w.completedAt
  stats := rxStats w.statics
  calls := rxCalls w.calls

theorem advance_rxSide (w : World Q) : (advance w).rxSide = w.rxSide := by
  unfold advance
  split
  · next outcome _ => cases outcome <;> rfl
  · rfl
  · rfl
  · simp [World.rxSide]
  · rfl

theorem step_rxSide {P : RxSide → Prop} {w : World Q} {e : Event} (he : enabled w e)
    (hw : P w.rxSide) (hissue : ∀ now, w.rx = .next → P (issue now w).rxSide)
    (hcomplete : ∀ transfer now, w.rx = .receiving → P (complete transfer now w).rxSide)
    (hdeliver : ∀ frame rest n, w.rx = .delivering (frame :: rest) n →
      P (deliver frame rest n w).rxSide)
    (hfinish : ∀ n, w.rx = .delivering [] n → P (finish n w).rxSide) :
    P (step w e).rxSide := by
  cases e with
  | issue now => exact hissue now he
  | complete transfer now => exact hcomplete transfer now he
  | deliver =>
    obtain ⟨⟨frame, rest, n, hrx⟩, _⟩ := he
    simp only [step, hrx]
    exact hdeliver frame rest n hrx
  | finish =>
    obtain ⟨n, hrx⟩ := he
    simp only [step, hrx]
    exact hfinish n hrx
  | submit =>
    obtain ⟨_, frame, hhead⟩ := he
    simp only [step, hhead]
    simpa [submit, World.rxSide] using hw
  | answer outcome => simpa [step, answer, World.rxSide] using hw
  | advance => exact (advance_rxSide w).symm ▸ hw
  | stackReceive =>
    simp only [step]
    split
    · exact hw
    · exact hw
  | stackTransmit frame =>
    simp only [step]
    split
    · exact hw
    · exact hw

end RpiHalEmbassy.Ethernet
