import RpiHalEmbassy.Library.Log
import RpiHalEmbassy.Wifi.Runner

/-!
# Reading a trace

The calls of one kind in a trace, in order, and which parts of a pass make them.
Every part reads the clock and makes calls of a kind of its own.
-/

namespace RpiHalEmbassy.Wifi
open Net

variable {H : Hal} {Q : Channel}

@[simp] def Call.linkState? : Call H → Option LinkState
  | .setLinkState l => some l
  | _ => none

@[simp] def Call.bssid? : Call H → Option (Result H (Option Bytes))
  | .bssid answer => some answer
  | _ => none

@[simp] def Call.startJoin? : Call H → Option (Result H Unit)
  | .startJoin _ _ answer => some answer
  | _ => none

@[simp] def Call.counters? : Call H → Option (Result H H.Counters)
  | .counters answer => some answer
  | _ => none

@[simp] def Call.now? : Call H → Option Nat
  | .now reading => some reading
  | _ => none

abbrev readings (calls : List (Call H)) : List Nat := calls.filterMap Call.now?
abbrev linkStates (calls : List (Call H)) : List LinkState := calls.filterMap Call.linkState?
abbrev bssids (calls : List (Call H)) : List (Result H (Option Bytes)) :=
  calls.filterMap Call.bssid?
abbrev countersRead (calls : List (Call H)) : List (Result H H.Counters) :=
  calls.filterMap Call.counters?
abbrev startJoins (calls : List (Call H)) : List (Result H Unit) :=
  calls.filterMap Call.startJoin?

inductive Kind where
  | clock
  | receive
  | transmit
  | sample
  | watch
  | counters
  deriving DecidableEq

def Call.kind : Call H → Kind
  | .now _ => .clock
  | .recvEthernet _ _ => .receive
  | .sendEthernet _ _ => .transmit
  | .rssiDbm _ => .sample
  | .linkRateKbps _ => .sample
  | .bssid _ => .watch
  | .startJoin _ _ _ => .watch
  | .setPowerManagement _ _ => .watch
  | .setAllMulticast _ _ => .watch
  | .setLinkState _ => .watch
  | .counters _ => .counters

/-- Nothing but readings of the clock and calls of kind `k`. -/
def Only (k : Kind) (calls : List (Call H)) : Prop :=
  ∀ call ∈ calls, call.kind = .clock ∨ call.kind = k

@[simp] theorem only_nil (k : Kind) : Only k ([] : List (Call H)) :=
  fun _ h => absurd h List.not_mem_nil

@[simp] theorem only_append {k : Kind} {l m : List (Call H)} :
    Only k (l ++ m) ↔ Only k l ∧ Only k m :=
  List.forall_mem_append

@[simp] theorem only_cons {k : Kind} {call : Call H} {l : List (Call H)} :
    Only k (call :: l) ↔ (call.kind = .clock ∨ call.kind = k) ∧ Only k l :=
  List.forall_mem_cons

theorem Only.snoc {k : Kind} {l : List (Call H)} (h : Only k l) {call : Call H}
    (hk : call.kind = .clock ∨ call.kind = k) : Only k (l ++ [call]) :=
  only_append.mpr ⟨h, only_cons.mpr ⟨hk, only_nil k⟩⟩

theorem Only.filterMap_nil {α : Type} {f : Call H → Option α} {k : Kind} {calls : List (Call H)}
    (h : Only k calls) (hclock : ∀ call : Call H, call.kind = .clock → f call = none)
    (hf : ∀ call : Call H, call.kind = k → f call = none) : calls.filterMap f = [] :=
  List.filterMap_eq_nil_iff.mpr fun call hc => (h call hc).elim (hclock call) (hf call)

/-! ### The parts of a pass -/

structure SameControl (s t : Runner H Q) : Prop where
  watch : t.watch = s.watch
  due : t.due = s.due
  quiet : t.quiet = s.quiet
  heard : t.heard = s.heard
  associated : t.statics.associated = s.statics.associated
  drops : t.statics.drops = s.statics.drops
  joins : t.statics.joins = s.statics.joins
  link : t.statics.link = s.statics.link
  countersWanted : t.statics.countersWanted = s.statics.countersWanted

theorem SameControl.refl (s : Runner H Q) : SameControl s s := by
  constructor <;> rfl

theorem SameControl.trans {s t u : Runner H Q} (h : SameControl s t) (k : SameControl t u) :
    SameControl s u :=
  ⟨k.watch.trans h.watch, k.due.trans h.due, k.quiet.trans h.quiet, k.heard.trans h.heard,
    k.associated.trans h.associated, k.drops.trans h.drops, k.joins.trans h.joins,
    k.link.trans h.link, k.countersWanted.trans h.countersWanted⟩

theorem call_same (s : Runner H Q) (call : Call H) : SameControl s (s.call call) := by
  constructor <;> rfl

theorem deliver_same (s : Runner H Q) (buffer : Bytes) (len : Nat) :
    SameControl s (s.deliver buffer len) := by
  constructor <;> rfl

theorem receiveFailed_same (s : Runner H Q) (error : Error H) :
    SameControl s (s.receiveFailed error) := by
  constructor <;> rfl

theorem receive_same (a : Answers H) (s : Runner H Q) : SameControl s (receive a s).2 :=
  receive_keeps (P := fun _ t => SameControl s t) (.refl s)
    (fun _ _ _ h _ => h.trans (call_same _ _))
    (fun _ _ _ _ h _ => (h.trans (call_same _ _)).trans (deliver_same _ _ _))
    (fun _ _ _ _ h _ => (h.trans (call_same _ _)).trans (receiveFailed_same _ _))

theorem receive_only (a : Answers H) (s : Runner H Q) : Only .receive (receive a s.cut).2.calls :=
  receive_keeps (P := fun _ t => Only .receive t.calls) (only_nil _)
    (fun _ _ _ h _ => h.snoc (Or.inr rfl)) (fun _ _ _ _ h _ => h.snoc (Or.inr rfl))
    (fun _ _ _ _ h _ => h.snoc (Or.inr rfl))

theorem transmit_same (a : Answers H) (s : Runner H Q) : SameControl s (transmit a s).2 := by
  have h := transmit_step a s
  generalize transmit a s = r at h ⊢
  cases h with
  | nothing => exact .refl s
  | _ => constructor <;> rfl

theorem transmit_only (a : Answers H) (s : Runner H Q) :
    Only .transmit (transmit a s.cut).2.calls := by
  have h := transmit_step a s.cut
  generalize transmit a s.cut = r at h ⊢
  cases h with
  | nothing => exact only_nil _
  | _ => exact (only_nil _).snoc (Or.inr rfl)

theorem noteTraffic_only (c : Clock) (received sent : Bool) (s : Runner H Q) :
    Only .clock (noteTraffic c received sent s.cut).calls := by
  cases received with
  | false => exact only_nil _
  | true => exact (only_nil _).snoc (Or.inr rfl)

end RpiHalEmbassy.Wifi
