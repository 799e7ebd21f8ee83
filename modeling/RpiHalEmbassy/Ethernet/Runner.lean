import RpiHalEmbassy.Ethernet.Fifo

/-!
# `EthernetRunner`: its constructors and its run

The run brings the chip up, waits for the link and then joins the two frame loops.
It stops where the source awaits; the chip's answers and the clock are in the labels,
and the stack's side of the queue pair moves all along.
-/

namespace RpiHalEmbassy.Ethernet
open Machines Net

def linkWaitUs : UInt64 := 5000000

/-- A driver, as far as the constructors look at it: `E::MTU`. -/
structure EthernetAsync where
  mtu : Nat

structure EthernetConfig where
  mac : Vector UInt8 6
  allMulticast : Bool

def EthernetConfig.new (mac : Vector UInt8 6) : EthernetConfig := ⟨mac, false⟩

structure EthernetRunner (Q : Channel) where
  runner : Q.State
  ethernet : EthernetAsync
  config : EthernetConfig

variable {Q : Channel}

def attach (runner : Q.State) (ethernet : EthernetAsync) (config : EthernetConfig) :
    EthernetRunner Q :=
  ⟨runner, ethernet, config⟩

/-- `none` is the panic of the assertion. -/
def new (Q : Channel) (ethernet : EthernetAsync) (config : EthernetConfig) :
    Option (EthernetRunner Q) :=
  if ethernet.mtu = mtu then some (attach Q.new ethernet config) else none

inductive RunCall where
  | startAsync (mac : Vector UInt8 6)
  | started (result : Except TransferError Unit)
  | setAllMulticast (enabled : Bool)
  | allMulticastSet (result : Except TransferError Unit)
  | now (reading : UInt64)
  | isLinkUp
  | linkUp (answer : Except TransferError Bool)
  | setLinkState (state : LinkState)
  | frames (call : Call)

/-- What the run awaits: the answer to `start_async`, for ever nothing, the answer to
`set_all_multicast_async`, one from `is_link_up_async`, or what the frame loops do. -/
inductive Stage where
  | starting
  | parked
  | settingMulticast
  | waiting (deadline : UInt64)
  | running
  deriving DecidableEq

structure Runner (Q : Channel) where
  config : EthernetConfig
  world : World Q
  stage : Stage
  startLastError : UInt8
  log : List RunCall

@[simps]
def Runner.call (r : Runner Q) (call : RunCall) : Runner Q := { r with log := r.log ++ [call] }

def startError (r : Runner Q) : Option TransferError := errorFromCode r.startLastError

/-- `run` at its first await, with `code` in `START_LAST_ERROR`. -/
def run (r : EthernetRunner Q) (code : UInt8) : Runner Q where
  config := r.config
  world := { start Q with queues := r.runner, queued := Q.txQueue r.runner }
  stage := .starting
  startLastError := code
  log := [.startAsync r.config.mac]

def setLinkState (state : LinkState) (r : Runner Q) : Runner Q :=
  { r.call (.setLinkState state) with world.queues := Q.setLinkState state r.world.queues }

def waitForLink (now : UInt64) (r : Runner Q) : Runner Q :=
  { (r.call (.now now)).call .isLinkUp with stage := .waiting (now + linkWaitUs) }

def started (result : Except TransferError Unit) (now : UInt64) (r : Runner Q) : Runner Q :=
  let r := r.call (.started result)
  match result with
  | .error error =>
    { setLinkState .down { r with startLastError := errorCode error } with stage := .parked }
  | .ok () =>
    if r.config.allMulticast then
      { r.call (.setAllMulticast true) with stage := .settingMulticast }
    else waitForLink now r

def allMulticastSet (result : Except TransferError Unit) (now : UInt64) (r : Runner Q) :
    Runner Q :=
  let r := r.call (.allMulticastSet result)
  match result with
  | .error error => waitForLink now { r with startLastError := errorCode error }
  | .ok () => waitForLink now r

def reportUp (r : Runner Q) : Runner Q := { setLinkState .up r with stage := .running }

def linkUp (answer : Except TransferError Bool) (now deadline : UInt64) (r : Runner Q) :
    Runner Q :=
  let r := r.call (.linkUp answer)
  match answer with
  | .ok true => reportUp r
  | .error _ => reportUp r
  | .ok false =>
    let r := r.call (.now now)
    if deadline ≤ now then reportUp r else r.call .isLinkUp

/-- What one step of the frame loops calls. -/
def made (w : World Q) (e : Event) : List Call := (step w e).calls.drop w.calls.length

def loop (e : Event) (r : Runner Q) : Runner Q :=
  { r with
    world := step r.world e
    log := r.log ++ (made r.world e).map .frames }

inductive RunEvent where
  | started (result : Except TransferError Unit) (now : UInt64)
  | allMulticastSet (result : Except TransferError Unit) (now : UInt64)
  | linkUp (answer : Except TransferError Bool) (now : UInt64)
  | loop (e : Event)

/-- The stack's own moves, which need nothing of the run. -/
def Event.ByStack (e : Event) : Prop := e = .stackReceive ∨ ∃ frame, e = .stackTransmit frame

def Runner.enabled (r : Runner Q) : RunEvent → Prop
  | .started _ _ => r.stage = .starting
  | .allMulticastSet _ _ => r.stage = .settingMulticast
  | .linkUp _ _ => ∃ deadline, r.stage = .waiting deadline
  | .loop e => Ethernet.enabled r.world e ∧ (r.stage = .running ∨ e.ByStack)

def Runner.step (r : Runner Q) : RunEvent → Runner Q
  | .started result now => Ethernet.started result now r
  | .allMulticastSet result now => Ethernet.allMulticastSet result now r
  | .linkUp answer now =>
    match r.stage with
    | .waiting deadline => Ethernet.linkUp answer now deadline r
    | _ => r
  | .loop e => Ethernet.loop e r

def ethernetRun (Q : Channel) : Machine (Runner Q) RunEvent where
  enabled := Runner.enabled
  step := Runner.step

/-! ### The frame loops within the run -/

theorem step_calls_prefix (w : World Q) (e : Event) : w.calls <+: (step w e).calls := by
  cases e with
  | issue now =>
    simp only [step, issue]
    split
    · exact List.prefix_append _ _
    · simp only [World.call_calls, List.append_assoc]
      exact List.prefix_append _ _
  | complete transfer now =>
    cases transfer <;>
      simp only [step, complete, World.call_calls, List.append_assoc] <;>
      exact List.prefix_append _ _
  | deliver =>
    simp only [step]
    split
    · exact List.prefix_append _ _
    · exact List.prefix_rfl
  | finish =>
    simp only [step, finish]
    split
    · split
      · exact List.prefix_rfl
      · split <;> exact List.prefix_rfl
    · exact List.prefix_rfl
  | submit =>
    simp only [step]
    split
    · exact List.prefix_append _ _
    · exact List.prefix_rfl
  | answer outcome => exact List.prefix_append _ _
  | advance =>
    simp only [step, advance]
    split
    · exact List.prefix_rfl
    · exact List.prefix_rfl
    · exact List.prefix_rfl
    · exact List.prefix_append _ _
    · exact List.prefix_rfl
  | stackReceive =>
    simp only [step]
    split <;> exact List.prefix_rfl
  | stackTransmit frame =>
    simp only [step]
    split <;> exact List.prefix_rfl

theorem step_calls (w : World Q) (e : Event) : (step w e).calls = w.calls ++ made w e := by
  obtain ⟨calls, hcalls⟩ := step_calls_prefix w e
  rw [made, ← hcalls, List.drop_left]

theorem made_of_byStack {e : Event} (he : e.ByStack) (w : World Q) : made w e = [] := by
  rcases he with rfl | ⟨frame, rfl⟩
  · simp only [made, step]
    split <;> exact List.drop_length
  · simp only [made, step]
    split <;> exact List.drop_length

/-- Bring-up moves nothing of the world but the link state. -/
theorem runner_step_world {s : Runner Q} {e : RunEvent} (he : s.enabled e) :
    (s.step e).world = s.world ∨
      (∃ state, (s.step e).world =
        { s.world with queues := Q.setLinkState state s.world.queues }) ∨
      ∃ i, e = .loop i ∧ enabled s.world i ∧ (s.step e).world = step s.world i := by
  cases e with
  | started result now =>
    cases result with
    | error error => exact Or.inr (Or.inl ⟨.down, rfl⟩)
    | ok _ =>
      simp only [Runner.step, started]
      split <;> exact Or.inl rfl
  | allMulticastSet result now => cases result <;> exact Or.inl rfl
  | linkUp answer now =>
    obtain ⟨deadline, hstage⟩ := he
    simp only [Runner.step, hstage]
    rcases answer with error | _ | _
    · exact Or.inr (Or.inl ⟨.up, rfl⟩)
    · by_cases hover : deadline ≤ now
      · exact Or.inr (Or.inl ⟨.up, by simp only [linkUp, if_pos hover]; rfl⟩)
      · exact Or.inl (by simp only [linkUp, if_neg hover]; rfl)
    · exact Or.inr (Or.inl ⟨.up, rfl⟩)
  | loop i => exact Or.inr (Or.inr ⟨i, rfl, he.1, rfl⟩)

theorem runner_step_kept {s : Runner Q} (h : Kept s.world) (e : RunEvent)
    (he : s.enabled e) : Kept (s.step e).world := by
  rcases runner_step_world he with hsame | ⟨state, hlink⟩ | ⟨i, _, hi, hstep⟩
  · rwa [hsame]
  · rw [hlink]
    exact
      { inbound := h.inbound.of_same ⟨rfl, by simp, rfl, rfl⟩
        outbound := h.outbound.of_same ⟨rfl, rfl, by simp, rfl, rfl, rfl⟩
        inTurn := h.inTurn }
  · rw [hstep]
    exact step_kept h i hi

/-- Bring-up hands the frame loops what they start from: on a pair nobody has committed
to yet, each direction is a lossless FIFO from the first poll of the run on. -/
theorem ethernetRun_kept {r : EthernetRunner Q} (hfresh : Q.rxQueue r.runner = []) {code : UInt8}
    {es : List RunEvent} {s : Runner Q} (h : (ethernetRun Q).Run (run r code) es s) :
    Kept s.world := by
  have hstart : Kept (run r code).world :=
    { inbound := ⟨by simp [run, start, hfresh], by simp [run, start], List.nil_suffix⟩
      outbound := ⟨by simp [run, start], by simp [run, start], by simp [run, start],
        by simp [run, start]⟩
      inTurn := Logs.each_nil _ }
  exact h.invariant hstart fun _ e hu he => runner_step_kept hu e he

end RpiHalEmbassy.Ethernet
