import RpiHalEmbassy.Wifi.State

/-!
# Watching the association: `Watch::pass`, `join` and `associate`
-/

namespace RpiHalEmbassy.Wifi
open Net

variable {H : Hal} {Q : Channel}

@[simps] def Runner.setLinkState (s : Runner H Q) (l : LinkState) : Runner H Q :=
  { s.call (.setLinkState l) with queues := Q.setLinkState l s.queues }

/-- `matches!(wifi.bssid(timer), Ok(Some(_)))`. -/
def found : Result H (Option Bytes) → Bool
  | .ok (some _) => true
  | _ => false

@[simps] def Runner.setState (s : Runner H Q) (state : Association) : Runner H Q :=
  { s with watch.state := state }

@[simps] def Runner.setDue (s : Runner H Q) (due : Nat) : Runner H Q := { s with watch.due := due }

@[simps] def Runner.countJoin (s : Runner H Q) : Runner H Q :=
  { s with statics.joins := s.statics.joins + 1 }

def join (a : Answers H) (c : Clock) (s : Runner H Q) : Runner H Q :=
  match s.watch.reconnect with
  | none => (s.call (.now c.joinWatchDue)).setDue (c.joinWatchDue + probeInterval)
  | some reconnect =>
    let s := s.countJoin.call (.startJoin reconnect.ssid reconnect.passphrase a.startJoin)
    match a.startJoin with
    | .ok () =>
      let s := (s.call (.now c.joinDeadline)).setState (.joining (c.joinDeadline + joinBudget))
      (s.call (.now c.joinDue)).setDue (c.joinDue + joinPoll)
    | .error _ =>
      let s := s.setState .down
      (s.call (.now c.joinRetryDue)).setDue (c.joinRetryDue + retryInterval)

/-- Puts back what making an association resets. -/
def restore (a : Answers H) (s : Runner H Q) : Runner H Q :=
  match s.watch.reconnect with
  | none => s
  | some reconnect =>
    (s.call (.setPowerManagement reconnect.powerManagement a.setPowerManagement)).call
      (.setAllMulticast reconnect.allMulticast a.setAllMulticast)

def associate (a : Answers H) (c : Clock) (s : Runner H Q) : Runner H Q :=
  let s := restore a s
  let s := { s with statics.associated := true }
  let s := (s.setLinkState .up).setState .up
  (s.call (.now c.associateDue)).setDue (c.associateDue + probeInterval)

def lose (s : Runner H Q) : Runner H Q :=
  let s :=
    { s with
      statics.drops := s.statics.drops + 1
      statics.associated := false
      statics.link := none }
  (s.setLinkState .down).setState .down

def watchPass (a : Answers H) (c : Clock) (s : Runner H Q) : Runner H Q :=
  let s := s.call (.now c.watchGate)
  if c.watchGate < s.watch.due then s
  else
    match s.watch.state with
    | .up =>
      let s := s.call (.now c.silenceGate)
      if c.silenceGate < s.heard + rxSilence then s
      else
        let s := (s.call (.now c.probeDue)).setDue (c.probeDue + probeInterval)
        let s := s.call (.bssid a.bssid)
        if found a.bssid then s else join a c (lose s)
    | .joining deadline =>
      let s := s.call (.bssid a.bssid)
      if found a.bssid then associate a c s
      else
        let s := (s.call (.now c.pollDue)).setDue (c.pollDue + joinPoll)
        let s := s.call (.now c.deadlineGate)
        if c.deadlineGate < deadline then s
        else
          let s := s.setState .down
          (s.call (.now c.retryDue)).setDue (c.retryDue + retryInterval)
    | .down =>
      let s := s.call (.bssid a.bssid)
      if found a.bssid then associate a c s else join a c s

def probedUp (a : Answers H) (c : Clock) (s : Runner H Q) : Runner H Q :=
  ((((s.call (.now c.watchGate)).call (.now c.silenceGate)).call (.now c.probeDue)).setDue
    (c.probeDue + probeInterval)).call (.bssid a.bssid)

def probed (a : Answers H) (c : Clock) (s : Runner H Q) : Runner H Q :=
  (s.call (.now c.watchGate)).call (.bssid a.bssid)

def polled (a : Answers H) (c : Clock) (s : Runner H Q) : Runner H Q :=
  (((probed a c s).call (.now c.pollDue)).setDue (c.pollDue + joinPoll)).call
    (.now c.deadlineGate)

inductive WatchStep (a : Answers H) (c : Clock) (s : Runner H Q) : Runner H Q → Prop
  | early (h : c.watchGate < s.watch.due) : WatchStep a c s (s.call (.now c.watchGate))
  | carrying (h : s.watch.due ≤ c.watchGate) (hs : s.watch.state = .up)
      (hg : c.silenceGate < s.heard + rxSilence) :
      WatchStep a c s ((s.call (.now c.watchGate)).call (.now c.silenceGate))
  | present (h : s.watch.due ≤ c.watchGate) (hs : s.watch.state = .up)
      (hg : s.heard + rxSilence ≤ c.silenceGate) (hf : found a.bssid = true) :
      WatchStep a c s (probedUp a c s)
  | lost (h : s.watch.due ≤ c.watchGate) (hs : s.watch.state = .up)
      (hg : s.heard + rxSilence ≤ c.silenceGate) (hf : found a.bssid = false) :
      WatchStep a c s (join a c (lose (probedUp a c s)))
  | landed (h : s.watch.due ≤ c.watchGate) (hs : s.watch.state ≠ .up)
      (hf : found a.bssid = true) : WatchStep a c s (associate a c (probed a c s))
  | waiting (h : s.watch.due ≤ c.watchGate) (deadline : Nat)
      (hs : s.watch.state = .joining deadline) (hf : found a.bssid = false)
      (hd : c.deadlineGate < deadline) : WatchStep a c s (polled a c s)
  | expired (h : s.watch.due ≤ c.watchGate) (deadline : Nat)
      (hs : s.watch.state = .joining deadline) (hf : found a.bssid = false)
      (hd : deadline ≤ c.deadlineGate) :
      WatchStep a c s
        ((((polled a c s).setState .down).call (.now c.retryDue)).setDue
          (c.retryDue + retryInterval))
  | asked (h : s.watch.due ≤ c.watchGate) (hs : s.watch.state = .down)
      (hf : found a.bssid = false) : WatchStep a c s (join a c (probed a c s))

theorem watchPass_step (a : Answers H) (c : Clock) (s : Runner H Q) :
    WatchStep a c s (watchPass a c s) := by
  unfold watchPass
  dsimp only
  split
  · next h => exact .early h
  · next h =>
    have h : s.watch.due ≤ c.watchGate := Nat.le_of_not_lt h
    split
    · next hs =>
      split
      · next hg => exact .carrying h hs hg
      · next hg =>
        have hg : s.heard + rxSilence ≤ c.silenceGate := Nat.le_of_not_lt hg
        split
        · next hf => exact .present h hs hg hf
        · next hf => exact .lost h hs hg (Bool.eq_false_iff.mpr hf)
    · next deadline hs =>
      have hup : s.watch.state ≠ .up := by
        rw [show s.watch.state = .joining deadline from hs]
        exact Association.noConfusion
      split
      · next hf => exact .landed h hup hf
      · next hf =>
        split
        · next hd => exact .waiting h deadline hs (Bool.eq_false_iff.mpr hf) hd
        · next hd =>
          exact .expired h deadline hs (Bool.eq_false_iff.mpr hf) (Nat.le_of_not_lt hd)
    · next hs =>
      have hup : s.watch.state ≠ .up := by
        rw [show s.watch.state = .down from hs]
        exact Association.noConfusion
      split
      · next hf => exact .landed h hup hf
      · next hf => exact .asked h hs (Bool.eq_false_iff.mpr hf)

inductive JoinStep (a : Answers H) (c : Clock) (s : Runner H Q) : Runner H Q → Prop
  | nothing (h : s.watch.reconnect = none) :
      JoinStep a c s ((s.call (.now c.joinWatchDue)).setDue (c.joinWatchDue + probeInterval))
  | issued (reconnect : Reconnect H) (h : s.watch.reconnect = some reconnect)
      (ha : a.startJoin = .ok ()) :
      JoinStep a c s
        (((((s.countJoin.call (.startJoin reconnect.ssid reconnect.passphrase (.ok ()))).call
          (.now c.joinDeadline)).setState (.joining (c.joinDeadline + joinBudget))).call
          (.now c.joinDue)).setDue (c.joinDue + joinPoll))
  | refused (reconnect : Reconnect H) (error : Error H) (h : s.watch.reconnect = some reconnect)
      (ha : a.startJoin = .error error) :
      JoinStep a c s
        ((((s.countJoin.call
          (.startJoin reconnect.ssid reconnect.passphrase (.error error))).setState .down).call
            (.now c.joinRetryDue)).setDue (c.joinRetryDue + retryInterval))

theorem join_step (a : Answers H) (c : Clock) (s : Runner H Q) : JoinStep a c s (join a c s) := by
  unfold join
  split
  · next h => exact .nothing h
  · next reconnect h =>
    dsimp only
    match ha : a.startJoin with
    | .ok () => exact .issued reconnect h ha
    | .error error => exact .refused reconnect error h ha

end RpiHalEmbassy.Wifi
