import Mathlib.Data.Finset.Card
import RpiHalEmbassy.TimeDriver.Driver

/-!
# Interrupt dispatch (`src/irq.rs`)

The core enters `__irq_handler` again for as long as a line is asserted. `dispatch`
asks the interrupt controller about one line after another while time passes and
lines go up in between; what `rpi-hal`'s entry points are relied on to do is take
their own lines down. Each entry then uses up a line that was up, so there are no
more entries than reasons for one: `entries_bounded`.
-/

namespace RpiHalEmbassy.Irq
open Machines TimeDriver

/-- The lines `dispatch` asks about besides Compare 1's. -/
inductive Line where
  | usb
  | gpio (bank : Fin 3)
  | i2c
  | uart
  | emmc
  deriving DecidableEq

def lines : List Line := [.usb, .gpio 0, .gpio 1, .gpio 2, .i2c, .uart, .emmc]

theorem mem_lines (l : Line) : l ∈ lines := by
  cases l with
  | gpio bank => revert bank; decide
  | _ => decide

/-- Pins 0-27, 28-45 and 46-53. -/
def bankOf (pin : Nat) : Fin 3 := if pin < 28 then 0 else if pin < 46 then 1 else 2

/-- `rpi-hal`'s entry points, in the order they are reached. -/
inductive Handler where
  | usb
  | gpio
  | i2c
  | uart
  | sd

def handlers : List Handler := [.usb, .gpio, .i2c, .uart, .sd]

/-- The lines read before the entry point is called. -/
def Handler.lines : Handler → List Line
  | .usb => [.usb]
  | .gpio => [.gpio (bankOf 0), .gpio (bankOf 28), .gpio (bankOf 46)]
  | .i2c => [.i2c]
  | .uart => [.uart]
  | .sd => [.emmc]

theorem covered (l : Line) : ∃ h ∈ handlers, l ∈ h.lines := by
  cases l with
  | usb => exact ⟨.usb, by simp [handlers], by decide⟩
  | gpio bank => exact ⟨.gpio, by simp [handlers], by revert bank; decide⟩
  | i2c => exact ⟨.i2c, by simp [handlers], by decide⟩
  | uart => exact ⟨.uart, by simp [handlers], by decide⟩
  | emmc => exact ⟨.sd, by simp [handlers], by decide⟩

/-- What `on_irq` of each peripheral leaves asserted. -/
structure RpiHal where
  onIrq : Handler → (Line → Bool) → Line → Bool
  lowers : ∀ h line l, l ∈ h.lines → onIrq h line l = false
  keeps : ∀ h line l, l ∉ h.lines → onIrq h line l = line l

variable {W : Type} {Q : Queue W}

/-- `raised` counts the times a line was raised. -/
structure Soc (Q : Queue W) where
  driver : Driver Q
  line : Line → Bool
  raised : Nat

inductive Env where
  | tick
  | raise (l : Line)

namespace Soc

def happens (s : Soc Q) : Env → Soc Q
  | .tick => { s with driver.timer := s.driver.timer.tick }
  | .raise l => { s with line := fun m => s.line m || m == l, raised := s.raised + 1 }

def pass (s : Soc Q) (es : List Env) : Soc Q := es.foldl happens s

def timer1Pending (s : Soc Q) : Bool := s.driver.timer.matched && s.driver.timer1IrqEnabled

/-- The lines are read up to the first one that is pending; `gap` is what happens
before the read of a line. -/
def anyPending (gap : Line → List Env) : List Line → Soc Q → Bool × Soc Q
  | [], s => (false, s)
  | l :: ls, s =>
    let s := s.pass (gap l)
    if s.line l then (true, s) else anyPending gap ls s

def serve (hal : RpiHal) (gap : Line → List Env) (s : Soc Q) (h : Handler) : Soc Q :=
  let r := anyPending gap h.lines s
  if r.1 then { r.2 with line := hal.onIrq h r.2.line } else r.2

end Soc

/-- What goes on around the accesses of one `dispatch`. -/
structure Entry where
  timer1 : List Env
  clear : Nat
  turns : List TurnTicks
  gap : Line → List Env

def onTimerIrq (k : Entry) (s : Soc Q) : Option (Soc Q) :=
  (s.driver.onIrq k.clear k.turns).map fun d => { s with driver := d }

def serveTimer1 (k : Entry) (s : Soc Q) : Option (Soc Q) :=
  let s := s.pass k.timer1
  if s.timer1Pending then onTimerIrq k s else some s

/-- `async` is the crate's feature of that name. -/
def dispatch (hal : RpiHal) (async : Bool) (k : Entry) (s : Soc Q) : Option (Soc Q) :=
  (serveTimer1 k s).map fun s =>
    if async then handlers.foldl (Soc.serve hal k.gap) s else s

inductive Event (W : Type) where
  | passes (e : Env)
  | scheduleWake (expiry : UInt64) (w : W) (turns : List TurnTicks)
  | entry (k : Entry)

def Event.isEntry {W : Type} : Event W → Bool
  | .entry _ => true
  | _ => false

/-- A line that `dispatch` covers is asserted. -/
def Soc.Asserting (async : Bool) (s : Soc Q) : Prop :=
  s.timer1Pending = true ∨ async = true ∧ ∃ l, s.line l = true

def exec (hal : RpiHal) (async : Bool) (s : Soc Q) : Event W → Option (Soc Q)
  | .passes e => some (s.happens e)
  | .scheduleWake expiry w turns =>
    (s.driver.scheduleWake expiry w turns).map fun d => { s with driver := d }
  | .entry k => dispatch hal async k s

/-- The handler is entered when a line is asserted, and only then; every entry returns. -/
def interrupts (hal : RpiHal) (async : Bool) (Q : Queue W) : Machine (Soc Q) (Event W) where
  enabled s e := (e.isEntry = true → s.Asserting async) ∧ (exec hal async s e).isSome = true
  step s e := (exec hal async s e).getD s

/-! ### What an entry uses up -/

def Soc.up (s : Soc Q) : Finset Line := lines.toFinset.filter fun l => s.line l = true

@[simp] theorem Soc.mem_up {s : Soc Q} {l : Line} : l ∈ s.up ↔ s.line l = true := by
  simp [Soc.up, mem_lines]

def Soc.asserted (s : Soc Q) : Nat := s.driver.timer.matched.toNat + s.up.card

/-- From `s` to `t` at least `n` lines went down that are not up again for want of a
reason: a tick for Compare 1, a raise for another line. -/
def Spends (s t : Soc Q) (n : Nat) : Prop :=
  t.asserted + n + s.raised + s.driver.timer.micros ≤
    s.asserted + t.raised + t.driver.timer.micros

theorem Spends.refl (s : Soc Q) : Spends s s 0 := le_rfl

theorem Spends.trans {s t u : Soc Q} {n m : Nat} (h : Spends s t n) (k : Spends t u m) :
    Spends s u (n + m) := by
  unfold Spends at *
  omega

theorem elapse_spends (n : Nat) (t : SystemTimer) :
    (t.elapse n).matched.toNat ≤ t.matched.toNat + n := by
  induction n generalizing t with
  | zero => exact le_rfl
  | succ n ih =>
    have hstep := ih t.tick
    have htick : t.tick.matched.toNat ≤ t.matched.toNat + 1 := by
      cases t.matched with
      | true => exact (Bool.toNat_le _).trans (Nat.le_add_left 1 _)
      | false => exact (Bool.toNat_le _).trans (Nat.le_add_left 1 _)
    simp only [SystemTimer.elapse]
    omega

theorem setCompare1_spends (deadline : UInt64) (k : SystemTimer.ArmTicks) (t : SystemTimer) :
    (t.setCompare1 deadline k).2.matched.toNat + t.micros ≤
      t.matched.toNat + (t.setCompare1 deadline k).2.micros := by
  have hread := elapse_spends k.read t
  have hwrite := elapse_spends k.write (t.elapse k.read)
  simp only [SystemTimer.setCompare1]
  generalize min deadline.toNat _ % 2 ^ 32 = c1
  have hcheck := elapse_spends k.check { (t.elapse k.read).elapse k.write with c1 := c1 }
  simp only [SystemTimer.elapse_micros] at hcheck ⊢
  omega

theorem rearm_spends (turns : List TurnTicks) (d d' : Driver Q) (h : d.rearm turns = some d') :
    d'.timer.matched.toNat + d.timer.micros ≤ d.timer.matched.toNat + d'.timer.micros := by
  induction turns generalizing d with
  | nil => cases h
  | cons k ks ih =>
    have hdrain := elapse_spends k.drain d.timer
    have hturn := setCompare1_spends (d.nextExpiration k.drain).1 k.toArmTicks
      (d.timer.elapse k.drain)
    rw [SystemTimer.elapse_micros] at hturn
    simp only [Driver.rearm] at h
    split at h
    · cases Option.some.inj h
      simp only [Driver.nextExpiration] at hturn ⊢
      omega
    · have hrest := ih _ h
      simp only [Driver.nextExpiration] at hturn hrest
      omega

namespace Soc

theorem happens_spends (s : Soc Q) (e : Env) : Spends s (s.happens e) 0 := by
  cases e with
  | tick =>
    have htick := elapse_spends 1 s.driver.timer
    simp only [SystemTimer.elapse] at htick
    have hup : (s.happens .tick).up = s.up := rfl
    simp only [Spends, asserted, hup]
    simp only [happens, SystemTimer.tick] at htick ⊢
    omega
  | raise l =>
    have hup : (s.happens (.raise l)).up = insert l s.up := by
      ext m
      simp [happens, or_comm]
    have hcard := Finset.card_insert_le l s.up
    rw [← hup] at hcard
    simp only [Spends, asserted]
    simp only [happens] at hcard ⊢
    omega

theorem pass_spends (es : List Env) (s : Soc Q) : Spends s (s.pass es) 0 := by
  induction es generalizing s with
  | nil => exact .refl s
  | cons e es ih => exact (s.happens_spends e).trans (ih (s.happens e))

theorem happens_line {s : Soc Q} {l : Line} (e : Env) (h : s.line l = true) :
    (s.happens e).line l = true := by
  cases e with
  | tick => exact h
  | raise m => simp [happens, h]

theorem pass_line {s : Soc Q} {l : Line} (es : List Env) (h : s.line l = true) :
    (s.pass es).line l = true := by
  induction es generalizing s with
  | nil => exact h
  | cons e es ih => exact ih (happens_line e h)

theorem happens_timer1Pending {s : Soc Q} (e : Env) (h : s.timer1Pending = true) :
    (s.happens e).timer1Pending = true := by
  simp only [timer1Pending, Bool.and_eq_true] at h ⊢
  cases e with
  | tick => exact ⟨by simp [happens, SystemTimer.tick, h.1], h.2⟩
  | raise m => exact h

theorem pass_timer1Pending {s : Soc Q} (es : List Env) (h : s.timer1Pending = true) :
    (s.pass es).timer1Pending = true := by
  induction es generalizing s with
  | nil => exact h
  | cons e es ih => exact ih (happens_timer1Pending e h)

/-- The reads change nothing themselves. -/
theorem anyPending_pass (gap : Line → List Env) (ls : List Line) (s : Soc Q) :
    ∃ es, (anyPending gap ls s).2 = s.pass es := by
  induction ls generalizing s with
  | nil => exact ⟨[], rfl⟩
  | cons l ls ih =>
    simp only [anyPending]
    split
    · exact ⟨gap l, rfl⟩
    · obtain ⟨es, hes⟩ := ih (s.pass (gap l))
      refine ⟨gap l ++ es, ?_⟩
      rw [hes]
      exact (List.foldl_append ..).symm

theorem anyPending_iff (gap : Line → List Env) (ls : List Line) (s : Soc Q) :
    ((anyPending gap ls s).1 = true → ∃ l ∈ ls, (anyPending gap ls s).2.line l = true) ∧
      ((∃ l ∈ ls, s.line l = true) → (anyPending gap ls s).1 = true) := by
  induction ls generalizing s with
  | nil => simp [anyPending]
  | cons l ls ih =>
    simp only [anyPending]
    split
    · next hl => exact ⟨fun _ => ⟨l, List.mem_cons_self .., hl⟩, fun _ => rfl⟩
    · next hl =>
      obtain ⟨hread, hup⟩ := ih (s.pass (gap l))
      constructor
      · intro h
        obtain ⟨m, hm, hline⟩ := hread h
        exact ⟨m, List.mem_cons_of_mem _ hm, hline⟩
      · rintro ⟨m, hm, hline⟩
        rcases List.mem_cons.mp hm with rfl | hm
        · exact absurd (pass_line _ hline) hl
        · exact hup ⟨m, hm, pass_line _ hline⟩

/-- Called with a line of its own pending, the entry point takes one down at least. -/
theorem onIrq_spends (hal : RpiHal) (h : Handler) (s : Soc Q)
    (hup : ∃ l ∈ h.lines, s.line l = true) :
    Spends s { s with line := hal.onIrq h s.line } 1 := by
  obtain ⟨l, hl, hline⟩ := hup
  have hlt : ({ s with line := hal.onIrq h s.line } : Soc Q).up.card < s.up.card := by
    apply Finset.card_lt_card
    rw [Finset.ssubset_iff_of_subset]
    · exact ⟨l, mem_up.mpr hline, by simp [hal.lowers h s.line l hl]⟩
    · intro m hm
      rw [mem_up] at hm ⊢
      by_cases hown : m ∈ h.lines
      · cases (hal.lowers h s.line m hown).symm.trans hm
      · exact (hal.keeps h s.line m hown).symm.trans hm
  simp only [Spends, asserted] at hlt ⊢
  omega

theorem serve_spends (hal : RpiHal) (gap : Line → List Env) (h : Handler) (s : Soc Q) :
    ∃ n, Spends s (serve hal gap s h) n ∧ ((∃ l ∈ h.lines, s.line l = true) → n = 1) := by
  obtain ⟨hread, hup⟩ := anyPending_iff gap h.lines s
  obtain ⟨es, hes⟩ := anyPending_pass gap h.lines s
  have hpass := pass_spends es s
  rw [← hes] at hpass
  simp only [serve]
  split
  · next hpending =>
    exact ⟨0 + 1, hpass.trans (onIrq_spends hal h _ (hread hpending)), fun _ => rfl⟩
  · next hnot => exact ⟨0, hpass, fun h => absurd (hup h) hnot⟩

theorem serve_keeps {hal : RpiHal} {gap : Line → List Env} {h : Handler} {s : Soc Q} {l : Line}
    (hl : l ∉ h.lines) (hline : s.line l = true) : (serve hal gap s h).line l = true := by
  obtain ⟨es, hes⟩ := anyPending_pass gap h.lines s
  have hpass := pass_line es hline
  rw [← hes] at hpass
  simp only [serve]
  split
  · exact (hal.keeps h _ l hl).trans hpass
  · exact hpass

/-- No entry point stands in another's way: a line is still up when its own is reached. -/
theorem serveAll_spends (hal : RpiHal) (gap : Line → List Env) (hs : List Handler) (s : Soc Q) :
    ∃ n, Spends s (hs.foldl (serve hal gap) s) n ∧
      ((∃ h ∈ hs, ∃ l ∈ h.lines, s.line l = true) → 1 ≤ n) := by
  induction hs generalizing s with
  | nil => exact ⟨0, .refl s, by simp⟩
  | cons h hs ih =>
    obtain ⟨n, hserve, hown⟩ := serve_spends hal gap h s
    obtain ⟨m, hrest, hothers⟩ := ih (serve hal gap s h)
    refine ⟨n + m, hserve.trans hrest, ?_⟩
    rintro ⟨g, hg, l, hl, hline⟩
    by_cases hfirst : ∃ l ∈ h.lines, s.line l = true
    · rw [hown hfirst]
      exact Nat.le_add_right 1 m
    · have hnot : l ∉ h.lines := fun hmem => hfirst ⟨l, hmem, hline⟩
      rcases List.mem_cons.mp hg with rfl | hg
      · exact absurd hl hnot
      · exact Nat.le_add_left_of_le (hothers ⟨g, hg, l, hl, serve_keeps hnot hline⟩)

end Soc

theorem onTimerIrq_spends {k : Entry} {s t : Soc Q} (hpending : s.timer1Pending = true)
    (h : onTimerIrq k s = some t) : Spends s t 1 ∧ t.line = s.line := by
  obtain ⟨d, hd, rfl⟩ := Option.map_eq_some_iff.mp h
  have hmatched := (Bool.and_eq_true _ _ ▸ hpending).1
  have hrearm := rearm_spends k.turns _ d hd
  simp only [SystemTimer.clearCompare1Match, Bool.toNat_false, SystemTimer.elapse_micros,
    Nat.zero_add] at hrearm
  refine ⟨?_, rfl⟩
  simp only [Spends, Soc.asserted, Soc.up, hmatched, Bool.toNat_true]
  omega

theorem serveTimer1_spends {k : Entry} {s t : Soc Q} (h : serveTimer1 k s = some t) :
    ∃ n, Spends s t n ∧ (s.timer1Pending = true → 1 ≤ n) ∧ t.line = (s.pass k.timer1).line := by
  have hpass := s.pass_spends k.timer1
  simp only [serveTimer1] at h
  split at h
  · next hpending =>
    obtain ⟨hspends, hline⟩ := onTimerIrq_spends hpending h
    exact ⟨0 + 1, hpass.trans hspends, fun _ => le_rfl, hline⟩
  · next hnot =>
    cases Option.some.inj h
    exact ⟨0, hpass, fun hpending => absurd (Soc.pass_timer1Pending _ hpending) hnot, rfl⟩

theorem dispatch_spends {hal : RpiHal} {async : Bool} {k : Entry} {s t : Soc Q}
    (hup : s.Asserting async) (h : dispatch hal async k s = some t) :
    ∃ n, 1 ≤ n ∧ Spends s t n := by
  obtain ⟨u, hu, rfl⟩ := Option.map_eq_some_iff.mp h
  obtain ⟨n, hn, htimer, hline⟩ := serveTimer1_spends hu
  split
  · obtain ⟨m, hm, hothers⟩ := Soc.serveAll_spends hal k.gap handlers u
    refine ⟨n + m, ?_, hn.trans hm⟩
    rcases hup with hpending | ⟨_, l, hl⟩
    · exact Nat.le_add_right_of_le (htimer hpending)
    · obtain ⟨g, hg, hmem⟩ := covered l
      refine Nat.le_add_left_of_le (hothers ⟨g, hg, l, hmem, ?_⟩)
      rw [hline]
      exact Soc.pass_line _ hl
  · next hsync =>
    rcases hup with hpending | ⟨hasync, _⟩
    · exact ⟨n, htimer hpending, hn⟩
    · exact absurd hasync hsync

theorem exec_spends {hal : RpiHal} {async : Bool} {s t : Soc Q} {e : Event W}
    (hup : e.isEntry = true → s.Asserting async) (h : exec hal async s e = some t) :
    ∃ n, e.isEntry.toNat ≤ n ∧ Spends s t n := by
  cases e with
  | passes e =>
    cases Option.some.inj h
    exact ⟨0, le_rfl, s.happens_spends e⟩
  | scheduleWake expiry w turns =>
    obtain ⟨d, hd, rfl⟩ := Option.map_eq_some_iff.mp h
    refine ⟨0, le_rfl, ?_⟩
    simp only [Driver.scheduleWake] at hd
    split at hd
    · have hrearm := rearm_spends turns _ d hd
      simp only [Spends, Soc.asserted, Soc.up] at hrearm ⊢
      omega
    · cases Option.some.inj hd
      exact le_rfl
  | entry k => exact dispatch_spends (hup rfl) h

theorem exec_of_enabled {hal : RpiHal} {async : Bool} {s : Soc Q} {e : Event W}
    (h : (interrupts hal async Q).enabled s e) :
    exec hal async s e = some ((interrupts hal async Q).step s e) := by
  obtain ⟨t, ht⟩ := Option.isSome_iff_exists.mp h.2
  simp only [interrupts, ht, Option.getD_some]

theorem run_spends {hal : RpiHal} {async : Bool} {s t : Soc Q} {es : List (Event W)}
    (h : (interrupts hal async Q).Run s es t) :
    ∃ n, es.countP Event.isEntry ≤ n ∧ Spends s t n := by
  induction h with
  | nil => exact ⟨0, le_rfl, .refl s⟩
  | snoc e _ he ih =>
    obtain ⟨n, hn, hrun⟩ := ih
    obtain ⟨m, hm, hstep⟩ := exec_spends he.1 (exec_of_enabled he)
    refine ⟨n + m, ?_, hrun.trans hstep⟩
    rw [List.countP_append, List.countP_singleton]
    cases e with
    | entry k => exact Nat.add_le_add hn hm
    | _ => exact Nat.add_le_add hn (Nat.zero_le m)

/-- The handler is not entered for ever for one reason: over any run, the entries and the
lines still asserted are no more than the lines asserted at the start, the lines raised
since and the microseconds gone by. -/
theorem entries_bounded (hal : RpiHal) (async : Bool) (s t : Soc Q) (es : List (Event W))
    (h : (interrupts hal async Q).Run s es t) :
    es.countP Event.isEntry + t.asserted + s.raised + s.driver.timer.micros ≤
      s.asserted + t.raised + t.driver.timer.micros := by
  obtain ⟨n, hn, hspends⟩ := run_spends h
  unfold Spends at hspends
  omega

/-- Entry points that take down their own lines and touch nothing else. -/
def lowering : RpiHal where
  onIrq h line l := line l && !decide (l ∈ h.lines)
  lowers _ _ _ hl := by simp [hl]
  keeps _ _ _ hl := by simp [hl]

def oneAlarm : Soc (listQueue Nat) :=
  ⟨⟨⟨0, 2, false⟩, [(7, 2)], true, []⟩, fun _ => false, 0⟩

/-- USB's line and a GPIO bank's up when Compare 1 matches, the UART's raised while they
are served: one entry sees to all four. -/
theorem entries_bounded_of_four_at_once :
    ∃ (es : List (Event Nat)) (t : Soc (listQueue Nat)),
      (interrupts lowering true (listQueue Nat)).Run oneAlarm es t ∧
      es.countP Event.isEntry = 1 ∧ t.raised = 3 ∧ t.driver.woken = [7] ∧ t.asserted = 0 ∧
      es.countP Event.isEntry + t.asserted + oneAlarm.raised + oneAlarm.driver.timer.micros ≤
        oneAlarm.asserted + t.raised + t.driver.timer.micros := by
  have hrun := Machine.Run.of_allowed (interrupts lowering true (listQueue Nat)) oneAlarm
    [.passes (.raise .usb), .passes (.raise (.gpio 1)), .passes .tick, .passes .tick,
      .entry ⟨[], 1, [⟨⟨0, 1, 0⟩, 0⟩], fun l => if l = .i2c then [.raise .uart] else []⟩]
    ⟨⟨Bool.noConfusion, rfl⟩, ⟨Bool.noConfusion, rfl⟩, ⟨Bool.noConfusion, rfl⟩,
      ⟨Bool.noConfusion, rfl⟩, ⟨fun _ => Or.inl (by decide), by decide⟩, trivial⟩
  exact ⟨_, _, hrun, by decide, by decide, by decide, by decide,
    entries_bounded lowering true _ _ _ hrun⟩

end RpiHalEmbassy.Irq
