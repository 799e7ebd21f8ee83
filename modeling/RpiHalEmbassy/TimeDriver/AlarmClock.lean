import RpiHalEmbassy.Library.Refinement
import RpiHalEmbassy.TimeDriver.Rearm

/-!
# What the driver is for

An alarm clock: each waker has at most one alarm, setting it again keeps the
earlier of the two, and it rings once, not before its time. The driver over the
System Timer refines it, whatever the wraps of the compare, the clamp, the refused
deadlines and the spurious interrupts on the way: what is scheduled and what is
woken, in the order it happens, is what some run of the alarm clock shows. An alarm
for `u64::MAX` never rings, and the driver's queue may forget it.
-/

namespace RpiHalEmbassy.TimeDriver
open Machines

structure AlarmClock (W : Type) where
  now : UInt64
  alarm : W → Option UInt64

inductive Seen (W : Type) where
  | set (expiry : UInt64) (w : W)
  | ring (w : W)
  deriving DecidableEq

inductive ClockEvent (W : Type) where
  | tick
  | seen (s : Seen W)

def ClockEvent.seen? {W : Type} : ClockEvent W → Option (Seen W)
  | .tick => none
  | .seen s => some s

def earlier (expiry : UInt64) : Option UInt64 → UInt64
  | none => expiry
  | some e => if expiry < e then expiry else e

section
variable {W : Type} [DecidableEq W]

def alarmClock (W : Type) [DecidableEq W] : Machine (AlarmClock W) (ClockEvent W) where
  enabled c
    | .seen (.ring w) => ∃ e, c.alarm w = some e ∧ e ≤ c.now
    | _ => True
  step c
    | .tick => { c with now := c.now + 1 }
    | .seen (.set expiry w) =>
      { c with alarm := Function.update c.alarm w (some (earlier expiry (c.alarm w))) }
    | .seen (.ring w) => { c with alarm := Function.update c.alarm w none }

theorem earlier_le (expiry e : UInt64) : earlier expiry (some e) ≤ e := by
  unfold earlier
  dsimp only
  split
  · next hlt => exact UInt64.le_of_lt hlt
  · exact UInt64.le_refl e

/-- An alarm stays set until it rings, and only ever moves to an earlier time. -/
theorem alarm_set_or_rung {c c' : AlarmClock W} {js : List (ClockEvent W)}
    (h : (alarmClock W).Run c js c') {w : W} {e : UInt64} (hset : c.alarm w = some e) :
    (∃ f, f ≤ e ∧ c'.alarm w = some f) ∨ .ring w ∈ js.filterMap ClockEvent.seen? := by
  induction h with
  | nil => exact Or.inl ⟨e, UInt64.le_refl e, hset⟩
  | snoc j _ _ ih =>
    rw [List.filterMap_append, List.mem_append]
    rcases ih with ⟨f, hle, hf⟩ | hrung
    · rcases j with _ | ⟨expiry, v⟩ | v
      · exact Or.inl ⟨f, hle, hf⟩
      · by_cases hv : w = v
        · subst hv
          refine Or.inl ⟨earlier expiry (some f), UInt64.le_trans (earlier_le expiry f) hle, ?_⟩
          simp only [alarmClock, hf, Function.update_self]
        · exact Or.inl ⟨f, hle, by simp only [alarmClock, Function.update_of_ne hv, hf]⟩
      · by_cases hv : w = v
        · subst hv
          exact Or.inr (Or.inr (List.mem_singleton_self _))
        · exact Or.inl ⟨f, hle, by simp only [alarmClock, Function.update_of_ne hv, hf]⟩
    · exact Or.inr (Or.inl hrung)

theorem clock_ticks (c : AlarmClock W) (n : Nat) :
    (alarmClock W).Run c (.replicate n .tick) { c with now := c.now + UInt64.ofNat n } := by
  induction n generalizing c with
  | zero =>
    rw [show c.now + UInt64.ofNat 0 = c.now from UInt64.add_zero _]
    exact .nil
  | succ n ih =>
    have h := ih { c with now := c.now + 1 }
    dsimp only at h
    rw [UInt64.add_assoc, UInt64.add_comm 1] at h
    rw [UInt64.ofNat_add]
    exact .cons trivial h

/-- Wakers whose alarms are all due can ring one after another, in any order. -/
theorem clock_rings (c : AlarmClock W) (ws : List W) (hnodup : ws.Nodup)
    (hdue : ∀ w ∈ ws, ∃ e, c.alarm w = some e ∧ e ≤ c.now) :
    (alarmClock W).Run c (ws.map fun w => .seen (.ring w))
      { c with alarm := fun w => if w ∈ ws then none else c.alarm w } := by
  induction ws generalizing c with
  | nil => simpa using Machine.Run.nil (m := alarmClock W) (s := c)
  | cons w ws ih =>
    obtain ⟨hw, hnodup⟩ := List.nodup_cons.mp hnodup
    have hrest : (fun v => if v ∈ w :: ws then none else c.alarm v) =
        fun v => if v ∈ ws then none else Function.update c.alarm w none v := by
      funext v
      by_cases hv : v = w
      · simp [hv]
      · simp [hv]
    rw [hrest]
    refine .cons (hdue w (List.mem_cons_self ..)) (ih _ hnodup fun v hv => ?_)
    have hvw : v ≠ w := fun h => hw (h ▸ hv)
    show ∃ e, Function.update c.alarm w none v = some e ∧ e ≤ c.now
    rw [Function.update_of_ne hvw]
    exact hdue v (List.mem_cons_of_mem _ hv)

end

/-! ### The queue keeps one alarm for each waker -/

section
variable {W : Type} [DecidableEq W]

/-- What `schedule_wake` makes of the entries: the waker's own moves to the earlier of
the two expiries, a waker with none is given one. -/
structure Queue.Merges (Q : Queue W) : Prop where
  scheduleWake_entries : ∀ expiry w q,
    UpToNever (Q.entries (Q.scheduleWake expiry w q).2) (listSchedule expiry w (Q.entries q)).2

theorem listQueue_merges : (listQueue W).Merges := ⟨fun _ _ _ => .of_perm (.refl _)⟩

theorem listSchedule_keys (expiry : UInt64) (w : W) (entries : List (W × UInt64)) :
    (listSchedule expiry w entries).2.map Prod.fst =
      if w ∈ entries.map Prod.fst then entries.map Prod.fst else entries.map Prod.fst ++ [w] := by
  induction entries with
  | nil => simp [listSchedule]
  | cons head rest ih =>
    obtain ⟨v, e⟩ := head
    simp only [listSchedule]
    by_cases hv : v = w
    · subst hv
      rw [if_pos rfl, List.map_cons, if_pos (List.mem_cons_self ..)]
      split
      · rfl
      · rfl
    · rw [if_neg hv]
      simp only [List.map_cons, ih, List.mem_cons, Ne.symm hv, false_or]
      split
      · rfl
      · rfl

def Alarms (entries : List (W × UInt64)) (alarm : W → Option UInt64) : Prop :=
  ∀ w e, (w, e) ∈ entries ↔ alarm w = some e

theorem alarms_cons {v : W} {f : UInt64} {rest : List (W × UInt64)} {alarm : W → Option UInt64}
    (hv : v ∉ rest.map Prod.fst) :
    Alarms ((v, f) :: rest) alarm ↔
      alarm v = some f ∧ Alarms rest (Function.update alarm v none) := by
  have hnot : ∀ e, (v, e) ∉ rest := fun e he => hv (List.mem_map_of_mem he)
  constructor
  · intro h
    refine ⟨(h v f).mp (List.mem_cons_self ..), fun w e => ?_⟩
    by_cases hw : w = v
    · subst hw
      simp [hnot]
    · rw [Function.update_of_ne hw, ← h w e, List.mem_cons]
      simp [hw]
  · rintro ⟨hf, h⟩ w e
    rw [List.mem_cons]
    by_cases hw : w = v
    · subst hw
      simp [hnot, hf, eq_comm]
    · have hrest := h w e
      rw [Function.update_of_ne hw] at hrest
      simp [hw, hrest]

theorem listSchedule_alarms (expiry : UInt64) (w : W) {entries : List (W × UInt64)}
    {alarm : W → Option UInt64} (hnodup : (entries.map Prod.fst).Nodup)
    (h : Alarms entries alarm) : Alarms (listSchedule expiry w entries).2
      (Function.update alarm w (some (earlier expiry (alarm w)))) := by
  induction entries generalizing alarm with
  | nil =>
    have hnone : ∀ v, alarm v = none := fun v => by
      rw [Option.eq_none_iff_forall_ne_some]
      exact fun e he => absurd ((h v e).mpr he) List.not_mem_nil
    have hnil : Alarms [] (Function.update alarm w none) := fun v e => by
      by_cases hv : v = w <;> simp [hv, hnone]
    apply (alarms_cons List.not_mem_nil).mpr
    rw [Function.update_self, Function.update_idem, hnone w]
    exact ⟨rfl, hnil⟩
  | cons head rest ih =>
    obtain ⟨v, f⟩ := head
    obtain ⟨hv, hnodup⟩ := List.nodup_cons.mp hnodup
    obtain ⟨hf, hrest⟩ := (alarms_cons hv).mp h
    simp only [listSchedule]
    by_cases hvw : v = w
    · subst hvw
      rw [if_pos rfl, hf]
      have hcons : ∀ e, Alarms ((v, e) :: rest) (Function.update alarm v (some e)) := fun e => by
        apply (alarms_cons hv).mpr
        rw [Function.update_self, Function.update_idem]
        exact ⟨rfl, hrest⟩
      by_cases hlt : expiry < f
      · simpa only [earlier, if_pos hlt] using hcons expiry
      · simpa only [earlier, if_neg hlt] using hcons f
    · rw [if_neg hvw]
      have hwv : w ≠ v := Ne.symm hvw
      have htail := ih hnodup hrest
      rw [Function.update_of_ne hwv, Function.update_comm hvw] at htail
      apply (alarms_cons ?_).mpr
      · rw [Function.update_of_ne hvw]
        exact ⟨hf, htail⟩
      · rw [listSchedule_keys]
        split
        · exact hv
        · rw [List.mem_append, not_or, List.mem_singleton]
          exact ⟨hv, hvw⟩

/-- `queued` is `alarm`, up to alarms at `u64Max`. -/
def Forgets (queued alarm : W → Option UInt64) : Prop :=
  ∀ w, queued w = alarm w ∨ queued w = none ∧ alarm w = some u64Max

omit [DecidableEq W] in
theorem Forgets.trans {queued alarm all : W → Option UInt64} (h : Forgets queued alarm)
    (k : Forgets alarm all) : Forgets queued all := fun w => by
  rcases h w with heq | ⟨hnone, hmax⟩
  · rw [heq]
    exact k w
  · rcases k w with heq | ⟨hforgot, _⟩
    · exact Or.inr ⟨hnone, heq ▸ hmax⟩
    · cases hforgot.symm.trans hmax

omit [DecidableEq W] in
theorem Forgets.set {queued alarm : W → Option UInt64} (h : Forgets queued alarm) {w : W}
    {e : UInt64} (he : queued w = some e) : alarm w = some e := by
  rcases h w with heq | ⟨hnone, _⟩
  · exact heq.symm.trans he
  · cases hnone.symm.trans he

omit [DecidableEq W] in
theorem Forgets.queued {queued alarm : W → Option UInt64} (h : Forgets queued alarm) {w : W}
    {e : UInt64} (he : alarm w = some e) (hfin : e ≠ u64Max) : queued w = some e := by
  rcases h w with heq | ⟨_, hmax⟩
  · exact heq.trans he
  · exact absurd (Option.some.inj (he.symm.trans hmax)) hfin

theorem earlier_u64Max (expiry : UInt64) : earlier expiry (some u64Max) = expiry := by
  unfold earlier
  dsimp only
  split
  · rfl
  · next hnot => exact UInt64.le_antisymm (UInt64.not_lt.mp hnot) (le_u64Max expiry)

theorem Forgets.update {queued alarm : W → Option UInt64} (h : Forgets queued alarm)
    (expiry : UInt64) (w : W) :
    Forgets (Function.update queued w (some (earlier expiry (queued w))))
      (Function.update alarm w (some (earlier expiry (alarm w)))) := fun v => by
  by_cases hv : v = w
  · subst hv
    left
    rw [Function.update_self, Function.update_self]
    rcases h v with heq | ⟨hnone, hmax⟩
    · rw [heq]
    · rw [hnone, hmax, earlier_u64Max]
      rfl
  · rw [Function.update_of_ne hv, Function.update_of_ne hv]
    exact h v

/-- Entries that never expire are dropped with the alarms they stood for. -/
theorem UpToNever.alarms {left all : List (W × UInt64)} {queued : W → Option UInt64}
    (h : UpToNever left all) (hall : Alarms all queued) :
    ∃ queued', Alarms left queued' ∧ Forgets queued' queued := by
  refine ⟨fun w => if w ∈ left.map Prod.fst then queued w else none, fun w e => ?_, fun w => ?_⟩
  · dsimp only
    constructor
    · intro he
      rw [if_pos (show w ∈ left.map Prod.fst from List.mem_map_of_mem he)]
      exact (hall w e).mp (h.subset he)
    · intro hset
      split at hset
      · next hw =>
        obtain ⟨⟨v, f⟩, hf, rfl⟩ := List.mem_map.mp hw
        cases hset.symm.trans ((hall v f).mp (h.subset hf))
        exact hf
      · cases hset
  · dsimp only
    by_cases hw : w ∈ left.map Prod.fst
    · left
      rw [if_pos hw]
    · rw [if_neg hw]
      cases hset : queued w with
      | none => exact Or.inl rfl
      | some e =>
        refine Or.inr ⟨rfl, congrArg some ?_⟩
        by_contra hfin
        exact hw (List.mem_map_of_mem (h.mem_of_finite ((hall w e).mpr hset) hfin))

end

/-! ### The driver refines the alarm clock -/

section
variable {W : Type} [DecidableEq W] {Q : Queue W}

structure Shows (d : Driver Q) (c : AlarmClock W) : Prop where
  now : c.now = d.timer.nowMicros
  alarms : ∃ queued, Alarms (Q.entries d.queue) queued ∧ Forgets queued c.alarm
  nodup : ((Q.entries d.queue).map Prod.fst).Nodup

omit [DecidableEq W] in
theorem Shows.alarm_of_queued {d : Driver Q} {c : AlarmClock W} (h : Shows d c) {w : W}
    {e : UInt64} (he : (w, e) ∈ Q.entries d.queue) : c.alarm w = some e := by
  obtain ⟨queued, halarms, hforgets⟩ := h.alarms
  exact hforgets.set ((halarms w e).mp he)

omit [DecidableEq W] in
theorem Shows.queued_of_alarm {d : Driver Q} {c : AlarmClock W} (h : Shows d c) {w : W}
    {e : UInt64} (he : c.alarm w = some e) (hfin : e ≠ u64Max) : (w, e) ∈ Q.entries d.queue := by
  obtain ⟨queued, halarms, hforgets⟩ := h.alarms
  exact (halarms w e).mpr (hforgets.queued he hfin)

/-- From `d` to `d'` the alarm clock can follow, showing `seen`. -/
def Follows (d : Driver Q) (seen : List (Seen W)) (d' : Driver Q) : Prop :=
  ∀ c, Shows d c → ∃ js c', (alarmClock W).Run c js c' ∧
    js.filterMap ClockEvent.seen? = seen ∧ Shows d' c'

theorem Follows.trans {d e f : Driver Q} {seen later : List (Seen W)} (h : Follows d seen e)
    (k : Follows e later f) : Follows d (seen ++ later) f := by
  intro c hc
  obtain ⟨js, c', hjs, hseen, hc'⟩ := h c hc
  obtain ⟨ks, c'', hks, hlater, hc''⟩ := k c' hc'
  exact ⟨js ++ ks, c'', hjs.append hks, by rw [List.filterMap_append, hseen, hlater], hc''⟩

theorem follows_elapse (d : Driver Q) (n : Nat) {t : SystemTimer}
    (h : t.micros = d.timer.micros + n) : Follows d [] { d with timer := t } := by
  intro c hc
  refine ⟨_, _, clock_ticks c n, ?_, ?_, hc.alarms, hc.nodup⟩
  · rw [List.filterMap_replicate_of_none rfl]
  · show c.now + UInt64.ofNat n = UInt64.ofNat t.micros
    rw [h, UInt64.ofNat_add, hc.now]
    rfl

theorem follows_drain (d : Driver Q) :
    let r := Q.nextExpiration d.timer.nowMicros d.queue
    Follows d (r.2.1.map .ring) { d with queue := r.2.2, woken := d.woken ++ r.2.1 } := by
  intro r c hc
  have hwoken := Q.nextExpiration_woken d.timer.nowMicros d.queue
  have hkept := Q.nextExpiration_entries d.timer.nowMicros d.queue
  obtain ⟨queued, halarms, hforgets⟩ := hc.alarms
  have hmem : ∀ w, w ∈ r.2.1 ↔ ∃ e, (w, e) ∈ Q.entries d.queue ∧ e ≤ c.now := fun w => by
    rw [hwoken.mem_iff, hc.now]
    simp [List.mem_map, List.mem_filter]
  have hahead := hc.nodup.sublist
    ((List.filter_sublist (p := fun x => d.timer.nowMicros < x.2)).map Prod.fst)
  have hnodup : r.2.1.Nodup :=
    hwoken.nodup_iff.mpr (hc.nodup.sublist (List.filter_sublist.map Prod.fst))
  -- Of what is ahead nothing rings, and of what rings nothing is ahead.
  have hleft : Alarms ((Q.entries d.queue).filter fun x => d.timer.nowMicros < x.2)
      fun w => if w ∈ r.2.1 then none else queued w := fun w e => by
    have hfilter : (w, e) ∈ (Q.entries d.queue).filter (fun x => d.timer.nowMicros < x.2) ↔
        (w, e) ∈ Q.entries d.queue ∧ c.now < e := by
      rw [hc.now]
      simp [List.mem_filter]
    rw [hfilter, halarms w e]
    dsimp only
    by_cases hw : w ∈ r.2.1
    · rw [if_pos hw]
      obtain ⟨f, hf, hdue⟩ := (hmem w).mp hw
      rw [halarms] at hf
      refine iff_of_false (fun ⟨he, hlt⟩ => ?_) (by simp)
      rw [hf] at he
      cases he
      exact UInt64.not_lt.mpr hdue hlt
    · rw [if_neg hw]
      refine and_iff_left_of_imp fun he => UInt64.not_le.mp fun hdue => hw ?_
      exact (hmem w).mpr ⟨e, (halarms w e).mpr he, hdue⟩
  obtain ⟨queued', halarms', hforgets'⟩ := hkept.alarms hleft
  refine ⟨_, _, clock_rings c r.2.1 hnodup fun w hw => ?_, ?_, hc.now, ⟨queued', halarms', ?_⟩, ?_⟩
  · obtain ⟨e, he, hdue⟩ := (hmem w).mp hw
    exact ⟨e, hforgets.set ((halarms w e).mp he), hdue⟩
  · rw [List.filterMap_map]
    exact congrFun List.filterMap_eq_map r.2.1
  · refine hforgets'.trans fun w => ?_
    by_cases hw : w ∈ r.2.1
    · left
      simp only [if_pos hw]
    · simp only [if_neg hw]
      exact hforgets w
  · exact hkept.nodup_keys hahead

theorem follows_turn (d : Driver Q) (k : TurnTicks) :
    let next := d.nextExpiration k.drain
    ∃ ws, next.2.woken = d.woken ++ ws ∧ Follows d (ws.map .ring)
      { next.2 with timer := (next.2.timer.setCompare1 next.1 k.toArmTicks).2 } := by
  refine ⟨_, rfl, ?_⟩
  have hdrain := follows_drain { d with timer := d.timer.elapse k.drain }
  have harm := follows_elapse (d.nextExpiration k.drain).2 (k.read + k.write + k.check)
    (t := ((d.nextExpiration k.drain).2.timer.setCompare1 (d.nextExpiration k.drain).1
      k.toArmTicks).2) (by simp [SystemTimer.setCompare1, Nat.add_assoc])
  have hturn := ((follows_elapse d k.drain (SystemTimer.elapse_micros _ _)).trans hdrain).trans harm
  rw [List.append_nil, List.nil_append] at hturn
  exact hturn

theorem rearm_follows (turns : List TurnTicks) (d d' : Driver Q) (h : d.rearm turns = some d') :
    ∃ ws, d'.woken = d.woken ++ ws ∧ Follows d (ws.map .ring) d' := by
  induction turns generalizing d with
  | nil => cases h
  | cons k ks ih =>
    obtain ⟨ws, hws, hturn⟩ := follows_turn d k
    simp only [Driver.rearm] at h
    split at h
    · cases Option.some.inj h
      exact ⟨ws, hws, hturn⟩
    · obtain ⟨vs, hvs, hrest⟩ := ih _ h
      refine ⟨ws ++ vs, ?_, ?_⟩
      · rw [hvs, ← List.append_assoc, ← hws]
      · rw [List.map_append]
        exact hturn.trans hrest

theorem schedule_follows (hQ : Q.Merges) (expiry : UInt64) (w : W) (d : Driver Q) :
    Follows d [.set expiry w] { d with queue := (Q.scheduleWake expiry w d.queue).2 } := by
  intro c hc
  have hmerged := hQ.scheduleWake_entries expiry w d.queue
  obtain ⟨queued, halarms, hforgets⟩ := hc.alarms
  have hset := listSchedule_alarms expiry w hc.nodup halarms
  obtain ⟨queued', halarms', hforgets'⟩ := hmerged.alarms hset
  refine ⟨[.seen (.set expiry w)], _, .single trivial, rfl, hc.now,
    ⟨queued', halarms', hforgets'.trans (hforgets.update expiry w)⟩, hmerged.nodup_keys ?_⟩
  rw [listSchedule_keys]
  split
  · exact hc.nodup
  · next hnew => exact List.Nodup.append hc.nodup (List.nodup_singleton w) (by simpa using hnew)

def Event.sets : Event W → List (Seen W)
  | .scheduleWake expiry w _ => [.set expiry w]
  | _ => []

theorem exec_follows (hQ : Q.Merges) {d d' : Driver Q} {e : Event W} (h : exec d e = some d') :
    ∃ ws, d'.woken = d.woken ++ ws ∧ Follows d (e.sets ++ ws.map .ring) d' := by
  cases e with
  | tick =>
    cases Option.some.inj h
    exact ⟨[], (List.append_nil _).symm, follows_elapse d 1 rfl⟩
  | scheduleWake expiry w turns =>
    have hset := schedule_follows hQ expiry w d
    simp only [exec, Driver.scheduleWake] at h
    split at h
    · obtain ⟨ws, hws, hrearm⟩ := rearm_follows turns _ d' h
      exact ⟨ws, hws, hset.trans hrearm⟩
    · cases Option.some.inj h
      exact ⟨[], (List.append_nil _).symm, hset⟩
  | onTimerIrq clear turns =>
    have hclear := follows_elapse d clear (t := (d.timer.elapse clear).clearCompare1Match)
      (SystemTimer.elapse_micros _ _)
    obtain ⟨ws, hws, hrearm⟩ := rearm_follows turns _ d' h
    exact ⟨ws, hws, hclear.trans hrearm⟩

theorem run_follows (hQ : Q.Merges) {d d' : Driver Q} {es : List (Event W)}
    (h : (driver Q).Run d es d') :
    ∃ seen ws, d'.woken = d.woken ++ ws ∧ (∀ w, .ring w ∈ seen → w ∈ ws) ∧ Follows d seen d' := by
  induction h with
  | nil => exact ⟨[], [], (List.append_nil _).symm, by simp, fun c hc => ⟨[], c, .nil, rfl, hc⟩⟩
  | snoc e _ he ih =>
    obtain ⟨seen, ws, hws, hring, hrun⟩ := ih
    obtain ⟨vs, hvs, hstep⟩ := exec_follows hQ (exec_of_enabled he)
    refine ⟨_, ws ++ vs, ?_, fun w hw => ?_, hrun.trans hstep⟩
    · rw [hvs, hws, List.append_assoc]
    · rcases List.mem_append.mp hw with hw | hw
      · exact List.mem_append_left _ (hring w hw)
      · have hsets : .ring w ∉ e.sets := by cases e <;> simp [Event.sets]
        rcases List.mem_append.mp hw with hw | hw
        · exact absurd hw hsets
        · exact List.mem_append_right _ (by simpa using hw)

theorem ne_u64Max_of_le {e f : UInt64} (hle : f ≤ e) (hfin : e ≠ u64Max) : f ≠ u64Max := by
  rintro rfl
  exact hfin (UInt64.le_antisymm (le_u64Max e) hle)

/-- A finite expiry leaves the queue for an earlier one of the same waker, or with its
wake. -/
theorem run_entry_kept (hQ : Q.Merges) {d d' : Driver Q} {es : List (Event W)}
    (h : (driver Q).Run d es d') {c : AlarmClock W} (hc : Shows d c) {w : W} {e : UInt64}
    (he : (w, e) ∈ Q.entries d.queue) (hfin : e ≠ u64Max) :
    (∃ f, f ≤ e ∧ (w, f) ∈ Q.entries d'.queue) ∨ ∃ ws, d'.woken = d.woken ++ ws ∧ w ∈ ws := by
  obtain ⟨seen, ws, hws, hring, hfollows⟩ := run_follows hQ h
  obtain ⟨js, c', hjs, hseen, hc'⟩ := hfollows c hc
  rcases alarm_set_or_rung hjs (hc.alarm_of_queued he) with ⟨f, hle, hf⟩ | hrung
  · exact Or.inl ⟨f, hle, hc'.queued_of_alarm hf (ne_u64Max_of_le hle hfin)⟩
  · exact Or.inr ⟨ws, hws, hring w (hseen ▸ hrung)⟩

end

end RpiHalEmbassy.TimeDriver
