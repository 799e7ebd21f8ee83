import Mathlib.Data.Finset.Card
import Mathlib.Data.List.Perm.Basic
import RpiHalEmbassy.TimeDriver.Driver

/-!
# The re-arm loop ends

`TimeDriver::rearm` has no measure of its own. What stops it is that a deadline
refused by `set_compare1` has come due by the next reading, so the next drain
takes it out of the queue: no expiry is refused twice. Here the loop runs against
any readings and any answers; the driver over the System Timer is one case.
-/

namespace RpiHalEmbassy.TimeDriver

variable {W : Type} {Q : Queue W}

/-- One turn of the loop: the reading passed to `next_expiration`, the answers of
`set_compare1`, and the counter by the time it returns. -/
structure Turn where
  now : UInt64
  setCompare1 : UInt64 → Bool
  returned : UInt64

structure Turn.Fair (t : Turn) : Prop where
  refused : ∀ d, t.setCompare1 d = false → d ≤ t.returned
  never_max : t.setCompare1 u64Max = true
  within : t.now ≤ t.returned

structure Rearmed (Q : Queue W) where
  queue : Q.State
  woken : List W
  /-- Of every turn, the reading and the deadline `set_compare1` was asked for. -/
  calls : List (UInt64 × UInt64)

/-- `none` is a loop still turning when the given turns run out. -/
def rearmLoop : List Turn → Q.State → Option (Rearmed Q)
  | [], _ => none
  | t :: ts, q =>
    let next := Q.nextExpiration t.now q
    if t.setCompare1 next.1 then some ⟨next.2.2, next.2.1, [(t.now, next.1)]⟩
    else (rearmLoop ts next.2.2).map fun r =>
      ⟨r.queue, next.2.1 ++ r.woken, (t.now, next.1) :: r.calls⟩

def finiteExpiries (entries : List (W × UInt64)) : Finset UInt64 :=
  (entries.map Prod.snd).toFinset.erase u64Max

theorem mem_finiteExpiries {entries : List (W × UInt64)} {e : UInt64} :
    e ∈ finiteExpiries entries ↔ e ≠ u64Max ∧ ∃ w, (w, e) ∈ entries := by
  simp [finiteExpiries]

def due (now : UInt64) (entries : List (W × UInt64)) : List (W × UInt64) :=
  entries.filter fun x => x.2 ≤ now

def ahead (now : UInt64) (entries : List (W × UInt64)) : List (W × UInt64) :=
  entries.filter fun x => now < x.2

theorem ahead_ahead {now later : UInt64} (h : now ≤ later) (entries : List (W × UInt64)) :
    ahead later (ahead now entries) = ahead later entries := by
  unfold ahead
  rw [List.filter_filter]
  apply List.filter_congr
  intro x _
  rw [Bool.and_eq_left_iff_imp, decide_eq_true_iff, decide_eq_true_iff]
  exact UInt64.lt_of_le_of_lt h

theorem finiteExpiries_ahead_subset (now : UInt64) (entries : List (W × UInt64)) :
    finiteExpiries (ahead now entries) ⊆ finiteExpiries entries := by
  intro e he
  obtain ⟨hfin, w, hw⟩ := mem_finiteExpiries.mp he
  exact mem_finiteExpiries.mpr ⟨hfin, w, (List.mem_filter.mp hw).1⟩

/-- A refused least expiry is gone at the next drain. -/
theorem card_ahead_lt {later : UInt64} {entries : List (W × UInt64)}
    (hfin : leastExpiry entries ≠ u64Max) (hdue : leastExpiry entries ≤ later) :
    (finiteExpiries (ahead later entries)).card < (finiteExpiries entries).card := by
  apply Finset.card_lt_card
  rw [Finset.ssubset_iff_of_subset (finiteExpiries_ahead_subset later entries)]
  refine ⟨leastExpiry entries, ?_, ?_⟩
  · exact mem_finiteExpiries.mpr ⟨hfin, leastExpiry_mem hfin⟩
  · intro hmem
    obtain ⟨_, w, hw⟩ := mem_finiteExpiries.mp hmem
    have hlt : later < leastExpiry entries := of_decide_eq_true (List.mem_filter.mp hw).2
    exact UInt64.not_lt.mpr hdue hlt

/-- What the loop leaves behind, `now` being its last reading. `all` is what was queued, up
to entries that never expire. -/
structure Drained (Q : Queue W) (q : Q.State) (now : UInt64) (r : Rearmed Q)
    (all : List (W × UInt64)) : Prop where
  queued : UpToNever all (Q.entries q)
  whole : Q.KeepsAll → all.Perm (Q.entries q)
  woken : r.woken.Perm ((due now all).map Prod.fst)
  kept : (Q.entries r.queue).Perm (ahead now all)

theorem due_append_ahead (now : UInt64) (entries : List (W × UInt64)) :
    (due now entries ++ ahead now entries).Perm entries := by
  have hparts := List.filter_append_perm (fun x : W × UInt64 => decide (x.2 ≤ now)) entries
  simp only [← decide_not, UInt64.not_le] at hparts
  exact hparts

/-- What is queued is what one drain takes out, what it leaves and what it drops. -/
theorem queued_of_drain {q : Q.State} {now : UInt64} {left : List (W × UInt64)}
    (h : UpToNever left (Q.entries (Q.nextExpiration now q).2.2)) :
    UpToNever (due now (Q.entries q) ++ left) (Q.entries q) :=
  ((h.trans (Q.nextExpiration_entries now q)).append_left _).trans
    (.of_perm (due_append_ahead now _))

theorem due_due_append {first now : UInt64} (hle : first ≤ now) (entries l : List (W × UInt64)) :
    due now (due first entries ++ l) = due first entries ++ due now l := by
  unfold due
  rw [List.filter_append, List.filter_filter]
  congr 1
  apply List.filter_congr
  intro x _
  rw [Bool.and_eq_right_iff_imp, decide_eq_true_iff, decide_eq_true_iff]
  exact fun hx => UInt64.le_trans hx hle

theorem ahead_due_append {first now : UInt64} (hle : first ≤ now) (entries l : List (W × UInt64)) :
    ahead now (due first entries ++ l) = ahead now l := by
  have hnone : ahead now (due first entries) = [] := by
    refine List.filter_eq_nil_iff.mpr fun x hx => ?_
    have hdue : x.2 ≤ first := of_decide_eq_true (List.mem_filter.mp hx).2
    rw [decide_eq_true_iff, UInt64.not_lt]
    exact UInt64.le_trans hdue hle
  unfold ahead at hnone ⊢
  rw [List.filter_append, hnone, List.nil_append]

theorem drained_of_accepted (q : Q.State) (now : UInt64) (calls : List (UInt64 × UInt64)) :
    let next := Q.nextExpiration now q
    Drained Q q now ⟨next.2.2, next.2.1, calls⟩
      (due now (Q.entries q) ++ Q.entries next.2.2) := by
  have hleft : ∀ x ∈ Q.entries (Q.nextExpiration now q).2.2, now < x.2 := fun x hx =>
    Q.ahead_of_nextExpiration (w := x.1) (e := x.2) hx
  have hnone : due now (Q.entries (Q.nextExpiration now q).2.2) = [] :=
    List.filter_eq_nil_iff.mpr fun x hx => by
      rw [decide_eq_true_iff, UInt64.not_le]
      exact hleft x hx
  refine ⟨queued_of_drain (.of_perm (.refl _)), fun hkeeps => ?_, ?_, ?_⟩
  · exact ((hkeeps now q).append_left _).trans (due_append_ahead now _)
  · rw [due_due_append (UInt64.le_refl now), hnone, List.append_nil]
    exact Q.nextExpiration_woken now q
  · rw [ahead_due_append (UInt64.le_refl now)]
    refine .of_eq (List.filter_eq_self.mpr fun x hx => ?_).symm
    exact decide_eq_true (hleft x hx)

theorem drained_of_refused {q : Q.State} {first now : UInt64} {r : Rearmed Q}
    {all : List (W × UInt64)} (hle : first ≤ now)
    (h : Drained Q (Q.nextExpiration first q).2.2 now r all) (calls : List (UInt64 × UInt64)) :
    Drained Q q now ⟨r.queue, (Q.nextExpiration first q).2.1 ++ r.woken, calls⟩
      (due first (Q.entries q) ++ all) := by
  refine ⟨queued_of_drain h.queued, fun hkeeps => ?_, ?_, ?_⟩
  · exact (((h.whole hkeeps).trans (hkeeps first q)).append_left _).trans
      (due_append_ahead first _)
  · rw [due_due_append hle, List.map_append]
    exact (Q.nextExpiration_woken first q).append h.woken
  · rw [ahead_due_append hle]
    exact h.kept

/-- The deadline asked for at a reading of `now` is the least still ahead of it. -/
theorem leastExpiry_ahead {q : Q.State} {first now : UInt64} (hle : first ≤ now) :
    leastExpiry (ahead now (Q.entries (Q.nextExpiration first q).2.2)) =
      leastExpiry (ahead now (Q.entries q)) := by
  have hleft := (Q.nextExpiration_entries first q).filter fun x => now < x.2
  rw [← ahead_ahead hle (Q.entries q)]
  exact hleft.leastExpiry_eq

/-- A loop that has returned refused all its turns but the last, and drained at each. -/
theorem rearmLoop_calls (turns : List Turn) (q : Q.State) (r : Rearmed Q)
    (horder : turns.Pairwise fun t u => t.now ≤ u.now) (h : rearmLoop turns q = some r) :
    ∃ refused t rest all, turns = refused ++ t :: rest ∧
      r.calls = (refused ++ [t]).map (fun u =>
        (u.now, leastExpiry (ahead u.now (Q.entries q)))) ∧
      (∀ u ∈ refused, u.setCompare1 (leastExpiry (ahead u.now (Q.entries q))) = false) ∧
      t.setCompare1 (leastExpiry (Q.entries r.queue)) = true ∧ Drained Q q t.now r all := by
  induction turns generalizing q r with
  | nil => cases h
  | cons t ts ih =>
    obtain ⟨hlater, horder⟩ := List.pairwise_cons.mp horder
    have hleast := Q.nextExpiration_least t.now q
    have hasked : (Q.nextExpiration t.now q).1 = leastExpiry (ahead t.now (Q.entries q)) :=
      hleast.trans (Q.nextExpiration_entries t.now q).leastExpiry_eq
    simp only [rearmLoop] at h
    split at h
    · next hok =>
      cases Option.some.inj h
      refine ⟨[], t, ts, _, rfl, ?_, ?_, ?_, drained_of_accepted q t.now _⟩
      · rw [hasked]
        rfl
      · exact fun u hu => absurd hu List.not_mem_nil
      · rw [← hleast]
        exact hok
    · next hno =>
      obtain ⟨s, hs, rfl⟩ := Option.map_eq_some_iff.mp h
      obtain ⟨refused, u, rest, all, rfl, hcalls, hrefused, hok, hdrained⟩ := ih _ s horder hs
      have hsame : ∀ v ∈ refused ++ [u],
          leastExpiry (ahead v.now (Q.entries (Q.nextExpiration t.now q).2.2)) =
            leastExpiry (ahead v.now (Q.entries q)) := fun v hv => by
        refine leastExpiry_ahead (hlater v ?_)
        rw [List.append_cons]
        exact List.mem_append_left rest hv
      refine ⟨t :: refused, u, rest, due t.now (Q.entries q) ++ all, rfl, ?_, ?_, hok, ?_⟩
      · rw [hcalls, hasked]
        refine congrArg (_ :: ·) (List.map_congr_left fun v hv => ?_)
        rw [hsame v hv]
      · rintro v (_ | ⟨_, hv⟩)
        · rw [← hasked]
          exact Bool.eq_false_iff.mpr hno
        · rw [← hsame v (List.mem_append_left _ hv)]
          exact hrefused v hv
      · exact drained_of_refused (hlater u (List.mem_append_right _ (List.mem_cons_self ..)))
          hdrained _

/-- `bound` is the number of finite expiries still ahead of the first reading: each
refusal lowers it, so the induction is on the turns with the bound carried along. -/
theorem rearmLoop_returns (start : UInt64) (turns : List Turn) (q : Q.State)
    (hfair : ∀ t ∈ turns, t.Fair) (horder : turns.Pairwise fun t u => t.returned ≤ u.now)
    (hstart : ∀ t ∈ turns, start ≤ t.now)
    (henough : (finiteExpiries (ahead start (Q.entries q))).card < turns.length) :
    ∃ r, rearmLoop turns q = some r ∧
      r.calls.length ≤ (finiteExpiries (ahead start (Q.entries q))).card + 1 := by
  induction turns generalizing q start with
  | nil => simp at henough
  | cons t ts ih =>
    have ht := hfair t (List.mem_cons_self ..)
    have hnow := hstart t (List.mem_cons_self ..)
    obtain ⟨hlater, horder⟩ := List.pairwise_cons.mp horder
    by_cases hok : t.setCompare1 (Q.nextExpiration t.now q).1 = true
    · refine ⟨_, if_pos hok, ?_⟩
      simp only [List.length_singleton]
      omega
    · have hrefused := ht.refused _ (Bool.eq_false_iff.mpr hok)
      have hfin : (Q.nextExpiration t.now q).1 ≠ u64Max := fun hmax =>
        hok (by rw [hmax]; exact ht.never_max)
      rw [Q.nextExpiration_least] at hrefused hfin
      have hlt := card_ahead_lt hfin hrefused
      have hsub : finiteExpiries (Q.entries (Q.nextExpiration t.now q).2.2) ⊆
          finiteExpiries (ahead start (Q.entries q)) := by
        intro e he
        obtain ⟨hmax, w, hw⟩ := mem_finiteExpiries.mp he
        have hw := (Q.nextExpiration_entries t.now q).subset hw
        rw [show (Q.entries q).filter (fun x => t.now < x.2) = ahead t.now (Q.entries q) from rfl,
          ← ahead_ahead hnow] at hw
        exact mem_finiteExpiries.mpr ⟨hmax, w, (List.mem_filter.mp hw).1⟩
      have hcard := Finset.card_le_card hsub
      simp only [List.length_cons] at henough
      obtain ⟨r, hrun, hcalls⟩ := ih t.returned (Q.nextExpiration t.now q).2.2
        (fun u hu => hfair u (List.mem_cons_of_mem _ hu)) horder hlater (by omega)
      refine ⟨⟨r.queue, (Q.nextExpiration t.now q).2.1 ++ r.woken,
        (t.now, (Q.nextExpiration t.now q).1) :: r.calls⟩, ?_, ?_⟩
      · simp only [rearmLoop, if_neg hok, hrun, Option.map_some]
      · simp only [List.length_cons]
        omega

theorem pairwise_now {turns : List Turn} (hfair : ∀ t ∈ turns, t.Fair)
    (horder : turns.Pairwise fun t u => t.returned ≤ u.now) :
    turns.Pairwise fun t u => t.now ≤ u.now :=
  horder.imp_of_mem fun ht _ hle => UInt64.le_trans (hfair _ ht).within hle

theorem range_map_eq_append {α : Type} {f : Nat → α} {n : Nat} {l m : List α} {x : α}
    (h : (List.range n).map f = l ++ x :: m) :
    l.length < n ∧ l = (List.range l.length).map f ∧ x = f l.length := by
  have hlen := congrArg List.length h
  rw [List.length_map, List.length_range, List.length_append, List.length_cons] at hlen
  have hlt : l.length < n := by omega
  have hat := congrArg (fun k => k[l.length]?) h
  have htake := congrArg (List.take l.length) h
  simp only [List.getElem?_map, List.getElem?_range hlt, Option.map_some] at hat
  rw [List.getElem?_append_right (Nat.le_refl _), Nat.sub_self, List.getElem?_cons_zero] at hat
  rw [List.take_left, ← List.map_take, List.take_range, Nat.min_eq_left (Nat.le_of_lt hlt)] at htake
  exact ⟨hlt, htake.symm, (Option.some.inj hat).symm⟩

/-- The loop ends with turn `i`, the first accepted: what it was called with and answered at
each turn, and what it woke and left, `all` being the queue up to entries that never expire. -/
theorem rearm_ends_and_drains (q : Q.State) (turns : Nat → Turn) (hfair : ∀ i, (turns i).Fair)
    (horder : ∀ i j, i < j → (turns i).returned ≤ (turns j).now) (n : Nat)
    (hn : (finiteExpiries (Q.entries q)).card < n) :
    ∃ r i all, rearmLoop ((List.range n).map turns) q = some r ∧ i < n ∧
      r.calls.length ≤ (finiteExpiries (Q.entries q)).card + 1 ∧
      r.calls = (List.range (i + 1)).map (fun j =>
        ((turns j).now, leastExpiry (ahead (turns j).now (Q.entries q)))) ∧
      (∀ j < i, (turns j).setCompare1 (leastExpiry (ahead (turns j).now (Q.entries q))) = false) ∧
      (turns i).setCompare1 (leastExpiry (Q.entries r.queue)) = true ∧
      r.calls.getLast? = some ((turns i).now, leastExpiry (Q.entries r.queue)) ∧
      UpToNever all (Q.entries q) ∧ (Q.KeepsAll → all.Perm (Q.entries q)) ∧
      r.woken.Perm ((all.filter fun x => x.2 ≤ (turns i).now).map Prod.fst) ∧
      (Q.entries r.queue).Perm (all.filter fun x => (turns i).now < x.2) := by
  have hcard := Finset.card_le_card (finiteExpiries_ahead_subset 0 (Q.entries q))
  have hfair : ∀ t ∈ (List.range n).map turns, t.Fair := by simp [hfair]
  have horder : ((List.range n).map turns).Pairwise fun t u => t.returned ≤ u.now :=
    List.pairwise_map.mpr (List.pairwise_lt_range.imp fun h => horder _ _ h)
  obtain ⟨r, hrun, hcalls⟩ := rearmLoop_returns 0 ((List.range n).map turns) q hfair horder
    (fun _ _ => UInt64.zero_le) (by rw [List.length_map, List.length_range]; omega)
  obtain ⟨refused, t, rest, all, hcut, hasked, hrefused, hok, hdrained⟩ :=
    rearmLoop_calls _ q r (pairwise_now hfair horder) hrun
  obtain ⟨hlt, hfirst, rfl⟩ := range_map_eq_append hcut
  have hturns : refused ++ [turns refused.length] =
      (List.range (refused.length + 1)).map turns := by
    rw [List.range_succ, List.map_append, ← hfirst, List.map_singleton]
  have hleast : leastExpiry (ahead (turns refused.length).now (Q.entries q)) =
      leastExpiry (Q.entries r.queue) := by
    have hkept : UpToNever (Q.entries r.queue) (ahead (turns refused.length).now (Q.entries q)) :=
      (UpToNever.of_perm hdrained.kept).trans (hdrained.queued.filter _)
    exact hkept.leastExpiry_eq.symm
  refine ⟨r, refused.length, all, hrun, hlt, by omega, ?_, fun j hj => ?_, hok, ?_,
    hdrained.queued, hdrained.whole, hdrained.woken, hdrained.kept⟩
  · rw [hasked, hturns, List.map_map]
    rfl
  · refine hrefused (turns j) ?_
    rw [hfirst]
    exact List.mem_map_of_mem (List.mem_range.mpr hj)
  · rw [hasked, List.map_append, List.map_singleton, List.getLast?_concat, hleast]

/-- The counter overtakes the second deadline while it is being armed. -/
theorem rearm_ends_and_drains_when_overtaken :
    ∃ (turns : Nat → Turn) (r : Rearmed (listQueue Nat)) (all : List (Nat × UInt64)),
      turns 0 = ⟨5, fun d => 12 < d, 12⟩ ∧ turns 1 = ⟨20, fun d => 20 < d, 20⟩ ∧
      rearmLoop ((List.range 4).map turns) [(1, 5), (2, 10), (3, 30)] = some r ∧
      r.calls = [(5, 10), (20, 30)] ∧ (turns 1).setCompare1 (leastExpiry r.queue) = true ∧
      UpToNever all [(1, 5), (2, 10), (3, 30)] ∧
      r.woken.Perm ((all.filter fun x => x.2 ≤ 20).map Prod.fst) ∧
      r.queue.Perm (all.filter fun x => 20 < x.2) := by
  let turns : Nat → Turn := fun i =>
    if i = 0 then ⟨5, fun d => 12 < d, 12⟩ else ⟨20, fun d => 20 < d, 20⟩
  have hfair : ∀ i, (turns i).Fair := by
    intro i
    by_cases hi : i = 0
    · simp only [turns, if_pos hi]
      exact ⟨fun d hd => UInt64.not_lt.mp (of_decide_eq_false hd), by decide, by decide⟩
    · simp only [turns, if_neg hi]
      exact ⟨fun d hd => UInt64.not_lt.mp (of_decide_eq_false hd), by decide, by decide⟩
  have horder : ∀ i j, i < j → (turns i).returned ≤ (turns j).now := by
    intro i j hij
    have hj : j ≠ 0 := by omega
    by_cases hi : i = 0
    · simp only [turns, if_pos hi, if_neg hj]
      decide
    · simp only [turns, if_neg hi, if_neg hj]
      decide
  obtain ⟨r, i, all, hrun, _, _, hcalls, _, hok, _, hall, _, hwoken, hkept⟩ :=
    rearm_ends_and_drains (Q := listQueue Nat) [(1, 5), (2, 10), (3, 30)] turns hfair horder 4
      (by decide)
  obtain rfl : r = ⟨[(3, 30)], [1, 2], [(5, 10), (20, 30)]⟩ := Option.some.inj (hrun.symm.trans rfl)
  have hi := congrArg List.length hcalls
  rw [List.length_map, List.length_range] at hi
  obtain rfl : i = 1 := (Nat.succ.inj hi).symm
  exact ⟨turns, _, all, rfl, rfl, hrun, rfl, hok, hall, hwoken, hkept⟩

/-! ### The driver's loop is one such loop -/

end RpiHalEmbassy.TimeDriver
