import Mathlib.Data.List.Basic
import Mathlib.Data.UInt

/-!
# The timer queue

`embassy_time_queue_utils::Queue` is not part of this repository, so it is a
parameter here: a structure of the two operations the driver calls, with what
they are relied on to do. `entries` is the queue's content as wakers paired
with expiries. An expiry of `u64::MAX` never comes, and a queue may drop an
entry that has it.
-/

namespace RpiHalEmbassy.TimeDriver

def u64Max : UInt64 := UInt64.ofNat (2 ^ 64 - 1)

theorem le_u64Max (e : UInt64) : e ≤ u64Max := by
  have h := e.toNat_lt
  rw [UInt64.le_iff_toNat_le]
  show e.toNat ≤ 2 ^ 64 - 1
  omega

def leastExpiry {W : Type} : List (W × UInt64) → UInt64
  | [] => u64Max
  | (_, e) :: rest => if e ≤ leastExpiry rest then e else leastExpiry rest

theorem leastExpiry_le {W : Type} {entries : List (W × UInt64)} {w : W} {e : UInt64}
    (h : (w, e) ∈ entries) : leastExpiry entries ≤ e := by
  induction entries with
  | nil => cases h
  | cons head rest ih =>
    obtain ⟨v, f⟩ := head
    simp only [leastExpiry]
    rcases List.mem_cons.mp h with heq | hrest
    · obtain ⟨rfl, rfl⟩ := Prod.mk.inj heq
      split
      · exact UInt64.le_refl _
      · next hnot => exact UInt64.le_of_lt (UInt64.not_le.mp hnot)
    · have hr := ih hrest
      split
      · next hle => exact UInt64.le_trans hle hr
      · exact hr

theorem leastExpiry_mem {W : Type} {entries : List (W × UInt64)}
    (h : leastExpiry entries ≠ u64Max) : ∃ w, (w, leastExpiry entries) ∈ entries := by
  induction entries with
  | nil => exact absurd rfl h
  | cons head rest ih =>
    obtain ⟨v, f⟩ := head
    simp only [leastExpiry] at h ⊢
    split
    · exact ⟨v, List.mem_cons_self ..⟩
    · next hnot =>
      rw [if_neg hnot] at h
      obtain ⟨w, hw⟩ := ih h
      exact ⟨w, List.mem_cons_of_mem _ hw⟩

/-- `left` is `all`, up to entries that never expire. -/
def UpToNever {W : Type} (left all : List (W × UInt64)) : Prop :=
  ∃ never, (∀ x ∈ never, x.2 = u64Max) ∧ (left ++ never).Perm all

namespace UpToNever
variable {W : Type} {left all most : List (W × UInt64)}

theorem of_perm (h : left.Perm all) : UpToNever left all :=
  ⟨[], fun _ hx => absurd hx List.not_mem_nil, by rwa [List.append_nil]⟩

theorem trans (h : UpToNever left most) (k : UpToNever most all) : UpToNever left all := by
  obtain ⟨never, hnever, hperm⟩ := h
  obtain ⟨never', hnever', hperm'⟩ := k
  refine ⟨never ++ never', List.forall_mem_append.mpr ⟨hnever, hnever'⟩, ?_⟩
  rw [← List.append_assoc]
  exact (hperm.append_right never').trans hperm'

theorem append_left (h : UpToNever left all) (l : List (W × UInt64)) :
    UpToNever (l ++ left) (l ++ all) := by
  obtain ⟨never, hnever, hperm⟩ := h
  refine ⟨never, hnever, ?_⟩
  rw [List.append_assoc]
  exact hperm.append_left l

theorem filter (h : UpToNever left all) (p : W × UInt64 → Bool) :
    UpToNever (left.filter p) (all.filter p) := by
  obtain ⟨never, hnever, hperm⟩ := h
  refine ⟨never.filter p, fun x hx => hnever x (List.mem_of_mem_filter hx), ?_⟩
  rw [← List.filter_append]
  exact hperm.filter p

theorem subset (h : UpToNever left all) : left ⊆ all := by
  obtain ⟨never, _, hperm⟩ := h
  exact fun x hx => hperm.subset (List.mem_append_left never hx)

theorem mem_of_finite (h : UpToNever left all) {w : W} {e : UInt64} (he : (w, e) ∈ all)
    (hfin : e ≠ u64Max) : (w, e) ∈ left := by
  obtain ⟨never, hnever, hperm⟩ := h
  rcases List.mem_append.mp (hperm.mem_iff.mpr he) with hleft | hdropped
  · exact hleft
  · exact absurd (hnever _ hdropped) hfin

theorem length_le (h : UpToNever left all) : left.length ≤ all.length := by
  obtain ⟨never, _, hperm⟩ := h
  rw [← hperm.length_eq, List.length_append]
  exact Nat.le_add_right _ _

theorem nodup_keys (h : UpToNever left all) (hall : (all.map Prod.fst).Nodup) :
    (left.map Prod.fst).Nodup := by
  obtain ⟨never, _, hperm⟩ := h
  rw [← (hperm.map Prod.fst).nodup_iff, List.map_append] at hall
  exact hall.of_append_left

end UpToNever

theorem leastExpiry_le_of_subset {W : Type} {l m : List (W × UInt64)}
    (h : ∀ w e, e ≠ u64Max → (w, e) ∈ m → (w, e) ∈ l) : leastExpiry l ≤ leastExpiry m := by
  by_cases hmax : leastExpiry m = u64Max
  · rw [hmax]
    exact le_u64Max _
  · obtain ⟨w, hw⟩ := leastExpiry_mem hmax
    exact leastExpiry_le (h w _ hmax hw)

theorem UpToNever.leastExpiry_eq {W : Type} {left all : List (W × UInt64)}
    (h : UpToNever left all) : leastExpiry left = leastExpiry all :=
  UInt64.le_antisymm (leastExpiry_le_of_subset fun _ _ hfin he => h.mem_of_finite he hfin)
    (leastExpiry_le_of_subset fun _ _ _ he => h.subset he)

structure Queue (W : Type) where
  State : Type
  new : State
  entries : State → List (W × UInt64)
  scheduleWake : UInt64 → W → State → Bool × State
  /-- The least expiry left, the wakers woken and the queue without them. -/
  nextExpiration : UInt64 → State → UInt64 × List W × State
  entries_new : entries new = []
  scheduleWake_lowered : ∀ expiry w q,
    leastExpiry (entries (scheduleWake expiry w q).2) < leastExpiry (entries q) →
      (scheduleWake expiry w q).1 = true
  nextExpiration_entries : ∀ now q,
    UpToNever (entries (nextExpiration now q).2.2) ((entries q).filter fun x => now < x.2)
  nextExpiration_woken : ∀ now q,
    (nextExpiration now q).2.1.Perm (((entries q).filter fun x => x.2 ≤ now).map Prod.fst)
  nextExpiration_least : ∀ now q,
    (nextExpiration now q).1 = leastExpiry (entries (nextExpiration now q).2.2)

/-- A queue that drops nothing but what it wakes. -/
def Queue.KeepsAll {W : Type} (Q : Queue W) : Prop :=
  ∀ now q, (Q.entries (Q.nextExpiration now q).2.2).Perm
    ((Q.entries q).filter fun x => now < x.2)

namespace Queue
variable {W : Type} (Q : Queue W)

theorem ahead_of_nextExpiration {now : UInt64} {q : Q.State} {w : W} {e : UInt64}
    (h : (w, e) ∈ Q.entries (Q.nextExpiration now q).2.2) : now < e := by
  have hf := (Q.nextExpiration_entries now q).subset h
  exact of_decide_eq_true (List.mem_filter.mp hf).2

theorem nextExpiration_le {now : UInt64} {q : Q.State} {w : W} {e : UInt64}
    (h : (w, e) ∈ Q.entries (Q.nextExpiration now q).2.2) :
    (Q.nextExpiration now q).1 ≤ e := by
  rw [Q.nextExpiration_least]
  exact leastExpiry_le h

theorem exists_le_of_unchanged {expiry : UInt64} {w v : W} {q : Q.State} {e : UInt64}
    (h : (Q.scheduleWake expiry w q).1 = false)
    (he : (v, e) ∈ Q.entries (Q.scheduleWake expiry w q).2) (hfin : e ≠ u64Max) :
    ∃ u f, (u, f) ∈ Q.entries q ∧ f ≤ e ∧ f ≠ u64Max := by
  have hle : leastExpiry (Q.entries q) ≤ e := by
    refine UInt64.le_trans (UInt64.not_lt.mp fun hlt => ?_) (leastExpiry_le he)
    rw [Q.scheduleWake_lowered expiry w q hlt] at h
    cases h
  have hleast : leastExpiry (Q.entries q) ≠ u64Max := by
    intro hmax
    rw [hmax] at hle
    exact hfin (UInt64.le_antisymm (le_u64Max e) hle)
  obtain ⟨u, hu⟩ := leastExpiry_mem hleast
  exact ⟨u, _, hu, hle, hleast⟩

end Queue

/-! ### One queue that keeps these promises -/

def listSchedule {W : Type} [DecidableEq W] (expiry : UInt64) (w : W) :
    List (W × UInt64) → Bool × List (W × UInt64)
  | [] => (true, [(w, expiry)])
  | (v, e) :: rest =>
    if v = w then
      if expiry < e then (true, (v, expiry) :: rest) else (false, (v, e) :: rest)
    else
      let r := listSchedule expiry w rest
      (r.1, (v, e) :: r.2)

theorem listSchedule_unchanged {W : Type} [DecidableEq W] (expiry : UInt64) (w : W)
    (q : List (W × UInt64)) (h : (listSchedule expiry w q).1 = false) :
    (listSchedule expiry w q).2 = q := by
  induction q with
  | nil => cases h
  | cons head rest ih =>
    obtain ⟨v, e⟩ := head
    simp only [listSchedule] at h ⊢
    split
    · next hv =>
      rw [if_pos hv] at h
      split
      · next hlt => rw [if_pos hlt] at h; cases h
      · rfl
    · next hv =>
      rw [if_neg hv] at h
      show (v, e) :: (listSchedule expiry w rest).2 = (v, e) :: rest
      rw [ih h]

theorem upToNever_filter {W : Type} (entries : List (W × UInt64)) :
    UpToNever (entries.filter fun x => x.2 ≠ u64Max) entries :=
  ⟨entries.filter fun x => !decide (x.2 ≠ u64Max),
    fun _ hx => by simpa using (List.mem_filter.mp hx).2, List.filter_append_perm _ _⟩

/-- Of what lies ahead it keeps what will come. -/
def listQueue (W : Type) [DecidableEq W] : Queue W where
  State := List (W × UInt64)
  new := []
  entries q := q
  scheduleWake := listSchedule
  nextExpiration now q :=
    let left := (q.filter fun x => now < x.2).filter fun x => x.2 ≠ u64Max
    (leastExpiry left, (q.filter fun x => x.2 ≤ now).map Prod.fst, left)
  entries_new := rfl
  scheduleWake_lowered expiry w q h := by
    by_contra hne
    rw [listSchedule_unchanged expiry w q (Bool.eq_false_iff.mpr hne)] at h
    exact UInt64.lt_irrefl _ h
  nextExpiration_entries now q := upToNever_filter _
  nextExpiration_woken _ _ := .refl _
  nextExpiration_least _ _ := rfl

end RpiHalEmbassy.TimeDriver
