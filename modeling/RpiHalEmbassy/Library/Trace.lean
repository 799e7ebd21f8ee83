import Mathlib.Order.Lattice.Nat
import RpiHalEmbassy.Library.Machine

/-!
# Traces without an end

A trace is a machine left to itself for ever: at every position it takes a label
or rests. What a run cannot say is said of a trace, that something comes about.
`LeadsTo` is that statement, weak and strong fairness are what it rests on, and
each has one rule that turns a step proved once into a `LeadsTo`.
-/

namespace Machines

def LeadsTo (P Q : Nat → Prop) : Prop := ∀ n, P n → ∃ k, n ≤ k ∧ Q k

namespace LeadsTo
variable {P Q R : Nat → Prop}

theorem trans (h : LeadsTo P Q) (k : LeadsTo Q R) : LeadsTo P R := by
  intro n hP
  obtain ⟨m, hnm, hQ⟩ := h n hP
  obtain ⟨l, hml, hR⟩ := k m hQ
  exact ⟨l, hnm.trans hml, hR⟩

/-- A wait that leads to its end or to a shorter wait comes to its end. -/
theorem measure (rank : Nat → Nat)
    (h : ∀ r, LeadsTo (fun n => P n ∧ rank n = r) fun n => Q n ∨ P n ∧ rank n < r) :
    LeadsTo P Q := by
  suffices hrank : ∀ r n, P n → rank n = r → ∃ k, n ≤ k ∧ Q k from
    fun n hP => hrank (rank n) n hP rfl
  intro r
  induction r using Nat.strong_induction_on with
  | _ r ih =>
    intro n hP hr
    obtain ⟨m, hnm, hQ | ⟨hP', hlt⟩⟩ := h r n ⟨hP, hr⟩
    · exact ⟨m, hnm, hQ⟩
    · obtain ⟨k, hmk, hQ⟩ := ih (rank m) hlt m hP' rfl
      exact ⟨k, hnm.trans hmk, hQ⟩

end LeadsTo

variable {σ ι : Type*}

structure Trace (m : Machine σ ι) where
  state : Nat → σ
  label : Nat → Option ι
  rests : ∀ n, label n = none → state (n + 1) = state n
  moves : ∀ n i, label n = some i → m.enabled (state n) i ∧ state (n + 1) = m.step (state n) i

namespace Trace
variable {m : Machine σ ι}

/-- What no label taken from position `n` on puts an end to. -/
theorem holds {P : σ → Prop} (τ : Trace m) {n : Nat} (hP : P (τ.state n))
    (keeps : ∀ k i, n ≤ k → P (τ.state k) → τ.label k = some i → m.enabled (τ.state k) i →
      P (m.step (τ.state k) i)) (k : Nat) (hk : n ≤ k) : P (τ.state k) := by
  induction k, hk using Nat.le_induction with
  | base => exact hP
  | succ k hk ih =>
    cases hi : τ.label k with
    | none =>
      rw [τ.rests k hi]
      exact ih
    | some i =>
      obtain ⟨he, hs⟩ := τ.moves k i hi
      rw [hs]
      exact keeps k i hk ih hi he

theorem always {P : σ → Prop} (τ : Trace m) (start : P (τ.state 0))
    (keeps : ∀ s i, P s → m.enabled s i → P (m.step s i)) (n : Nat) : P (τ.state n) :=
  τ.holds start (fun k i _ hP _ he => keeps (τ.state k) i hP he) n (Nat.zero_le n)

theorem reached (τ : Trace m) (n : Nat) : ∃ is, m.Run (τ.state 0) is (τ.state n) := by
  apply τ.always (P := fun s => ∃ is, m.Run (τ.state 0) is s) ⟨[], .nil⟩
  rintro s i ⟨is, h⟩ he
  exact ⟨is ++ [i], h.snoc i he⟩

/-- From position `n` on, `P` holds for good or some step ends it. -/
theorem stays {P : σ → Prop} {Q : Nat → Prop} (τ : Trace m)
    (keeps : ∀ n i, P (τ.state n) → τ.label n = some i →
      P (τ.state (n + 1)) ∨ Q n ∨ Q (n + 1))
    {n : Nat} (hP : P (τ.state n)) (hQ : ¬ ∃ k, n ≤ k ∧ Q k) :
    ∀ k, n ≤ k → P (τ.state k) := by
  refine τ.holds hP fun k i hk hPk hi he => ?_
  rw [← (τ.moves k i hi).2]
  rcases keeps k i hPk hi with hnext | hQk | hQk
  · exact hnext
  · exact absurd ⟨k, hk, hQk⟩ hQ
  · exact absurd ⟨k + 1, Nat.le_succ_of_le hk, hQk⟩ hQ

/-- What is left of a trace from position `n`. -/
def suffix (τ : Trace m) (n : Nat) : Trace m where
  state k := τ.state (n + k)
  label k := τ.label (n + k)
  rests k := τ.rests (n + k)
  moves k := τ.moves (n + k)

/-- No label of `A` stays on offer for ever without one of them being taken. -/
def WeaklyFair (τ : Trace m) (A : ι → Prop) : Prop :=
  ∀ n, (∀ k, n ≤ k → ∃ i, A i ∧ m.enabled (τ.state k) i) →
    ∃ k i, n ≤ k ∧ A i ∧ τ.label k = some i

/-- If time and again `P` holds where `i` is enabled, then `i` is taken where `P` holds. -/
def StronglyFair (τ : Trace m) (P : σ → Prop) (i : ι) : Prop :=
  ∀ n, (∀ k, n ≤ k → ∃ l, k ≤ l ∧ P (τ.state l) ∧ m.enabled (τ.state l) i) →
    ∃ k, n ≤ k ∧ P (τ.state k) ∧ τ.label k = some i

theorem WeaklyFair.leadsTo {τ : Trace m} {A : ι → Prop} (hfair : τ.WeaklyFair A)
    {P : σ → Prop} {Q : Nat → Prop}
    (offered : ∀ n, P (τ.state n) → ∃ i, A i ∧ m.enabled (τ.state n) i)
    (keeps : ∀ n i, P (τ.state n) → τ.label n = some i → P (τ.state (n + 1)) ∨ Q n ∨ Q (n + 1))
    (helps : ∀ n i, A i → P (τ.state n) → τ.label n = some i → Q n ∨ Q (n + 1)) :
    LeadsTo (fun n => P (τ.state n)) Q := by
  intro n hP
  by_contra hQ
  have hstays := τ.stays keeps hP hQ
  obtain ⟨k, i, hk, hA, hi⟩ := hfair n fun k hk => offered k (hstays k hk)
  rcases helps k i hA (hstays k hk) hi with hQk | hQk
  · exact hQ ⟨k, hk, hQk⟩
  · exact hQ ⟨k + 1, Nat.le_succ_of_le hk, hQk⟩

theorem WeaklyFair.suffix {τ : Trace m} {A : ι → Prop} (h : τ.WeaklyFair A) (n : Nat) :
    (τ.suffix n).WeaklyFair A := by
  intro k hoffered
  obtain ⟨l, i, hl, hA, hi⟩ := h (n + k) fun l hl => by
    obtain ⟨j, rfl⟩ := Nat.exists_eq_add_of_le (Nat.le_of_add_right_le hl)
    exact hoffered j (Nat.le_of_add_le_add_left hl)
  obtain ⟨j, rfl⟩ := Nat.exists_eq_add_of_le (Nat.le_of_add_right_le hl)
  exact ⟨j, i, Nat.le_of_add_le_add_left hl, hA, hi⟩

/-- Where one of `A` is on offer, any of them makes `R` of `P` and the others keep `P`. -/
theorem WeaklyFair.stage {τ : Trace m} {A : ι → Prop} (hfair : τ.WeaklyFair A) {P R : σ → Prop}
    (offered : ∀ s, P s → ∃ i, A i ∧ m.enabled s i)
    (others : ∀ s i, P s → ¬ A i → m.enabled s i → P (m.step s i))
    (turns : ∀ s i, P s → A i → m.enabled s i → R (m.step s i)) :
    LeadsTo (fun n => P (τ.state n)) fun n => R (τ.state n) := by
  apply hfair.leadsTo fun n hP => offered _ hP
  · intro n i hP hi
    obtain ⟨he, hs⟩ := τ.moves n i hi
    rw [hs]
    by_cases hA : A i
    · exact Or.inr (Or.inr (turns _ i hP hA he))
    · exact Or.inl (others _ i hP hA he)
  · intro n i hA hP hi
    obtain ⟨he, hs⟩ := τ.moves n i hi
    rw [hs]
    exact Or.inr (turns _ i hP hA he)

/-- The premise of `LeadsTo.measure`: what every step keeps from growing, a fair one lowers. -/
theorem WeaklyFair.descends {τ : Trace m} {A : ι → Prop} (hfair : τ.WeaklyFair A)
    {P : σ → Prop} {Q : Nat → Prop} {f : σ → Nat} {r : Nat}
    (offered : ∀ n, P (τ.state n) → f (τ.state n) = r →
      ∃ i, A i ∧ m.enabled (τ.state n) i)
    (keeps : ∀ n i, P (τ.state n) → τ.label n = some i →
      (Q n ∨ Q (n + 1)) ∨ P (τ.state (n + 1)) ∧ f (τ.state (n + 1)) ≤ f (τ.state n))
    (helps : ∀ n i, A i → P (τ.state n) → f (τ.state n) = r → τ.label n = some i →
      (Q n ∨ Q (n + 1)) ∨ P (τ.state (n + 1)) ∧ f (τ.state (n + 1)) < f (τ.state n)) :
    LeadsTo (fun n => P (τ.state n) ∧ f (τ.state n) = r)
      fun n => Q n ∨ P (τ.state n) ∧ f (τ.state n) < r := by
  apply hfair.leadsTo (P := fun s => P s ∧ f s = r)
  · exact fun n hP => offered n hP.1 hP.2
  · rintro n i ⟨hP, hr⟩ hi
    rcases keeps n i hP hi with (hQ | hQ) | ⟨hP', hle⟩
    · exact Or.inr (Or.inl (Or.inl hQ))
    · exact Or.inr (Or.inr (Or.inl hQ))
    · rcases (hr ▸ hle).lt_or_eq with hlt | heq
      · exact Or.inr (Or.inr (Or.inr ⟨hP', hlt⟩))
      · exact Or.inl ⟨hP', heq⟩
  · rintro n i hA ⟨hP, hr⟩ hi
    rcases helps n i hA hP hr hi with (hQ | hQ) | ⟨hP', hlt⟩
    · exact Or.inl (Or.inl hQ)
    · exact Or.inr (Or.inl hQ)
    · exact Or.inr (Or.inr ⟨hP', hr ▸ hlt⟩)

theorem StronglyFair.leadsTo {τ : Trace m} {R : σ → Prop} {i : ι} (hfair : τ.StronglyFair R i)
    {P : σ → Prop} {Q : Nat → Prop}
    (recurs : ∀ n, P (τ.state n) →
      ∃ k, n ≤ k ∧ (Q k ∨ R (τ.state k) ∧ m.enabled (τ.state k) i))
    (keeps : ∀ n j, P (τ.state n) → τ.label n = some j → P (τ.state (n + 1)) ∨ Q n ∨ Q (n + 1))
    (helps : ∀ n, P (τ.state n) → R (τ.state n) → τ.label n = some i → Q n ∨ Q (n + 1)) :
    LeadsTo (fun n => P (τ.state n)) Q := by
  intro n hP
  by_contra hQ
  have hstays := τ.stays keeps hP hQ
  obtain ⟨k, hk, hR, hi⟩ := hfair n fun k hk => by
    obtain ⟨l, hkl, hQl | hR⟩ := recurs k (hstays k hk)
    · exact absurd ⟨l, hk.trans hkl, hQl⟩ hQ
    · exact ⟨l, hkl, hR⟩
  rcases helps k (hstays k hk) hR hi with hQk | hQk
  · exact hQ ⟨k, hk, hQk⟩
  · exact hQ ⟨k + 1, Nat.le_succ_of_le hk, hQk⟩

/-! ### A run and then rest -/

def resting (m : Machine σ ι) (s : σ) (is : List ι) (h : m.Allowed s is) : Trace m where
  state n := (is.take n).foldl m.step s
  label n := is[n]?
  rests n hn := by
    have hlen : is.length ≤ n := List.getElem?_eq_none_iff.mp hn
    rw [List.take_of_length_le hlen, List.take_of_length_le (Nat.le_succ_of_le hlen)]
  moves n i hn := by
    induction is generalizing s n with
    | nil => simp at hn
    | cons j is ih =>
      cases n with
      | zero =>
        obtain rfl : j = i := by simpa using hn
        exact ⟨h.1, rfl⟩
      | succ n => exact ih (m.step s j) h.2 n (by simpa using hn)

theorem resting_state {s : σ} {is : List ι} (h : m.Allowed s is) {n : Nat}
    (hn : is.length ≤ n) : (resting m s is h).state n = is.foldl m.step s := by
  simp only [resting, List.take_of_length_le hn]

/-- Fair, if nothing of `A` is on offer where it rests. -/
theorem resting_weaklyFair {s : σ} {is : List ι} (h : m.Allowed s is) {A : ι → Prop}
    (hrest : ∀ i, A i → ¬ m.enabled (is.foldl m.step s) i) : (resting m s is h).WeaklyFair A := by
  intro n hoffered
  obtain ⟨i, hA, hi⟩ := hoffered (max n is.length) (le_max_left _ _)
  rw [resting_state h (le_max_right _ _)] at hi
  exact absurd hi (hrest i hA)

theorem resting_stronglyFair {s : σ} {is : List ι} (h : m.Allowed s is) {P : σ → Prop} {i : ι}
    (hrest : ¬ P (is.foldl m.step s)) : (resting m s is h).StronglyFair P i := by
  intro n hrecurs
  obtain ⟨k, hk, hP, _⟩ := hrecurs (max n is.length) (le_max_left _ _)
  rw [resting_state h ((le_max_right _ _).trans hk)] at hP
  exact absurd hP hrest

/-! ### One label after the other -/

def drive (m : Machine σ ι) (s : σ) (label : Nat → ι) (n : Nat) : σ :=
  (List.range n).foldl (fun t k => m.step t (label k)) s

theorem drive_succ (m : Machine σ ι) (s : σ) (label : Nat → ι) (n : Nat) :
    drive m s label (n + 1) = m.step (drive m s label n) (label n) := by
  rw [drive, List.range_succ, List.foldl_append]
  rfl

/-- A machine that is never held up. -/
def driven (m : Machine σ ι) (s : σ) (label : Nat → ι)
    (h : ∀ n, m.enabled (drive m s label n) (label n)) : Trace m where
  state := drive m s label
  label n := some (label n)
  rests n hn := by cases hn
  moves n i hn := by
    obtain rfl : label n = i := Option.some.inj hn
    exact ⟨h n, drive_succ m s label n⟩

end Trace

/-! ### A component of a machine -/

/-- What `m` does seen from one of its components: `state` is the component's state and
`label` the step a label of `m` makes it take, if any. -/
structure Component {σ' ι' : Type*} (m : Machine σ ι) (c : Machine σ' ι') where
  state : σ → σ'
  label : σ → ι → Option ι'
  rests : ∀ s i, m.enabled s i → label s i = none → state (m.step s i) = state s
  moves : ∀ s i j, m.enabled s i → label s i = some j →
    c.enabled (state s) j ∧ state (m.step s i) = c.step (state s) j

namespace Component
variable {σ' ι' : Type*} {m : Machine σ ι} {c : Machine σ' ι'}

end Component

end Machines
