import Mathlib.Data.List.Basic

/-!
# Labelled machines

A machine moves by labels: `enabled` says when a label can be taken and `step`
where it leads, so everything nondeterministic about a system is in its labels.
A run is the list of labels it took. The rules here are the ones every safety
argument over such a machine needs: an invariant is proved for one step and
holds of a run, a run can be cut in two, and a run can be held to a condition
on each of its steps. What steps of one kind use up of what others put in is
counted over a run.
-/

namespace Machines

structure Machine (σ ι : Type*) where
  enabled : σ → ι → Prop
  step : σ → ι → σ

namespace Machine
variable {σ ι : Type*}

inductive Run (m : Machine σ ι) (s : σ) : List ι → σ → Prop
  | nil : Run m s [] s
  | snoc {is : List ι} {t : σ} (i : ι) :
      Run m s is t → m.enabled t i → Run m s (is ++ [i]) (m.step t i)

/-- The same machine, allowed only the steps that meet `cond`. -/
def restrict (m : Machine σ ι) (cond : σ → ι → Prop) : Machine σ ι where
  enabled s i := m.enabled s i ∧ cond s i
  step := m.step

theorem Run.invariant {m : Machine σ ι} {P : σ → Prop} {s t : σ} {is : List ι}
    (h : m.Run s is t) (start : P s)
    (keeps : ∀ u i, P u → m.enabled u i → P (m.step u i)) : P t := by
  induction h with
  | nil => exact start
  | snoc i _ he ih => exact keeps _ i ih he

/-- Each step that spends pays out of what is held, or is one that earns. -/
theorem Run.paid {m : Machine σ ι} {s t : σ} {is : List ι} (h : m.Run s is t) (held : σ → Nat)
    {spends earns : ι → Bool}
    (pays : ∀ u i, m.enabled u i →
      (spends i).toNat + held (m.step u i) ≤ held u + (earns i).toNat) :
    is.countP spends + held t ≤ held s + is.countP earns := by
  induction h with
  | nil => exact Nat.le_of_eq (Nat.add_comm _ _)
  | snoc i _ he ih =>
    have hstep := pays _ i he
    have hcount : ∀ p : ι → Bool, List.countP p [i] = (p i).toNat := fun p => by
      cases hp : p i <;> simp [hp]
    rw [List.countP_append, List.countP_append, hcount, hcount]
    omega

theorem Run.single {m : Machine σ ι} {s : σ} {i : ι} (h : m.enabled s i) :
    m.Run s [i] (m.step s i) :=
  show m.Run s ([] ++ [i]) (m.step s i) from .snoc i .nil h

theorem Run.append {m : Machine σ ι} {s t u : σ} {is js : List ι}
    (h : m.Run s is t) (k : m.Run t js u) : m.Run s (is ++ js) u := by
  induction k with
  | nil => simpa only [List.append_nil] using h
  | snoc j _ he ih => simpa only [List.append_assoc] using ih.snoc j he

theorem Run.cons {m : Machine σ ι} {s t : σ} {i : ι} {is : List ι} (h : m.enabled s i)
    (k : m.Run (m.step s i) is t) : m.Run s (i :: is) t :=
  (Run.single h).append k

/-- Each label can be taken where the ones before it lead. -/
def Allowed (m : Machine σ ι) : σ → List ι → Prop
  | _, [] => True
  | s, i :: is => m.enabled s i ∧ m.Allowed (m.step s i) is

theorem Run.of_allowed (m : Machine σ ι) (s : σ) (is : List ι) (h : m.Allowed s is) :
    m.Run s is (is.foldl m.step s) := by
  induction is generalizing s with
  | nil => exact .nil
  | cons i is ih => exact .cons h.1 (ih _ h.2)

theorem Run.end_eq {m : Machine σ ι} {s t : σ} {is : List ι} (h : m.Run s is t) :
    t = is.foldl m.step s := by
  induction h with
  | nil => rfl
  | snoc i _ _ ih => rw [List.foldl_append, ← ih, List.foldl_cons, List.foldl_nil]

theorem Run.split {m : Machine σ ι} {s u : σ} (is js : List ι) (h : m.Run s (is ++ js) u) :
    ∃ t, m.Run s is t ∧ m.Run t js u := by
  generalize hk : is ++ js = ks at h
  induction h generalizing js with
  | nil =>
    obtain ⟨rfl, rfl⟩ := List.append_eq_nil_iff.mp hk
    exact ⟨s, .nil, .nil⟩
  | @snoc ls t i hr he ih =>
    rcases List.eq_nil_or_concat js with rfl | ⟨js, j, rfl⟩
    · rw [List.append_nil] at hk
      subst hk
      exact ⟨_, hr.snoc i he, .nil⟩
    · rw [List.concat_eq_append, ← List.append_assoc] at hk
      obtain ⟨rfl, hj⟩ := List.append_inj' hk rfl
      obtain rfl : j = i := List.singleton_inj.mp hj
      obtain ⟨v, h1, h2⟩ := ih js rfl
      exact ⟨v, h1, by simpa only [List.concat_eq_append] using h2.snoc j he⟩

theorem Run.stop {m : Machine σ ι} {s u : σ} {is ks : List ι} (h : m.Run s ks u)
    (hp : is <+: ks) : ∃ t js, m.Run s is t ∧ m.Run t js u := by
  obtain ⟨js, rfl⟩ := hp
  obtain ⟨t, h1, h2⟩ := Run.split is js h
  exact ⟨t, js, h1, h2⟩

theorem Run.deterministic {m : Machine σ ι} {s t u : σ} {is : List ι} (h : m.Run s is t)
    (k : m.Run s is u) : t = u := by
  generalize hjs : is = js at k
  induction h generalizing js u with
  | nil =>
    cases k with
    | nil => rfl
    | snoc => simp at hjs
  | snoc i _ _ ih =>
    cases k with
    | nil => simp at hjs
    | snoc j k _ =>
      obtain ⟨hjs, hij⟩ := List.append_inj' hjs rfl
      rw [ih _ hjs k, List.singleton_inj.mp hij]

theorem Run.of_restrict {m : Machine σ ι} {cond : σ → ι → Prop} {s t : σ} {is : List ι}
    (h : (m.restrict cond).Run s is t) : m.Run s is t := by
  induction h with
  | nil => exact .nil
  | snoc i _ he ih => exact ih.snoc i he.1

theorem Run.snoc_inv {m : Machine σ ι} {s t : σ} {is : List ι} {i : ι}
    (h : m.Run s (is ++ [i]) t) : ∃ u, m.Run s is u ∧ m.enabled u i ∧ t = m.step u i := by
  generalize hk : is ++ [i] = ks at h
  cases h with
  | nil => simp at hk
  | snoc j h he =>
    obtain ⟨rfl, hj⟩ := List.append_inj' hk rfl
    obtain rfl := List.singleton_inj.mp hj
    exact ⟨_, h, he, rfl⟩

theorem Run.cons_inv {m : Machine σ ι} {s t : σ} {i : ι} {is : List ι}
    (h : m.Run s (i :: is) t) : m.enabled s i ∧ m.Run (m.step s i) is t := by
  obtain ⟨u, hfirst, hrest⟩ := Run.split ([] ++ [i]) is h
  obtain ⟨v, hnil, he, rfl⟩ := hfirst.snoc_inv
  obtain rfl := hnil.deterministic .nil
  exact ⟨he, hrest⟩

/-- Where `cond` is exactly what makes a step `good`, the runs all of whose steps
are `good` are the runs that meet `cond` at every step. -/
theorem Run.each_iff_restrict {m : Machine σ ι} {good cond : σ → ι → Prop} {s t : σ}
    {is : List ι} (h : m.Run s is t) (exact : ∀ u i, m.enabled u i → (good u i ↔ cond u i)) :
    (∀ js j u, js ++ [j] <+: is → m.Run s js u → good u j) ↔ (m.restrict cond).Run s is t := by
  constructor
  · intro hgood
    induction h with
    | nil => exact .nil
    | @snoc js u i h he ih =>
      have hstep := hgood js i u List.prefix_rfl h
      exact (ih fun ks k v hks => hgood ks k v (hks.trans (List.prefix_append _ _))).snoc i
        ⟨he, (exact u i he).mp hstep⟩
  · intro hcond js j u hjs hu
    obtain ⟨v, ks, hv, _⟩ := hcond.stop hjs
    obtain ⟨u', hu', he, _⟩ := hv.snoc_inv
    obtain rfl := hu.deterministic hu'.of_restrict
    exact (exact u j he.1).mpr he.2

/-- Where `cond` is exactly what one step needs to keep `good`, over the invariant
`P`, the runs that stay `good` are the runs that meet `cond` at every step. -/
theorem Run.good_iff_restrict {m : Machine σ ι} {P good : σ → Prop} {cond : σ → ι → Prop}
    {s t : σ} {is : List ι} (h : m.Run s is t) (start : P s)
    (keeps : ∀ u i, P u → m.enabled u i → P (m.step u i)) (hs : good s)
    (exact : ∀ u i, P u → good u → m.enabled u i → (good (m.step u i) ↔ cond u i)) :
    (∀ js u, js <+: is → m.Run s js u → good u) ↔ (m.restrict cond).Run s is t := by
  constructor
  · intro hgood
    induction h with
    | nil => exact .nil
    | @snoc js u i h he ih =>
      have hu : good u := hgood js u (List.prefix_append _ _) h
      have hstep := hgood _ _ List.prefix_rfl (h.snoc i he)
      exact (ih fun ks v hks => hgood ks v (hks.trans (List.prefix_append _ _))).snoc i
        ⟨he, (exact u i (h.invariant start keeps) hu he).mp hstep⟩
  · intro hcond js u hjs hu
    obtain ⟨v, ks, hv, _⟩ := hcond.stop hjs
    obtain rfl := hu.deterministic hv.of_restrict
    refine (hv.invariant (P := fun v => P v ∧ good v) ⟨start, hs⟩ fun v i hPv he => ?_).2
    exact ⟨keeps v i hPv.1 he.1, (exact v i hPv.1 hPv.2 he.1).mpr he.2⟩

end Machine

end Machines
