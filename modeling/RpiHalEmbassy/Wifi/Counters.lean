import Mathlib.Logic.Function.Basic
import RpiHalEmbassy.Wifi.Pass

/-!
# Asking for the counters

`request_counters` clears `COUNTERS` and then sets `COUNTERS_WANTED`; the runner swaps
the flag, reads the chip and stores. Any of these may come between two others, from
any number of callers. An answer is fresh unless a call begins while the chip is
being read: the store then lands on top of that call's clear.
-/

namespace RpiHalEmbassy.Wifi
open Machines Net

variable {H : Hal} {Q : Channel} {R : Type}

/-- `began` counts the calls and readings begun before it. -/
structure Reading (H : Hal) where
  began : Nat
  answer : Result H H.Counters

/-- Where `sample_counters` stands: behind a swap that found the flag set, or behind
the reading as well. -/
inductive Progress (H : Hal) where
  | outside
  | asked
  | read (reading : Reading H)

/-- `held` is `COUNTERS`. A caller between its two writes is in `asking` with the stamp
of the first, and `returned` has the stamps of the calls that are over. -/
structure Exchange (R : Type) (H : Hal) where
  countersWanted : Bool
  held : Option (Reading H)
  sampling : Progress H
  asking : R → Option Nat
  returned : List Nat
  now : Nat

def counters (x : Exchange R H) : Option (Result H H.Counters) := x.held.map Reading.answer

def Exchange.boot (R : Type) (H : Hal) : Exchange R H where
  countersWanted := false
  held := none
  sampling := .outside
  asking _ := none
  returned := []
  now := 0

inductive ExchangeEvent (R : Type) (H : Hal) where
  | clear (r : R)
  | want (r : R)
  | swap
  | read (answer : Result H H.Counters)
  | store

section Machine
variable [DecidableEq R]

def Exchange.step (x : Exchange R H) : ExchangeEvent R H → Exchange R H
  | .clear r =>
    { x with held := none, asking := Function.update x.asking r (some x.now), now := x.now + 1 }
  | .want r =>
    { x with
      countersWanted := true
      asking := Function.update x.asking r none
      returned := x.returned ++ (x.asking r).toList }
  | .swap =>
    { x with
      countersWanted := false
      sampling := if x.countersWanted then .asked else .outside }
  | .read answer => { x with sampling := .read ⟨x.now, answer⟩, now := x.now + 1 }
  | .store =>
    match x.sampling with
    | .read reading => { x with held := some reading, sampling := .outside }
    | _ => x

def Exchange.enabled (x : Exchange R H) : ExchangeEvent R H → Prop
  | .clear r => x.asking r = none
  | .want r => (x.asking r).isSome = true
  | .swap => x.sampling = .outside
  | .read _ => x.sampling = .asked
  | .store => ∃ reading, x.sampling = .read reading

def exchange (R : Type) (H : Hal) [DecidableEq R] :
    Machine (Exchange R H) (ExchangeEvent R H) where
  enabled := Exchange.enabled
  step := Exchange.step

theorem step_store {x : Exchange R H} {reading : Reading H} (h : x.sampling = .read reading) :
    x.step .store = { x with held := some reading, sampling := .outside } := by
  simp only [Exchange.step, h]

/-! ### No request is lost and none is invented -/

/-- Where the answer to the requests that have returned is. -/
inductive Exchange.Pending (x : Exchange R H) : Prop
  | unasked (h : x.returned = [])
  | wanted (h : x.countersWanted = true)
  | held (reading : Reading H) (h : x.held = some reading)
  | asking (r : R) (began : Nat) (h : x.asking r = some began)
  | sampling (h : x.sampling ≠ .outside)

theorem step_pending {x : Exchange R H} (hx : x.Pending) {e : ExchangeEvent R H}
    (he : x.enabled e) : (x.step e).Pending := by
  cases e with
  | clear r =>
    apply Exchange.Pending.asking r x.now
    simp [Exchange.step]
  | want r => exact .wanted rfl
  | swap =>
    cases hwanted : x.countersWanted with
    | true =>
      apply Exchange.Pending.sampling
      simp [Exchange.step, hwanted]
    | false =>
      -- Nothing to take, so everything stands as it stood.
      have hsame : x.step .swap = x := by
        have hout : x.sampling = .outside := he
        cases x
        simp_all [Exchange.step]
      exact hsame.symm ▸ hx
  | read answer =>
    apply Exchange.Pending.sampling
    intro hout
    cases hout
  | store =>
    obtain ⟨reading, hread⟩ := he
    rw [step_store hread]
    exact .held reading rfl

@[simp] def ExchangeEvent.isWant : ExchangeEvent R H → Bool
  | .want _ => true
  | _ => false

@[simp] def ExchangeEvent.isRead : ExchangeEvent R H → Bool
  | .read _ => true
  | _ => false

def chipReads (es : List (ExchangeEvent R H)) : Nat := es.countP ExchangeEvent.isRead

/-- How often a request has set the flag. -/
def wants (es : List (ExchangeEvent R H)) : Nat := es.countP ExchangeEvent.isWant

@[simp] def Progress.owed : Progress H → Nat
  | .asked => 1
  | _ => 0

/-- The readings still coming: for a raised flag, and for one the swap has taken. -/
def Exchange.owed (x : Exchange R H) : Nat := x.countersWanted.toNat + x.sampling.owed

theorem step_owed {x : Exchange R H} {e : ExchangeEvent R H} (he : x.enabled e) :
    chipReads [e] + (x.step e).owed ≤ x.owed + wants [e] := by
  cases e with
  | clear r => exact Nat.le_of_eq (Nat.zero_add _)
  | want r =>
    simp [chipReads, wants, Exchange.owed, Exchange.step]
    omega
  | swap =>
    have hout : x.sampling = .outside := he
    cases hwanted : x.countersWanted <;>
      simp [chipReads, wants, Exchange.owed, Exchange.step, hwanted, hout]
  | read answer =>
    have hasked : x.sampling = .asked := he
    simp [chipReads, wants, Exchange.owed, Exchange.step, hasked]
    omega
  | store =>
    obtain ⟨reading, hread⟩ := he
    rw [step_store hread]
    simp [chipReads, wants, Exchange.owed, hread]

theorem run_owed {x : Exchange R H} {es : List (ExchangeEvent R H)}
    (h : (exchange R H).Run (.boot R H) es x) :
    chipReads es + x.owed ≤ wants es := by
  induction h with
  | nil => exact Nat.le_refl 0
  | @snoc es x e _ he ih =>
    have hstep := step_owed he
    have hreads : chipReads (es ++ [e]) = chipReads es + chipReads [e] := List.countP_append
    have hwants : wants (es ++ [e]) = wants es + wants [e] := List.countP_append
    rw [show (exchange R H).step x e = x.step e from rfl]
    omega

theorem no_request_lost_or_invented (x : Exchange R H) (es : List (ExchangeEvent R H))
    (h : (exchange R H).Run (.boot R H) es x) :
    ((∀ r, x.asking r = none) → x.sampling = .outside → x.returned ≠ [] →
      x.countersWanted = true ∨ ∃ answer, counters x = some answer) ∧
    chipReads es ≤ wants es := by
  have hpending : x.Pending := h.invariant (.unasked rfl) fun _ _ hu he => step_pending hu he
  have howed := run_owed h
  constructor
  · intro hasking hsampling hreturned
    cases hpending with
    | unasked hnone => exact absurd hnone hreturned
    | wanted hwanted => exact Or.inl hwanted
    | held reading hheld =>
      exact Or.inr ⟨reading.answer, congrArg (Option.map Reading.answer) hheld⟩
    | asking r began hr =>
      rw [hasking r] at hr
      cases hr
    | sampling hinside => exact absurd hsampling hinside
  · omega

/-- The second caller clears while the first one's reading is under way, and sets
the flag when its own clear has been stored over. -/
def twoRequests : List (ExchangeEvent Nat unitHal) :=
  [.clear 0, .want 0, .swap, .read (.ok ()), .clear 1, .store, .want 1, .swap, .read (.ok ()),
    .store]

theorem no_request_lost_or_invented_after_two :
    ∃ x : Exchange Nat unitHal,
      (exchange Nat unitHal).Run (.boot Nat unitHal) twoRequests x ∧
      ((∀ r, x.asking r = none) → x.sampling = .outside → x.returned ≠ [] →
        x.countersWanted = true ∨ ∃ answer, counters x = some answer) ∧
      chipReads twoRequests ≤ wants twoRequests := by
  have hrun := Machine.Run.of_allowed (exchange Nat unitHal) (.boot Nat unitHal) twoRequests
    ⟨rfl, rfl, rfl, rfl, rfl, ⟨_, rfl⟩, rfl, rfl, rfl, ⟨_, rfl⟩, trivial⟩
  exact ⟨_, hrun, no_request_lost_or_invented _ _ hrun⟩

/-! ### Which answers are fresh -/

def Exchange.Fresh (x : Exchange R H) : Prop :=
  ∀ began ∈ x.returned, ∀ reading, x.held = some reading → began < reading.began

/-- The stores into `COUNTERS`: a request's clear, and an answer. -/
@[simp] def ExchangeEvent.writesCounters : ExchangeEvent R H → Bool
  | .clear _ => true
  | .store => true
  | _ => false

/-- What takes a stamp. -/
@[simp] def ExchangeEvent.begins : ExchangeEvent R H → Bool
  | .clear _ => true
  | .read _ => true
  | _ => false

/-- How many calls and readings have begun. -/
def begun (es : List (ExchangeEvent R H)) : Nat := es.countP ExchangeEvent.begins

omit [DecidableEq R] in
theorem begun_snoc (es : List (ExchangeEvent R H)) (e : ExchangeEvent R H) :
    begun (es ++ [e]) = begun es + e.begins.toNat := by
  rw [begun, List.countP_append, List.countP_singleton]
  cases e.begins <;> rfl

omit [DecidableEq R] in
theorem begun_lt_append {e : ExchangeEvent R H} (he : e.begins = true)
    (a m : List (ExchangeEvent R H)) : begun a < begun (a ++ e :: m) := by
  simp only [begun, List.countP_append, List.countP_cons_of_pos he]
  omega

/-- A call begins while a reading is under way, that reading is stored over its clear and
stands, and the call returns, before the store or after it. -/
inductive Overtaken : List (ExchangeEvent R H) → Prop
  | intro (a : List (ExchangeEvent R H)) (answer : Result H H.Counters)
      (b : List (ExchangeEvent R H)) (r : R) (c d : List (ExchangeEvent R H))
      (hunstored : .store ∉ b ++ c) (hstands : ∀ e ∈ d, e.writesCounters = false)
      (hreturned : .want r ∈ c ++ d) :
      Overtaken (a ++ .read answer :: (b ++ .clear r :: (c ++ .store :: d)))

/-- The reading was taken, and nothing has been stored since. -/
def UnderWay (es : List (ExchangeEvent R H)) (reading : Reading H) : Prop :=
  ∃ a b, es = a ++ .read reading.answer :: b ∧ begun a = reading.began ∧ .store ∉ b

/-- The reading was taken, and it was what was stored in `COUNTERS` last. -/
def Stands (es : List (ExchangeEvent R H)) (reading : Reading H) : Prop :=
  ∃ a b d, es = a ++ .read reading.answer :: (b ++ .store :: d) ∧ begun a = reading.began ∧
    .store ∉ b ∧ ∀ e ∈ d, e.writesCounters = false

def Asked (es : List (ExchangeEvent R H)) (r : R) (began : Nat) : Prop :=
  ∃ a c, es = a ++ .clear r :: c ∧ begun a = began

def Returned (es : List (ExchangeEvent R H)) (began : Nat) : Prop :=
  ∃ a r c, es = a ++ .clear r :: c ∧ begun a = began ∧ .want r ∈ c

section
omit [DecidableEq R]

theorem UnderWay.snoc {es : List (ExchangeEvent R H)} {reading : Reading H}
    (h : UnderWay es reading) {e : ExchangeEvent R H} (he : e ≠ .store) :
    UnderWay (es ++ [e]) reading := by
  obtain ⟨a, b, rfl, hbegan, hb⟩ := h
  refine ⟨a, b ++ [e], by simp, hbegan, ?_⟩
  rw [List.mem_append, List.mem_singleton]
  rintro (hstore | rfl)
  · exact hb hstore
  · exact he rfl

theorem UnderWay.store {es : List (ExchangeEvent R H)} {reading : Reading H}
    (h : UnderWay es reading) : Stands (es ++ [.store]) reading := by
  obtain ⟨a, b, rfl, hbegan, hb⟩ := h
  exact ⟨a, b, [], by simp, hbegan, hb, fun _ he => absurd he List.not_mem_nil⟩

theorem Stands.snoc {es : List (ExchangeEvent R H)} {reading : Reading H}
    (h : Stands es reading) {e : ExchangeEvent R H} (he : e.writesCounters = false) :
    Stands (es ++ [e]) reading := by
  obtain ⟨a, b, d, rfl, hbegan, hb, hd⟩ := h
  refine ⟨a, b, d ++ [e], by simp, hbegan, hb, fun f hf => ?_⟩
  rcases List.mem_append.mp hf with hf | hf
  · exact hd f hf
  · exact List.mem_singleton.mp hf ▸ he

theorem Asked.snoc {es : List (ExchangeEvent R H)} {r : R} {began : Nat}
    (h : Asked es r began) (e : ExchangeEvent R H) : Asked (es ++ [e]) r began := by
  obtain ⟨a, c, rfl, hbegan⟩ := h
  exact ⟨a, c ++ [e], by simp, hbegan⟩

theorem Asked.want {es : List (ExchangeEvent R H)} {r : R} {began : Nat}
    (h : Asked es r began) : Returned (es ++ [.want r]) began := by
  obtain ⟨a, c, rfl, hbegan⟩ := h
  exact ⟨a, r, c ++ [.want r], by simp, hbegan, List.mem_append_right _ (List.mem_singleton_self _)⟩

theorem Returned.snoc {es : List (ExchangeEvent R H)} {began : Nat} (h : Returned es began)
    (e : ExchangeEvent R H) : Returned (es ++ [e]) began := by
  obtain ⟨a, r, c, rfl, hbegan, hc⟩ := h
  exact ⟨a, r, c ++ [e], by simp, hbegan, List.mem_append_left _ hc⟩

end

/-- What the stamps in the state say of the run that led to it. -/
structure Traced (es : List (ExchangeEvent R H)) (x : Exchange R H) : Prop where
  now : x.now = begun es
  sampling : ∀ reading, x.sampling = .read reading → UnderWay es reading
  held : ∀ reading, x.held = some reading → Stands es reading
  asking : ∀ r began, x.asking r = some began → Asked es r began
  returned : ∀ began ∈ x.returned, Returned es began

theorem step_traced {es : List (ExchangeEvent R H)} {x : Exchange R H} (hx : Traced es x)
    {e : ExchangeEvent R H} (he : x.enabled e) : Traced (es ++ [e]) (x.step e) := by
  have hnow := begun_snoc es e
  rw [← hx.now] at hnow
  have hreturned : ∀ began ∈ x.returned, Returned (es ++ [e]) began :=
    fun began hb => (hx.returned began hb).snoc e
  have hasking : ∀ r began, x.asking r = some began → Asked (es ++ [e]) r began :=
    fun r began hr => (hx.asking r began hr).snoc e
  cases e with
  | clear r =>
    refine ⟨hnow.symm, fun reading hread => (hx.sampling reading hread).snoc (by simp),
      fun _ hheld => (by cases hheld), fun q began hq => ?_, hreturned⟩
    by_cases hqr : q = r
    · subst hqr
      have hstamp : Function.update x.asking q (some x.now) q = some began := hq
      rw [Function.update_self] at hstamp
      exact ⟨es, [], rfl, hx.now.symm.trans (Option.some.inj hstamp)⟩
    · exact hasking q began ((Function.update_of_ne hqr ..).symm.trans hq)
  | want r =>
    refine ⟨hnow.symm, fun reading hread => (hx.sampling reading hread).snoc (by simp),
      fun reading hheld => (hx.held reading hheld).snoc rfl, fun q began hq => ?_,
      fun began hb => ?_⟩
    · by_cases hqr : q = r
      · subst hqr
        have hnone : Function.update x.asking q none q = some began := hq
        rw [Function.update_self] at hnone
        cases hnone
      · exact hasking q began ((Function.update_of_ne hqr ..).symm.trans hq)
    · rcases List.mem_append.mp hb with hbefore | hthis
      · exact hreturned began hbefore
      · exact (hx.asking r began (Option.mem_toList.mp hthis)).want
  | swap =>
    refine ⟨hnow.symm, fun reading hread => ?_,
      fun reading hheld => (hx.held reading hheld).snoc rfl, hasking, hreturned⟩
    cases hwanted : x.countersWanted <;> simp [Exchange.step, hwanted] at hread
  | read answer =>
    refine ⟨hnow.symm, fun reading hread => ?_,
      fun reading hheld => (hx.held reading hheld).snoc rfl, hasking, hreturned⟩
    obtain rfl := Progress.read.inj hread
    exact ⟨es, [], rfl, hx.now.symm, List.not_mem_nil⟩
  | store =>
    obtain ⟨reading, hread⟩ := he
    rw [step_store hread]
    refine ⟨hnow.symm, fun _ h => (by cases h), fun other hother => ?_, hasking, hreturned⟩
    obtain rfl := Option.some.inj hother
    exact (hx.sampling reading hread).store

theorem run_traced {x : Exchange R H} {es : List (ExchangeEvent R H)}
    (h : (exchange R H).Run (.boot R H) es x) : Traced es x := by
  induction h with
  | nil =>
    exact ⟨rfl, fun _ h => (by cases h), fun _ h => (by cases h), fun _ _ h => (by cases h),
      fun _ h => absurd h List.not_mem_nil⟩
  | snoc e _ he ih => exact step_traced ih he

omit [DecidableEq R] in
/-- A reading that stands, and a call that began no earlier and has returned. -/
theorem overtaken_of_stamps {es : List (ExchangeEvent R H)} {reading : Reading H} {began : Nat}
    (hstands : Stands es reading) (hreturned : Returned es began)
    (hstale : reading.began ≤ began) : Overtaken es := by
  obtain ⟨a, b, d, rfl, hread, hb, hd⟩ := hstands
  obtain ⟨before, r, c, hcut, hcall, hwant⟩ := hreturned
  -- The clear is behind the reading by their stamps, and not behind the store it survived.
  rcases Logs.cut_twice hcut (by simp) with ⟨m, _, hm⟩ | ⟨m, rfl, _⟩
  · rcases Logs.cut_twice hm (by simp) with ⟨n, _, rfl⟩ | ⟨n, rfl, rfl⟩
    · exact absurd (hd (.clear r) (by simp)) (by simp)
    · have hwant' : .want r ∈ n ++ d := by simpa using hwant
      rw [List.append_assoc, List.cons_append]
      refine .intro a reading.answer m r n d (fun hstore => hb ?_) hd hwant'
      rcases List.mem_append.mp hstore with hm | hn
      · exact List.mem_append_left _ hm
      · exact List.mem_append_right _ (List.mem_cons_of_mem _ hn)
  · have hlt := begun_lt_append (e := .clear r) rfl before m
    omega

/-! Back from the order of the steps to the stamps. -/

theorem run_underWay {x y : Exchange R H} {es : List (ExchangeEvent R H)}
    (h : (exchange R H).Run x es y) (reading : Reading H) (hx : x.sampling = .read reading)
    (hes : .store ∉ es) : y.sampling = .read reading ∧ x.now ≤ y.now := by
  induction h with
  | nil => exact ⟨hx, le_rfl⟩
  | @snoc es u e _ he ih =>
    rw [List.mem_append, not_or, List.mem_singleton] at hes
    obtain ⟨hread, hnow⟩ := ih hes.1
    cases e with
    | clear r => exact ⟨hread, Nat.le_succ_of_le hnow⟩
    | want r => exact ⟨hread, hnow⟩
    | swap => cases hread.symm.trans he
    | read answer => cases hread.symm.trans he
    | store => exact absurd rfl hes.2

theorem run_stands {x y : Exchange R H} {es : List (ExchangeEvent R H)}
    (h : (exchange R H).Run x es y) (hes : ∀ e ∈ es, e.writesCounters = false) :
    y.held = x.held := by
  induction h with
  | nil => rfl
  | @snoc es u e _ _ ih =>
    have hheld := ih fun f hf => hes f (List.mem_append_left _ hf)
    have he := hes e (List.mem_append_right _ (List.mem_singleton_self e))
    cases e with
    | clear r => cases he
    | store => cases he
    | _ => exact hheld

/-- A call under way stays so until it returns. -/
theorem run_asking {x y : Exchange R H} {es : List (ExchangeEvent R H)}
    (h : (exchange R H).Run x es y) {r : R} {began : Nat} (hx : x.asking r = some began) :
    began ∈ y.returned ∨ .want r ∉ es ∧ y.asking r = some began := by
  induction h with
  | nil => exact Or.inr ⟨List.not_mem_nil, hx⟩
  | @snoc es u e _ he ih =>
    rcases ih with hreturned | ⟨hes, hasking⟩
    · left
      cases e with
      | want q => exact List.mem_append_left _ hreturned
      | store =>
        obtain ⟨reading, hread⟩ := he
        show began ∈ (u.step .store).returned
        rw [step_store hread]
        exact hreturned
      | _ => exact hreturned
    · cases e with
      | want q =>
        by_cases hq : r = q
        · subst hq
          left
          exact List.mem_append_right _ (Option.mem_toList.mpr hasking)
        · right
          refine ⟨by simpa [hes] using hq, ?_⟩
          exact (Function.update_of_ne hq ..).trans hasking
      | clear q =>
        have hq : r ≠ q := by
          rintro rfl
          cases hasking.symm.trans he
        refine Or.inr ⟨by simpa using hes, ?_⟩
        exact (Function.update_of_ne hq ..).trans hasking
      | store =>
        obtain ⟨reading, hread⟩ := he
        refine Or.inr ⟨by simpa using hes, ?_⟩
        show (u.step .store).asking r = some began
        rw [step_store hread]
        exact hasking
      | _ => exact Or.inr ⟨by simpa using hes, hasking⟩

theorem stale_of_overtaken {x y : Exchange R H} {es : List (ExchangeEvent R H)}
    (h : (exchange R H).Run x es y) (hes : Overtaken es) : ¬ y.Fresh := by
  obtain ⟨a, answer, b, r, c, d, hunstored, hstands, hreturned⟩ := hes
  rw [List.mem_append, not_or] at hunstored
  obtain ⟨x₀, _, h⟩ := Machine.Run.split a _ h
  obtain ⟨x₁, hb, h⟩ := Machine.Run.split b _ h.cons_inv.2
  have htail := h.cons_inv.2
  obtain ⟨x₂, hc, hd⟩ := Machine.Run.split c _ htail
  obtain ⟨hread, hnow⟩ := run_underWay hb ⟨x₀.now, answer⟩ rfl hunstored.1
  obtain ⟨hread, _⟩ := run_underWay hc ⟨x₀.now, answer⟩ hread hunstored.2
  have hheld : y.held = some ⟨x₀.now, answer⟩ :=
    (run_stands hd.cons_inv.2 hstands).trans (congrArg Exchange.held (step_store hread))
  have hbegan : x₁.now ∈ y.returned := by
    rcases run_asking htail (Function.update_self ..) with hover | ⟨hnot, _⟩
    · exact hover
    · exact absurd hreturned (by simpa using hnot)
  intro hfresh
  exact absurd (Nat.le_of_succ_le hnow) (Nat.not_le.mpr (hfresh _ hbegan _ hheld))

theorem fresh_iff_not_overtaken {x : Exchange R H} {es : List (ExchangeEvent R H)}
    (h : (exchange R H).Run (.boot R H) es x) : x.Fresh ↔ ¬Overtaken es := by
  constructor
  · exact fun hfresh hes => stale_of_overtaken h hes hfresh
  · intro hes began hbegan reading hheld
    have hx := run_traced h
    by_contra hstale
    exact hes (overtaken_of_stamps (hx.held reading hheld) (hx.returned began hbegan)
      (Nat.not_lt.mp hstale))

/-- `sample_counters` does not yield, so a call on the runner's own core and outside
an interrupt never begins between its reading and its store. -/
def Exchange.Undisturbed (x : Exchange R H) : ExchangeEvent R H → Prop
  | .clear _ => ∀ reading, x.sampling ≠ .read reading
  | _ => True

theorem undisturbed_not_overtaken {x : Exchange R H} {es : List (ExchangeEvent R H)}
    (h : ((exchange R H).restrict Exchange.Undisturbed).Run (.boot R H) es x) :
    ¬Overtaken es := by
  rintro ⟨a, answer, b, r, c, d, hunstored, _, _⟩
  rw [List.mem_append, not_or] at hunstored
  obtain ⟨x₀, _, h⟩ := Machine.Run.split a _ h
  obtain ⟨x₁, hb, h⟩ := Machine.Run.split b _ h.cons_inv.2
  obtain ⟨hread, _⟩ := run_underWay hb.of_restrict ⟨x₀.now, answer⟩ rfl hunstored.1
  exact h.cons_inv.1.2 _ hread

theorem undisturbed_fresh {x : Exchange R H} {es : List (ExchangeEvent R H)}
    (h : ((exchange R H).restrict Exchange.Undisturbed).Run (.boot R H) es x) : x.Fresh :=
  (fresh_iff_not_overtaken h.of_restrict).mpr (undisturbed_not_overtaken h)

/-- The runs in which no answer is older than a request that has returned are the ones
in which no call is overtaken by a reading that was under way when it began. -/
theorem counters_fresh_iff (x : Exchange R H) (es : List (ExchangeEvent R H))
    (h : (exchange R H).Run (.boot R H) es x) :
    (∀ fs y, fs <+: es → (exchange R H).Run (.boot R H) fs y →
        ∀ began ∈ y.returned, ∀ reading, y.held = some reading → began < reading.began) ↔
      ∀ fs, fs <+: es → ¬Overtaken fs := by
  constructor
  · intro hfresh fs hfs
    obtain ⟨y, _, hy, _⟩ := h.stop hfs
    exact (fresh_iff_not_overtaken hy).mp (hfresh fs y hfs hy)
  · intro hes fs y hfs hy
    exact (fresh_iff_not_overtaken hy).mpr (hes fs hfs)

/-- The second call clears while the first one's reading is under way, and has
returned when that reading is stored. -/
theorem counters_stale_after_an_overlap :
    ∃ x : Exchange Nat unitHal,
      (exchange Nat unitHal).Run (.boot Nat unitHal)
        [.clear 0, .want 0, .swap, .read (.ok ()), .clear 1, .want 1, .store] x ∧
      ∃ began ∈ x.returned, ∃ reading, x.held = some reading ∧ ¬ began < reading.began := by
  have hrun := Machine.Run.of_allowed (exchange Nat unitHal) (.boot Nat unitHal)
    [.clear 0, .want 0, .swap, .read (.ok ()), .clear 1, .want 1, .store]
    ⟨rfl, rfl, rfl, rfl, rfl, rfl, ⟨_, rfl⟩, trivial⟩
  exact ⟨_, hrun, 2, by decide, ⟨1, .ok ()⟩, rfl, by decide⟩

def oneRequest : List (ExchangeEvent Nat unitHal) :=
  [.clear 0, .want 0, .swap, .read (.ok ()), .store]

/-- One request, answered before the next: the answer is fresh, and nothing overtakes. -/
theorem counters_fresh_iff_for_one_request :
    ∃ x : Exchange Nat unitHal,
      (exchange Nat unitHal).Run (.boot Nat unitHal) oneRequest x ∧
      counters x = some (.ok ()) ∧ (∀ fs, fs <+: oneRequest → ¬Overtaken fs) ∧
      ∀ fs y, fs <+: oneRequest → (exchange Nat unitHal).Run (.boot Nat unitHal) fs y →
        ∀ began ∈ y.returned, ∀ reading, y.held = some reading → began < reading.began := by
  have hrun := Machine.Run.of_allowed
    ((exchange Nat unitHal).restrict Exchange.Undisturbed) (.boot Nat unitHal) oneRequest
    ⟨⟨rfl, fun _ h => (by cases h)⟩, ⟨rfl, trivial⟩, ⟨rfl, trivial⟩, ⟨rfl, trivial⟩,
      ⟨⟨_, rfl⟩, trivial⟩, trivial⟩
  have hnot : ∀ fs, fs <+: oneRequest → ¬Overtaken fs := fun fs hfs => by
    obtain ⟨y, _, hy, _⟩ := hrun.stop hfs
    exact undisturbed_not_overtaken hy
  exact ⟨_, hrun.of_restrict, rfl, hnot, (counters_fresh_iff _ _ hrun.of_restrict).mpr hnot⟩

end Machine

/-! ### The statics of `wifi.rs` -/

/-- One caller is enough for `wifi`, where a request comes whole between two passes. -/
abbrev undisturbed (H : Hal) : Machine (Exchange Unit H) (ExchangeEvent Unit H) :=
  (exchange Unit H).restrict Exchange.Undisturbed

structure Shows (x : Exchange Unit H) (statics : Statics H) : Prop where
  countersWanted : statics.countersWanted = x.countersWanted
  counters : statics.counters = counters x
  asking : x.asking () = none
  sampling : x.sampling = .outside

def Exchanged (w : World H Q) : Prop :=
  ∃ es x, (undisturbed H).Run (.boot Unit H) es x ∧ Shows x w.runner.statics

theorem request_exchanged {x : Exchange Unit H} {es : List (ExchangeEvent Unit H)}
    (h : (undisturbed H).Run (.boot Unit H) es x) {s : Runner H Q} (hx : Shows x s.statics) :
    ∃ fs y, (undisturbed H).Run (.boot Unit H) fs y ∧ Shows y (requestCounters s).statics := by
  have hout : ∀ reading, x.sampling ≠ .read reading := fun reading hread => by
    cases hx.sampling.symm.trans hread
  have hcall := Machine.Run.of_allowed (undisturbed H) x [.clear (), .want ()]
    ⟨⟨hx.asking, hout⟩, ⟨by simp [Exchange.enabled, exchange, Machine.restrict, Exchange.step],
      trivial⟩, trivial⟩
  have hasking : ((x.step (.clear ())).step (.want ())).asking () = none := by
    simp [Exchange.step]
  exact ⟨_, _, h.append hcall, rfl, rfl, hasking, hx.sampling⟩

theorem sample_exchanged {x : Exchange Unit H} {es : List (ExchangeEvent Unit H)}
    (h : (undisturbed H).Run (.boot Unit H) es x) {s : Runner H Q} (hx : Shows x s.statics)
    (a : Answers H) :
    ∃ fs y, (undisturbed H).Run (.boot Unit H) fs y ∧ Shows y (sampleCounters a s).statics := by
  have hstep := sampleCounters_step a s
  generalize sampleCounters a s = t at hstep ⊢
  cases hstep with
  | unasked hwanted =>
    have hnot : x.countersWanted = false := hx.countersWanted.symm.trans hwanted
    have hout : (x.step .swap).sampling = .outside := by simp [Exchange.step, hnot]
    have hcall := Machine.Run.of_allowed (undisturbed H) x [.swap]
      ⟨⟨hx.sampling, trivial⟩, trivial⟩
    exact ⟨_, _, h.append hcall, rfl, hx.counters, hx.asking, hout⟩
  | asked hwanted =>
    have hset : x.countersWanted = true := hx.countersWanted.symm.trans hwanted
    have hasked : (x.step .swap).sampling = .asked := by simp [Exchange.step, hset]
    have hcall := Machine.Run.of_allowed (undisturbed H) x [.swap, .read a.counters, .store]
      ⟨⟨hx.sampling, trivial⟩, ⟨hasked, trivial⟩, ⟨⟨_, rfl⟩, trivial⟩, trivial⟩
    exact ⟨_, _, h.append hcall, rfl, rfl, hx.asking, rfl⟩

theorem join_counters (a : Answers H) (c : Clock) (s : Runner H Q) :
    (join a c s).statics.counters = s.statics.counters := by
  have h := join_step a c s
  generalize join a c s = t at h ⊢
  cases h <;> rfl

theorem watchPass_counters (a : Answers H) (c : Clock) (s : Runner H Q) :
    (watchPass a c s).statics.counters = s.statics.counters := by
  have h := watchPass_step a c s
  generalize watchPass a c s = t at h ⊢
  cases h with
  | lost => exact join_counters a c _
  | asked => exact join_counters a c _
  | landed =>
    unfold associate restore
    cases (probed a c s).watch.reconnect <;> rfl
  | _ => rfl

theorem sampleLink_counters (a : Answers H) (c : Clock) (s : Runner H Q) :
    (sampleLink a c s).statics.counters = s.statics.counters := by
  have h := sampleLink_step a c s
  generalize sampleLink a c s = t at h ⊢
  cases h <;> rfl

theorem transmit_counters (a : Answers H) (s : Runner H Q) :
    (transmit a s).2.statics.counters = s.statics.counters := by
  have h := transmit_step a s
  generalize transmit a s = r at h ⊢
  cases h <;> rfl

theorem receive_counters (a : Answers H) (s : Runner H Q) :
    (receive a s).2.statics.counters = s.statics.counters :=
  receive_keeps (P := fun _ t => t.statics.counters = s.statics.counters) rfl
    (fun _ _ _ h _ => h) (fun _ _ _ _ h _ => h) (fun _ _ _ _ h _ => h)

theorem watched_counters (a : Answers H) (c : Clock) (s : Runner H Q) :
    (watched a c s).statics.counters = s.statics.counters := by
  have hmoved : (moved a c s).statics.counters = (emitted a s).2.statics.counters := by
    unfold moved noteTraffic
    cases (drained a s).1 <;> rfl
  calc (watched a c s).statics.counters
      = (sampled a c s).statics.counters := watchPass_counters a c _
    _ = (moved a c s).statics.counters := sampleLink_counters a c _
    _ = (emitted a s).2.statics.counters := hmoved
    _ = (drained a s).2.statics.counters := transmit_counters a _
    _ = s.statics.counters := receive_counters a _

theorem run_exchanged {reconnect : Option (Reconnect H)} {o : Opening} {es : List (Event H)}
    {w : World H Q} (h : (wifi H Q).Run (start Q reconnect o) es w) : Exchanged w := by
  apply h.invariant (P := Exchanged)
  · exact ⟨[], _, .nil, rfl, rfl, rfl, rfl⟩
  · rintro w e ⟨fs, x, hx, hshows⟩ _
    cases e with
    | stackReceive =>
      refine ⟨fs, x, hx, ?_⟩
      simp only [wifi, step]
      split <;> exact hshows
    | stackTransmit f =>
      refine ⟨fs, x, hx, ?_⟩
      simp only [wifi, step]
      split <;> exact hshows
    | requestCounters => exact request_exchanged hx hshows
    | pass a c =>
      have hwatched : Shows x (watched a c w.runner).cut.statics :=
        ⟨(watched_countersWanted a c w.runner).trans hshows.countersWanted,
          (watched_counters a c w.runner).trans hshows.counters, hshows.asking, hshows.sampling⟩
      exact sample_exchanged hx hwatched a

/-- What `wifi` has in `COUNTERS` is as fresh as the exchange it goes through. -/
theorem run_fresh {reconnect : Option (Reconnect H)} {o : Opening} {es : List (Event H)}
    {w : World H Q} (h : (wifi H Q).Run (start Q reconnect o) es w) :
    ∃ x, Shows x w.runner.statics ∧ x.Fresh := by
  obtain ⟨fs, x, hx, hshows⟩ := run_exchanged h
  exact ⟨x, hshows, undisturbed_fresh hx⟩

end RpiHalEmbassy.Wifi
