import RpiHalEmbassy.Wifi.Pass

/-!
# What the stack is told

One step of the watch tells the stack nothing, that the association is lost, or
that it is back, and moves `Watch`, `ASSOCIATED`, `DROPS` and `JOINS` along. From
that the four agree at every point between passes.
-/

namespace RpiHalEmbassy.Wifi
open Machines Net

variable {H : Hal} {Q : Channel}

theorem count_succ {count base : UInt32} {n : Nat} (h : count = base + UInt32.ofNat n) :
    count + 1 = base + UInt32.ofNat (n + 1) := by
  rw [h, UInt32.ofNat_add, UInt32.add_assoc]
  rfl

structure Joined (s t : Runner H Q) : Prop where
  told : linkStates t.calls = linkStates s.calls
  probed : bssids t.calls = bssids s.calls
  reconnect : t.watch.reconnect = s.watch.reconnect
  notUp : s.watch.state ≠ .up → t.watch.state ≠ .up
  associated : t.statics.associated = s.statics.associated
  drops : t.statics.drops = s.statics.drops
  link : t.statics.link = s.statics.link
  unasked : s.watch.reconnect = none → startJoins t.calls = startJoins s.calls
  joins : ∀ base : UInt32,
    s.statics.joins = base + UInt32.ofNat (startJoins s.calls).length →
    t.statics.joins = base + UInt32.ofNat (startJoins t.calls).length

theorem join_joined (a : Answers H) (c : Clock) (s : Runner H Q) : Joined s (join a c s) := by
  have h := join_step a c s
  generalize join a c s = t at h ⊢
  cases h with
  | nothing h =>
    refine ⟨?_, ?_, rfl, id, rfl, rfl, rfl, fun _ => ?_, fun base hb => hb.trans ?_⟩ <;> simp
  | issued reconnect h ha =>
    refine ⟨?_, ?_, rfl, fun _ => Association.noConfusion, rfl, rfl, rfl, fun hn => ?_,
      fun base hb => ?_⟩
    · simp
    · simp
    · rw [h] at hn
      cases hn
    · refine (count_succ hb).trans ?_
      simp
  | refused reconnect error h ha =>
    refine ⟨?_, ?_, rfl, fun _ => Association.noConfusion, rfl, rfl, rfl, fun hn => ?_,
      fun base hb => ?_⟩
    · simp
    · simp
    · rw [h] at hn
      cases hn
    · refine (count_succ hb).trans ?_
      simp

/-- What a step of the watch tells the stack, and what it moves along with it. -/
inductive Told (a : Answers H) (s t : Runner H Q) (calls : List (Call H)) : Prop
  | nothing (told : linkStates calls = [])
      (state : t.watch.state = .up ↔ s.watch.state = .up)
      (associated : t.statics.associated = s.statics.associated)
      (drops : t.statics.drops = s.statics.drops) (link : t.statics.link = s.statics.link)
  | lost (told : linkStates calls = [.down]) (was : s.watch.state = .up)
      (probed : bssids calls = [a.bssid]) (absent : found a.bssid = false)
      (state : t.watch.state ≠ .up) (associated : t.statics.associated = false)
      (drops : t.statics.drops = s.statics.drops + 1) (link : t.statics.link = none)
  | back (told : linkStates calls = [.up]) (was : s.watch.state ≠ .up)
      (probed : bssids calls = [a.bssid]) (present : found a.bssid = true)
      (restored : ∀ reconnect, s.watch.reconnect = some reconnect →
        [.bssid a.bssid, .setPowerManagement reconnect.powerManagement a.setPowerManagement,
          .setAllMulticast reconnect.allMulticast a.setAllMulticast,
          .setLinkState .up] <:+: calls)
      (state : t.watch.state = .up) (associated : t.statics.associated = true)
      (drops : t.statics.drops = s.statics.drops) (link : t.statics.link = s.statics.link)

theorem associate_back {a : Answers H} {c : Clock} {s : Runner H Q}
    (was : s.watch.state ≠ .up) (present : found a.bssid = true) :
    Told a s (associate a c (probed a c s.cut)) (associate a c (probed a c s.cut)).calls := by
  have hr : (probed a c s.cut).watch.reconnect = s.watch.reconnect := rfl
  unfold associate restore
  cases h : s.watch.reconnect with
  | none =>
    rw [h] at hr
    simp only [hr]
    refine .back ?_ was ?_ present (fun reconnect hs => ?_) rfl rfl rfl rfl
    · simp [probed]
    · simp [probed]
    · rw [h] at hs
      cases hs
  | some reconnect =>
    rw [h] at hr
    simp only [hr]
    refine .back ?_ was ?_ present (fun other hs => ?_) rfl rfl rfl rfl
    · simp [probed]
    · simp [probed]
    · rw [h] at hs
      cases Option.some.inj hs
      exact ⟨[.now c.watchGate], [.now c.associateDue], rfl⟩

theorem watch_told (a : Answers H) (c : Clock) (s : Runner H Q) :
    Told a s (watchPass a c s.cut) (watchPass a c s.cut).calls := by
  have h := watchPass_step a c s.cut
  generalize watchPass a c s.cut = t at h ⊢
  cases h with
  | early h => exact .nothing (by simp) Iff.rfl rfl rfl rfl
  | carrying h hs hg => exact .nothing (by simp) Iff.rfl rfl rfl rfl
  | present h hs hg hf => exact .nothing (by simp [probedUp]) Iff.rfl rfl rfl rfl
  | lost h hs hg hf =>
    have hj := join_joined a c (lose (probedUp a c s.cut))
    refine .lost ?_ hs ?_ hf (hj.notUp Association.noConfusion) hj.associated hj.drops hj.link
    · rw [hj.told]
      simp [lose, probedUp]
    · rw [hj.probed]
      simp [lose, probedUp]
  | landed h hs hf => exact associate_back hs hf
  | waiting h deadline hs hf hd => exact .nothing (by simp [polled, probed]) Iff.rfl rfl rfl rfl
  | expired h deadline hs hf hd =>
    refine .nothing (by simp [polled, probed]) ⟨fun h => Association.noConfusion h, fun h => ?_⟩
      rfl rfl rfl
    rw [show s.watch.state = .joining deadline from hs] at h
    cases h
  | asked h hs hf =>
    have hj := join_joined a c (probed a c s.cut)
    have hup : s.watch.state ≠ .up := by
      rw [show s.watch.state = .down from hs]
      exact Association.noConfusion
    refine .nothing ?_ (iff_of_false (hj.notUp hup) hup) hj.associated hj.drops hj.link
    rw [hj.told]
    simp [probed]

theorem watched_within (a : Answers H) (c : Clock) (s : Runner H Q) :
    (watched a c s).calls <:+: (pass a c s).2.calls := by
  rw [pass_eq]
  exact ⟨_, _, rfl⟩

theorem pass_linkStates (a : Answers H) (c : Clock) (s : Runner H Q) :
    linkStates (pass a c s).2.calls = linkStates (watched a c s).calls :=
  (pass_parted a c s).filterMap (k := .watch) (by decide) fun call h => by
    cases call <;> first | rfl | exact absurd rfl h

theorem pass_bssids (a : Answers H) (c : Clock) (s : Runner H Q) :
    bssids (pass a c s).2.calls = bssids (watched a c s).calls :=
  (pass_parted a c s).filterMap (k := .watch) (by decide) fun call h => by
    cases call <;> first | rfl | exact absurd rfl h

theorem pass_startJoins (a : Answers H) (c : Clock) (s : Runner H Q) :
    startJoins (pass a c s).2.calls = startJoins (watched a c s).calls :=
  (pass_parted a c s).filterMap (k := .watch) (by decide) fun call h => by
    cases call <;> first | rfl | exact absurd rfl h

theorem pass_told (a : Answers H) (c : Clock) (s : Runner H Q) :
    Told a (sampled a c s) (pass a c s).1 (pass a c s).2.calls := by
  have h : Told a (sampled a c s) (watched a c s) (watched a c s).calls :=
    watch_told a c (sampled a c s)
  have hp := pass_same a c s
  cases h with
  | nothing told state associated drops link =>
    exact .nothing ((pass_linkStates a c s).trans told) (hp.watch ▸ state)
      (hp.associated.trans associated) (hp.drops.trans drops) ((pass_link a c s).trans link)
  | lost told was probed absent state associated drops link =>
    exact .lost ((pass_linkStates a c s).trans told) was ((pass_bssids a c s).trans probed) absent
      (hp.watch ▸ state) (hp.associated.trans associated) (hp.drops.trans drops)
      ((pass_link a c s).trans link)
  | back told was probed present restored state associated drops link =>
    exact .back ((pass_linkStates a c s).trans told) was ((pass_bssids a c s).trans probed) present
      (fun reconnect h => (restored reconnect h).trans (watched_within a c s))
      (hp.watch ▸ state) (hp.associated.trans associated) (hp.drops.trans drops)
      ((pass_link a c s).trans link)

structure Issued (s t : Runner H Q) : Prop where
  reconnect : t.watch.reconnect = s.watch.reconnect
  unasked : s.watch.reconnect = none → startJoins t.calls = []
  joins : t.statics.joins = s.statics.joins + UInt32.ofNat (startJoins t.calls).length

theorem issued_none {s t : Runner H Q} (reconnect : t.watch.reconnect = s.watch.reconnect)
    (joins : t.statics.joins = s.statics.joins) (calls : startJoins t.calls = []) :
    Issued s t := by
  refine ⟨reconnect, fun _ => calls, ?_⟩
  rw [joins, calls]
  exact (UInt32.add_zero _).symm

theorem issued_join {s u t : Runner H Q} (h : Joined u t)
    (reconnect : u.watch.reconnect = s.watch.reconnect)
    (joins : u.statics.joins = s.statics.joins) (calls : startJoins u.calls = []) :
    Issued s t := by
  refine ⟨h.reconnect.trans reconnect, fun hn => ?_, h.joins _ ?_⟩
  · rw [h.unasked (reconnect.trans hn), calls]
  · rw [joins, calls]
    exact (UInt32.add_zero _).symm

theorem watch_issued (a : Answers H) (c : Clock) (s : Runner H Q) :
    Issued s (watchPass a c s.cut) := by
  have h := watchPass_step a c s.cut
  generalize watchPass a c s.cut = t at h ⊢
  cases h with
  | early h => exact issued_none rfl rfl (by simp)
  | carrying h hs hg => exact issued_none rfl rfl (by simp)
  | present h hs hg hf => exact issued_none rfl rfl (by simp [probedUp])
  | lost h hs hg hf =>
    exact issued_join (join_joined a c (lose (probedUp a c s.cut))) rfl rfl
      (by simp [lose, probedUp])
  | landed h hs hf =>
    have hr : (probed a c s.cut).watch.reconnect = s.watch.reconnect := rfl
    unfold associate restore
    cases h : s.watch.reconnect <;> rw [h] at hr <;> simp only [hr] <;>
      exact issued_none rfl rfl (by simp [probed])
  | waiting h deadline hs hf hd => exact issued_none rfl rfl (by simp [polled, probed])
  | expired h deadline hs hf hd => exact issued_none rfl rfl (by simp [polled, probed])
  | asked h hs hf =>
    exact issued_join (join_joined a c (probed a c s.cut)) rfl rfl (by simp [probed])

/-! ### Over a run -/

structure InStep (told : List LinkState) (s : Runner H Q) : Prop where
  state : s.watch.state = .up ↔ s.statics.associated = true
  parity : s.statics.associated = true ↔ told.length % 2 = 1
  alternate : ∀ k l, told[k]? = some l → (l = .up ↔ k % 2 = 0)
  drops : s.statics.drops = UInt32.ofNat (told.count .down)

theorem InStep.same {told : List LinkState} {s t : Runner H Q} (h : InStep told s)
    (k : SameAssociation s t) : InStep told t :=
  ⟨by rw [k.watch, k.associated]; exact h.state, by rw [k.associated]; exact h.parity,
    h.alternate, by rw [k.drops]; exact h.drops⟩

theorem alternate_snoc {told : List LinkState} {l : LinkState}
    (h : ∀ k m, told[k]? = some m → (m = .up ↔ k % 2 = 0))
    (hl : l = .up ↔ told.length % 2 = 0) (k : Nat) (m : LinkState)
    (hk : (told ++ [l])[k]? = some m) : m = .up ↔ k % 2 = 0 := by
  rcases Nat.lt_trichotomy k told.length with hlt | rfl | hgt
  · rw [List.getElem?_append_left hlt] at hk
    exact h k m hk
  · rw [List.getElem?_concat_length] at hk
    cases Option.some.inj hk
    exact hl
  · rw [List.getElem?_eq_none (by simp; omega)] at hk
    cases hk

theorem told_inStep {a : Answers H} {s t : Runner H Q} {calls : List (Call H)}
    {told : List LinkState} (h : InStep told s) (k : Told a s t calls) :
    InStep (told ++ linkStates calls) t := by
  cases k with
  | nothing nil state associated drops _ =>
    rw [nil, List.append_nil]
    exact ⟨state.trans (associated ▸ h.state), associated ▸ h.parity, h.alternate,
      drops.trans h.drops⟩
  | lost down was _ _ state associated drops _ =>
    have hodd : told.length % 2 = 1 := h.parity.mp (h.state.mp was)
    have hfalse : t.statics.associated ≠ true := Bool.eq_false_iff.mp associated
    rw [down]
    refine ⟨iff_of_false state hfalse, iff_of_false hfalse ?_,
      alternate_snoc h.alternate (iff_of_false (by decide) (by omega)), ?_⟩
    · rw [List.length_append, List.length_singleton]
      omega
    · rw [drops, h.drops, List.count_append, UInt32.ofNat_add]
      rfl
  | back up was _ _ _ state associated drops _ =>
    have heven : told.length % 2 = 0 := by
      have hne := mt (fun h' => h.state.mpr (h.parity.mpr h')) was
      omega
    rw [up]
    refine ⟨iff_of_true state associated, iff_of_true associated ?_,
      alternate_snoc h.alternate (iff_of_true rfl heven), ?_⟩
    · rw [List.length_append, List.length_singleton]
      omega
    · rw [drops, h.drops, List.count_append]
      rfl

theorem told_last {told : List LinkState} {s : Runner H Q} (h : InStep told s) (hne : told ≠ []) :
    s.statics.associated = true ↔ told.getLast? = some .up := by
  have hpos : 0 < told.length := List.length_pos_iff.mpr hne
  have hlast : told[told.length - 1]? = some (told.getLast hne) := by
    rw [← List.getLast?_eq_getElem?, List.getLast?_eq_some_getLast hne]
  rw [h.parity, List.getLast?_eq_some_getLast hne, Option.some_inj, h.alternate _ _ hlast]
  omega

/-- Why a pass told the stack what it did. -/
structure Answered (reconnect : Option (Reconnect H)) (r : Record H) : Prop where
  lost : .down ∈ linkStates r.calls →
    ∃ answer, bssids r.calls = [answer] ∧ found answer = false
  back : .up ∈ linkStates r.calls →
    ∃ answer, bssids r.calls = [answer] ∧ found answer = true ∧
      ∀ rc, reconnect = some rc → ∃ power multicast,
        [.bssid answer, .setPowerManagement rc.powerManagement power,
          .setAllMulticast rc.allMulticast multicast, .setLinkState .up] <:+: r.calls

theorem told_answered {a : Answers H} {s t : Runner H Q} {r : Record H} (k : Told a s t r.calls) :
    Answered s.watch.reconnect r := by
  cases k with
  | nothing nil => exact ⟨fun h => by simp [nil] at h, fun h => by simp [nil] at h⟩
  | lost down was probed absent =>
    exact ⟨fun _ => ⟨a.bssid, probed, absent⟩, fun h => by simp [down] at h⟩
  | back up was probed present restored =>
    exact ⟨fun h => by simp [up] at h,
      fun _ => ⟨a.bssid, probed, present, fun rc hrc => ⟨_, _, restored rc hrc⟩⟩⟩

structure Agrees (reconnect : Option (Reconnect H)) (w : World H Q) : Prop where
  rejoins : w.runner.watch.reconnect = reconnect
  told : linkStates w.calls ≠ []
  inStep : InStep (linkStates w.calls) w.runner
  answered : ∀ r ∈ w.records, Answered reconnect r
  joins : w.runner.statics.joins = UInt32.ofNat (startJoins w.calls).length
  unasked : reconnect = none → startJoins w.calls = []

theorem start_agrees (reconnect : Option (Reconnect H)) (o : Opening) :
    Agrees reconnect (start Q reconnect o) where
  rejoins := rfl
  told := List.cons_ne_nil _ _
  inStep :=
    { state := iff_of_true rfl rfl
      parity := iff_of_true rfl rfl
      alternate := @alternate_snoc [] .up (fun _ _ h => by simp at h) (iff_of_true rfl rfl)
      drops := rfl }
  answered _ hr := absurd hr List.not_mem_nil
  joins := rfl
  unasked _ := rfl

theorem calls_pass (w : World H Q) (a : Answers H) (c : Clock) :
    (step w (.pass a c)).calls = w.calls ++ (pass a c w.runner).2.calls := by
  simp [World.calls, step]

def Event.calls (w : World H Q) : Event H → List (Call H)
  | .pass a c => (Wifi.pass a c w.runner).2.calls
  | _ => []

theorem Event.calls_nil (w : World H Q) {e : Event H} (h : ¬ ∃ a c, e = .pass a c) :
    Event.calls w e = [] := by
  cases e with
  | pass a c => exact absurd ⟨a, c, rfl⟩ h
  | _ => rfl

theorem step_calls (w : World H Q) (e : Event H) :
    (step w e).calls = w.calls ++ Event.calls w e := by
  by_cases h : ∃ a c, e = .pass a c
  · obtain ⟨a, c, rfl⟩ := h
    exact calls_pass w a c
  · rw [((step_frame w e).resolve_left h).calls, Event.calls_nil w h, List.append_nil]

theorem pass_agrees {reconnect : Option (Reconnect H)} {w : World H Q}
    (hw : Agrees reconnect w) (a : Answers H) (c : Clock) :
    Agrees reconnect (step w (.pass a c)) := by
  have hs := sampled_same a c w.runner
  have hp := pass_same a c w.runner
  have ht := pass_told a c w.runner
  have hi : Issued (sampled a c w.runner) (watched a c w.runner) :=
    watch_issued a c (sampled a c w.runner)
  have hrejoins : (sampled a c w.runner).watch.reconnect = reconnect :=
    (congrArg Watch.reconnect hs.watch).trans hw.rejoins
  have hstates : linkStates (step w (.pass a c)).calls =
      linkStates w.calls ++ linkStates (pass a c w.runner).2.calls := by
    rw [calls_pass]
    exact List.filterMap_append
  have hjoins : startJoins (step w (.pass a c)).calls =
      startJoins w.calls ++ startJoins (watched a c w.runner).calls := by
    rw [calls_pass, ← pass_startJoins]
    exact List.filterMap_append
  refine ⟨?_, ?_, ?_, ?_, ?_, fun hn => ?_⟩
  · exact (congrArg Watch.reconnect hp.watch).trans (hi.reconnect.trans hrejoins)
  · rw [hstates]
    exact List.append_ne_nil_of_left_ne_nil hw.told _
  · rw [hstates]
    exact told_inStep (hw.inStep.same hs) ht
  · intro r hr
    rcases List.mem_append.mp hr with hr | hr
    · exact hw.answered r hr
    · obtain rfl := List.mem_singleton.mp hr
      exact hrejoins ▸ told_answered ht
  · rw [hjoins, List.length_append, UInt32.ofNat_add, ← hw.joins, ← hs.joins]
    exact hp.joins.trans hi.joins
  · rw [hjoins, hw.unasked hn, hi.unasked (hrejoins.trans hn), List.append_nil]

theorem step_agrees {reconnect : Option (Reconnect H)} {w : World H Q}
    (hw : Agrees reconnect w) (e : Event H) : Agrees reconnect (step w e) := by
  rcases step_frame w e with ⟨a, c, rfl⟩ | h
  · exact pass_agrees hw a c
  · refine ⟨?_, ?_, ?_, ?_, ?_, ?_⟩
    · rw [h.watch]
      exact hw.rejoins
    · rw [h.calls]
      exact hw.told
    · rw [h.calls]
      exact hw.inStep.same ⟨h.watch, h.associated, h.drops, h.joins⟩
    · rw [h.records]
      exact hw.answered
    · rw [h.calls, h.joins]
      exact hw.joins
    · rw [h.calls]
      exact hw.unasked

theorem run_agrees {reconnect : Option (Reconnect H)} {o : Opening} {es : List (Event H)}
    {w : World H Q} (h : (wifi H Q).Run (start Q reconnect o) es w) : Agrees reconnect w :=
  h.invariant (start_agrees reconnect o) fun _ e hu _ => step_agrees hu e

/-- What `Watch` believes, what `associated` says and what the stack was told are
one, in every run; and why each change was made. -/
theorem association_agrees (reconnect : Option (Reconnect H)) (o : Opening)
    (es : List (Event H)) (w : World H Q) (h : (wifi H Q).Run (start Q reconnect o) es w) :
    (w.runner.watch.state = .up ↔ w.runner.statics.associated = true) ∧
      (w.runner.statics.associated = true ↔ (linkStates w.calls).getLast? = some .up) ∧
      (∀ k l, (linkStates w.calls)[k]? = some l → (l = .up ↔ k % 2 = 0)) ∧
      w.runner.statics.drops = UInt32.ofNat ((linkStates w.calls).count .down) ∧
      (∀ r ∈ w.records, Answered reconnect r) ∧
      w.runner.statics.joins = UInt32.ofNat (startJoins w.calls).length ∧
      (reconnect = none → startJoins w.calls = []) := by
  have hw := run_agrees h
  exact ⟨hw.inStep.state, told_last hw.inStep hw.told, hw.inStep.alternate,
    hw.inStep.drops, hw.answered, hw.joins, hw.unasked⟩

theorem association_agrees_over_a_rejoin :
    ∃ w : World unitHal (fifoChannel 1514 1 1),
      (wifi unitHal (fifoChannel 1514 1 1)).Run (powerOn (some ⟨"home", "secret", (), true⟩))
        [.pass offNetwork (.still (fromSecs 10)), .pass onNetwork (.still (fromSecs 12))] w ∧
      linkStates w.calls = [.up, .down, .up] ∧
      (w.runner.watch.state = .up ↔ w.runner.statics.associated = true) ∧
      w.runner.statics.drops = UInt32.ofNat ((linkStates w.calls).count .down) := by
  have hdrop := run_event (.nil (s := powerOn (some ⟨"home", "secret", (), true⟩)))
    (.pass offNetwork (.still (fromSecs 10))) (Clock.still_inOrder (by decide))
  have hrun := run_event hdrop (.pass onNetwork (.still (fromSecs 12)))
    (Clock.still_inOrder (by decide))
  have hw := association_agrees _ _ _ _ hrun
  exact ⟨_, hrun, by decide +kernel, hw.1, hw.2.2.2.1⟩

end RpiHalEmbassy.Wifi
