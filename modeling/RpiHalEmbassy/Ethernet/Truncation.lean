import Mathlib.Data.List.TakeDrop
import RpiHalEmbassy.Ethernet.Runner

/-!
# Frames longer than a slot

`receive_forever` copies what fits of a frame into its slot, so nothing is lost as
long as no frame is longer than an `MTU`. `new` asserts as much of its driver;
`attach`, which it is built on, asserts nothing.
-/

namespace RpiHalEmbassy.Ethernet
open Machines Net

variable {Q : Channel}

/-- The frames of the transfers completed are at most `n` bytes long. -/
def RunEvent.Within (n : Nat) : RunEvent → Prop
  | .loop e => ∀ frame ∈ e.frames, frame.length ≤ n
  | _ => True

abbrev within (Q : Channel) (ethernet : EthernetAsync) : Machine (Runner Q) RunEvent :=
  (ethernetRun Q).restrict fun _ e => e.Within ethernet.mtu

theorem run_drained {r : EthernetRunner Q} {code : UInt8} {es : List RunEvent} {s : Runner Q}
    (h : (ethernetRun Q).Run (run r code) es s) : Drained s.world := by
  have hstart : Drained (run r code).world := by simp [Drained, run, start]
  refine h.invariant (P := fun u => Drained u.world) hstart fun u e hu he => ?_
  show Drained (u.step e).world
  rcases runner_step_world he with hsame | ⟨state, hlink⟩ | ⟨i, _, hi, hstep⟩
  · rwa [hsame]
  · rw [hlink]
    exact hu
  · rw [hstep]
    exact step_drained hu hi

theorem run_handed_within {r : EthernetRunner Q} {code : UInt8} {es : List RunEvent}
    {s : Runner Q} (h : (within Q r.ethernet).Run (run r code) es s) :
    ∀ frame ∈ handed s.world.calls, frame.length ≤ r.ethernet.mtu := by
  refine h.invariant (P := fun u => ∀ frame ∈ handed u.world.calls, frame.length ≤ r.ethernet.mtu)
    (fun _ hmem => absurd hmem List.not_mem_nil) fun u e hu he => ?_
  show ∀ frame ∈ handed (u.step e).world.calls, frame.length ≤ r.ethernet.mtu
  rcases runner_step_world he.1 with hsame | ⟨state, hlink⟩ | ⟨i, rfl, _, hstep⟩
  · rwa [hsame]
  · rw [hlink]
    exact hu
  · rw [hstep, step_handed]
    exact List.forall_mem_append.mpr ⟨hu, he.2⟩

theorem map_fitted_eq_self_iff (Q : Channel) (frames : List Bytes) :
    frames.map (fitted Q) = frames ↔ ∀ frame ∈ frames, frame.length ≤ Q.mtu := by
  induction frames with
  | nil => simp
  | cons frame frames ih =>
    rw [List.map_cons, List.cons.injEq, ih, List.forall_mem_cons, fitted_eq_take]
    rw [List.take_eq_self_iff]

theorem commits_prefix_iff {w : World Q} (h : Drained w) :
    commits w.calls <+: handed w.calls ↔
      ∀ frame ∈ (handed w.calls).take (commits w.calls).length, frame.length ≤ Q.mtu := by
  have hcommits : commits w.calls =
      ((handed w.calls).take (commits w.calls).length).map (fitted Q) := by
    have htake := congrArg (List.take (commits w.calls).length) h
    rwa [List.take_left, ← List.map_take] at htake
  rw [List.prefix_iff_eq_take, ← map_fitted_eq_self_iff, ← hcommits]

/-! ### A driver with longer frames -/

theorem within_run_step {ethernet : EthernetAsync} {r s : Runner Q} {es : List RunEvent}
    (h : (within Q ethernet).Run r es s) (e : RunEvent) (he : s.enabled e)
    (hfits : e.Within ethernet.mtu) : (within Q ethernet).Run r (es ++ [e]) (s.step e) :=
  h.snoc e ⟨he, hfits⟩

theorem exists_running (r : EthernetRunner Q) (code : UInt8) : ∃ es s,
    (within Q r.ethernet).Run (run r code) es s ∧ s.stage = .running ∧
      s.world = { (run r code).world with queues := Q.setLinkState .up r.runner } := by
  have hstarted := within_run_step (.nil (m := within Q r.ethernet) (s := run r code))
    (.started (.ok ()) 0) rfl trivial
  by_cases hall : r.config.allMulticast = true
  · have hstage : ((run r code).step (.started (.ok ()) 0)).stage = .settingMulticast := by
      simp [Runner.step, started, run, hall]
    have hfilter := within_run_step hstarted (.allMulticastSet (.ok ()) 0) hstage trivial
    have hrun := within_run_step hfilter (.linkUp (.ok true) 0) ⟨_, rfl⟩ trivial
    refine ⟨_, _, hrun, rfl, ?_⟩
    simp [Runner.step, started, run, hall, allMulticastSet, waitForLink, linkUp, reportUp,
      setLinkState]
  · have hstage : ((run r code).step (.started (.ok ()) 0)).stage =
        .waiting (0 + linkWaitUs) := by
      simp [Runner.step, started, run, hall, waitForLink]
    have hrun := within_run_step hstarted (.linkUp (.ok true) 0) ⟨_, hstage⟩ trivial
    refine ⟨_, _, hrun, ?_, ?_⟩
    · simp [Runner.step, started, run, hall, waitForLink, linkUp, reportUp]
    · simp [Runner.step, started, run, hall, waitForLink, linkUp, reportUp, setLinkState]

/-- One frame as long as the driver's frames get. -/
theorem exists_longest_frame (r : EthernetRunner Q) (code : UInt8)
    (hslot : Q.tryRxBuf r.runner = true) : ∃ es s,
    (within Q r.ethernet).Run (run r code) es s ∧
      handed s.world.calls = [List.replicate r.ethernet.mtu 0] ∧
      commits s.world.calls = [fitted Q (List.replicate r.ethernet.mtu 0)] := by
  obtain ⟨es, s, hrun, hstage, hworld⟩ := exists_running r code
  generalize hframe : List.replicate r.ethernet.mtu (0 : UInt8) = frame
  have hlen : frame.length = r.ethernet.mtu := by rw [← hframe, List.length_replicate]
  have hslot : Q.tryRxBuf (Q.setLinkState .up r.runner) = true := by
    rwa [Q.tryRxBuf_iff, Q.rxQueue_setLinkState, ← Q.tryRxBuf_iff]
  have hissued := within_run_step hrun (.loop (.issue 0))
    ⟨show s.world.rx = .next by rw [hworld]; rfl, Or.inl hstage⟩
    (fun _ h => absurd h List.not_mem_nil)
  have hcompleted := within_run_step hissued (.loop (.complete (.ok [frame]) 0))
    ⟨rfl, Or.inl hstage⟩ (fun f hf => List.mem_singleton.mp hf ▸ Nat.le_of_eq hlen)
  have hdelivered := within_run_step hcompleted (.loop .deliver)
    ⟨⟨⟨frame, [], 0, rfl⟩, by simpa [Runner.step, loop, step, complete, issue, hworld, run]⟩,
      Or.inl hstage⟩ (fun _ h => absurd h List.not_mem_nil)
  refine ⟨_, _, hdelivered, ?_, ?_⟩
  · simp [Runner.step, loop, step, complete, issue, deliver, hworld, run, start]
  · simp [Runner.step, loop, step, complete, issue, deliver, hworld, run, start, fitted]

/-- A run keeps every frame whole iff the frames it has committed all fit. That is every
run behind `new`; behind `attach` it is every run iff the driver's frames fit. -/
theorem frames_kept_whole_iff (hmtu : Q.mtu = mtu) (r : EthernetRunner Q) (code : UInt8) :
    (∀ es s, (within Q r.ethernet).Run (run r code) es s →
      (commits s.world.calls <+: handed s.world.calls ↔
        ∀ frame ∈ (handed s.world.calls).take (commits s.world.calls).length,
          frame.length ≤ mtu)) ∧
    (Q.tryRxBuf r.runner = true →
      ((∀ es s, (within Q r.ethernet).Run (run r code) es s →
        commits s.world.calls <+: handed s.world.calls) ↔ r.ethernet.mtu ≤ mtu)) ∧
    ∀ ethernet config, new Q ethernet config = some r →
      ∀ es s, (within Q r.ethernet).Run (run r code) es s →
        commits s.world.calls <+: handed s.world.calls := by
  have hexact : ∀ es s, (within Q r.ethernet).Run (run r code) es s →
      (commits s.world.calls <+: handed s.world.calls ↔
        ∀ frame ∈ (handed s.world.calls).take (commits s.world.calls).length,
          frame.length ≤ mtu) := by
    intro es s h
    have hiff := commits_prefix_iff (run_drained h.of_restrict)
    rwa [hmtu] at hiff
  have hfits : r.ethernet.mtu ≤ mtu → ∀ es s, (within Q r.ethernet).Run (run r code) es s →
      commits s.world.calls <+: handed s.world.calls := by
    intro hle es s h
    rw [hexact es s h]
    intro frame hframe
    exact Nat.le_trans (run_handed_within h frame (List.mem_of_mem_take hframe)) hle
  refine ⟨hexact, fun hslot => ⟨fun hall => ?_, hfits⟩, fun ethernet config hnew => ?_⟩
  · obtain ⟨es, s, hrun, hhanded, hcommits⟩ := exists_longest_frame r code hslot
    have hwhole := (hexact es s hrun).mp (hall es s hrun)
    rw [hhanded, hcommits] at hwhole
    simpa using hwhole
  · unfold new at hnew
    split at hnew
    · next heq =>
      obtain rfl := Option.some.inj hnew
      exact hfits (Nat.le_of_eq heq)
    · cases hnew

theorem frame_shortened_behind_attach :
    ∃ s : Runner (fifoChannel mtu 1 1), ∃ es,
      (within _ ⟨1515⟩).Run
        (run (attach (fifoChannel mtu 1 1).new ⟨1515⟩ (.new ⟨#[2, 0, 0, 0, 0, 1], rfl⟩)) noError)
        es s ∧
      handed s.world.calls = [List.replicate 1515 0] ∧
      ¬commits s.world.calls <+: handed s.world.calls := by
  obtain ⟨es, s, hrun, hhanded, hcommits⟩ := exists_longest_frame
    (attach (fifoChannel mtu 1 1).new ⟨1515⟩ (.new ⟨#[2, 0, 0, 0, 0, 1], rfl⟩)) noError rfl
  refine ⟨s, es, hrun, hhanded, ?_⟩
  rw [hhanded, hcommits]
  intro hprefix
  have heq := hprefix.eq_of_length (by rw [List.length_singleton, List.length_singleton])
  have hlen := congrArg List.length (List.singleton_inj.mp heq)
  rw [fitted_eq_take, List.length_take, List.length_replicate] at hlen
  revert hlen
  decide

theorem frames_kept_whole_iff_behind_new :
    ∃ r : EthernetRunner (fifoChannel mtu 1 1),
      new _ ⟨mtu⟩ (.new ⟨#[2, 0, 0, 0, 0, 1], rfl⟩) = some r ∧
      ∀ es s, (within _ r.ethernet).Run (run r noError) es s →
        commits s.world.calls <+: handed s.world.calls :=
  ⟨_, rfl, (frames_kept_whole_iff rfl _ noError).2.2 ⟨mtu⟩
    (.new ⟨#[2, 0, 0, 0, 0, 1], rfl⟩) rfl⟩

end RpiHalEmbassy.Ethernet
