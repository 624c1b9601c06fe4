import BlockCalculus.Proofs.Lifecycle

/-!
# Stages

A controller outlives its runs. Any number of runs may be started under it, one after the other or
while another one is in progress, and all that is asked of it comes in between their turns. A
`Stage` is a controller with all the runs that were started under it, and a `Cue` is one thing that
happens there: someone asks for a control, starts a run, cancels one or edits its tree, or a run
gets a turn.

* `Stage.TakenUp`: at most one run is under way, and what the controller shows fits it.
* `Stage.orderly_cue`, `Stage.orderly_after`: this holds after one cue, and so after any number.
* `controller_lifecycle`: what can be seen of that from outside (`Stage.Regular`).
-/

namespace BlockCalculus

/-! ## Stages -/

/-- A controller and the runs that were started under it, in order, each with its tree. -/
structure Stage where
  controller : Controller
  runs : List (Run × Block) := []

/-- Something that happens on a stage. -/
inductive Cue where
  /-- Someone asks the controller for something. -/
  | ask (control : Control)
  /-- Someone starts a run on a block of a tree. It begins with its first turn. -/
  | start (root : Site) (tree : Block) (inputs : List Int) (speed : Option Speed)
  /-- A run gets a turn. -/
  | turn (index : Nat)
  /-- Someone edits the tree of a run. -/
  | edit (index : Nat) (tree : Block)
  /-- Someone cancels a run. -/
  | cancel (index : Nat)

/-- Whether a run has begun and is not over. -/
def Phase.isUnderway : Phase → Bool
  | .delayed _ | .parked _ | .waiting _ => true
  | .scheduled | .finished _ => false

namespace Stage

/-- The stage after something happened. -/
def cue (s : Stage) : Cue → Stage
  | .ask control => { s with controller := (s.controller.apply control).1 }
  | .start root tree inputs speed =>
    { s with runs := s.runs ++ [({ root, inputs, speed }, tree)] }
  | .turn index =>
    match s.runs[index]? with
    | some (run, tree) =>
      let t := s.controller.turn run tree
      ⟨t.controller, s.runs.set index (run.after t, t.scene.tree)⟩
    | none => s
  | .edit index tree =>
    { s with runs := s.runs.modify index fun e => (e.1.edited e.2 tree, tree) }
  | .cancel index => { s with runs := s.runs.modify index fun e => (e.1.cancel, e.2) }

/-- The stage after all that happened, in order. -/
def after (s : Stage) (cues : List Cue) : Stage :=
  cues.foldl cue s

/-- Where the runs are. -/
def phases (s : Stage) : List Phase :=
  s.runs.map fun e => e.1.phase

/-- What becomes of a stage when one of its runs gets a turn. -/
theorem cue_turn {s : Stage} {index : Nat} {run : Run} {tree : Block}
    (hget : s.runs[index]? = some (run, tree)) :
    s.cue (.turn index) =
      let t := s.controller.turn run tree
      ⟨t.controller, s.runs.set index (run.after t, t.scene.tree)⟩ := by
  simp only [cue, hget]

theorem phases_turn {s : Stage} {index : Nat} {run : Run} {tree : Block}
    (hget : s.runs[index]? = some (run, tree)) :
    (s.cue (.turn index)).phases = s.phases.set index (s.controller.turn run tree).phase := by
  rw [cue_turn hget]
  exact List.map_set

/-- The controller is taken up with one run, or with none: no other one is under way, and what the
controller shows fits that run. -/
structure TakenUp (s : Stage) (current : Option Nat) : Prop where
  only : ∀ i phase, s.phases[i]? = some phase → (phase.isUnderway = true ↔ current = some i)
  none_rests : current = none → s.controller.Rests
  some_holds : ∀ i, current = some i → ∃ phase, s.phases[i]? = some phase ∧
    phase.Holds s.controller

end Stage

theorem Phase.Holds.rests {phase : Phase} {c : Controller} (h : phase.Holds c)
    (hover : phase.isUnderway = false) : c.Rests := by
  cases phase with
  | scheduled | finished _ => exact h
  | _ => exact absurd hover Bool.noConfusion

theorem Phase.Holds.underway {phase : Phase} {c : Controller} (h : phase.Holds c)
    (hbegun : phase.isUnderway = true) : c.Underway := by
  cases phase with
  | scheduled | finished _ => exact absurd hbegun Bool.noConfusion
  | delayed _ | waiting _ => exact h.1
  | parked rest => exact Controller.Parked.underway h

/-- Where a controller rests, a run that has not begun or is over holds. -/
theorem Controller.Rests.holds {c : Controller} (h : c.Rests) {phase : Phase}
    (hover : phase.isUnderway = false) : phase.Holds c := by
  cases phase with
  | scheduled | finished _ => exact h
  | _ => exact absurd hover Bool.noConfusion

/-- **While a run is under way, the turn of another one changes nothing.** The other one is over by
then, if it was not before. -/
theorem Controller.turn_of_other {c : Controller} (hrun : c.isRunning = true) {run : Run}
    (hover : run.phase.isUnderway = false) (tree : Block) :
    (c.turn run tree).controller = c ∧ (c.turn run tree).scene = run.scene tree ∧
      (c.turn run tree).phase.isUnderway = false := by
  unfold turn
  dsimp only
  cases hphase : run.phase with
  | scheduled =>
    cases run.cancelling with
    | true => exact ⟨rfl, rfl, rfl⟩
    | false =>
      dsimp only
      rw [start_of_isRunning hrun]
      exact ⟨rfl, rfl, rfl⟩
  | finished ending => exact ⟨rfl, rfl, rfl⟩
  | _ =>
    rw [hphase] at hover
    exact absurd hover Bool.noConfusion

namespace Stage

variable {s : Stage} {current : Option Nat}

/-- What a stage is taken up with goes by its controller and by where its runs are. -/
theorem TakenUp.congr {s' : Stage} (h : s.TakenUp current) (hphases : s'.phases = s.phases)
    (hcontroller : s'.controller = s.controller) : s'.TakenUp current := by
  refine ⟨?_, ?_, ?_⟩
  · rw [hphases]
    exact h.only
  · rw [hcontroller]
    exact h.none_rests
  · rw [hphases, hcontroller]
    exact h.some_holds

theorem TakenUp.ask (h : s.TakenUp current) (hq : s.controller.Quiet) (control : Control) :
    (s.cue (.ask control)).TakenUp current := by
  have happly : (s.cue (.ask control)).controller = s.controller.applied control :=
    congrArg Prod.fst (Controller.apply_quiet hq control)
  refine ⟨h.only, fun hnone => ?_, fun i hi => ?_⟩
  · rw [happly]
    exact Controller.applied_rests (h.none_rests hnone) control
  · obtain ⟨phase, hphase, hholds⟩ := h.some_holds i hi
    rw [happly]
    exact ⟨phase, hphase, Controller.applied_holds hq hholds control⟩

theorem TakenUp.lt_length (h : s.TakenUp current) {i : Nat} (hi : current = some i) :
    i < s.phases.length := by
  obtain ⟨phase, hphase, -⟩ := h.some_holds i hi
  exact (List.getElem?_eq_some_iff.mp hphase).1

theorem TakenUp.start (h : s.TakenUp current) (root : Site) (tree : Block) (inputs : List Int)
    (speed : Option Speed) : (s.cue (.start root tree inputs speed)).TakenUp current := by
  have hphases : (s.cue (.start root tree inputs speed)).phases = s.phases ++ [.scheduled] := by
    simp [cue, phases]
  refine ⟨fun i phase hphase => ?_, h.none_rests, fun i hi => ?_⟩
  · rw [hphases] at hphase
    by_cases hlt : i < s.phases.length
    · rw [List.getElem?_append_left hlt] at hphase
      exact h.only i phase hphase
    · -- The new run is not under way, and the current one comes before it.
      rw [List.getElem?_append_right (Nat.le_of_not_lt hlt)] at hphase
      obtain rfl := List.mem_singleton.mp (List.mem_of_getElem? hphase)
      refine ⟨fun hbegun => absurd hbegun Bool.noConfusion, fun hi => ?_⟩
      exact absurd (h.lt_length hi) hlt
  · obtain ⟨phase, hphase, hholds⟩ := h.some_holds i hi
    refine ⟨phase, ?_, hholds⟩
    rw [hphases, List.getElem?_append_left (h.lt_length hi)]
    exact hphase

theorem phases_modify (index : Nat) {f : Run × Block → Run × Block}
    (hf : ∀ e, (f e).1.phase = e.1.phase) (runs : List (Run × Block)) :
    (runs.modify index f).map (fun e => e.1.phase) = runs.map fun e => e.1.phase := by
  apply List.ext_getElem?
  intro j
  rw [List.getElem?_map, List.getElem?_map, List.getElem?_modify]
  by_cases hij : index = j
  · simp [hij, hf, Function.comp_def]
  · simp [hij]

/-- The run that has the controller, or gets it, moves on. -/
theorem TakenUp.moved {s' : Stage} (h : s.TakenUp current) {index : Nat} {phase : Phase}
    (hcurrent : current = none ∨ current = some index) (hlt : index < s.phases.length)
    (hphases : s'.phases = s.phases.set index phase) (hholds : phase.Holds s'.controller) :
    s'.TakenUp (if phase.isUnderway then some index else none) := by
  have hself : s'.phases[index]? = some phase := by rw [hphases, List.getElem?_set_self hlt]
  refine ⟨fun j phase' hj => ?_, fun hnone => ?_, fun j hj => ?_⟩
  · by_cases hji : index = j
    · subst hji
      obtain rfl : phase = phase' := Option.some.inj (hself.symm.trans hj)
      cases phase.isUnderway <;> simp
    · rw [hphases, List.getElem?_set_ne hji] at hj
      have hother := h.only j phase' hj
      obtain rfl | rfl := hcurrent
      · cases phase.isUnderway <;> simp_all
      · cases phase.isUnderway <;> simp_all
  · cases hbegun : phase.isUnderway with
    | true => simp [hbegun] at hnone
    | false => exact hholds.rests hbegun
  · cases hbegun : phase.isUnderway with
    | true =>
      obtain rfl : index = j := by simpa [hbegun] using hj
      exact ⟨phase, hself, hholds⟩
    | false => simp [hbegun] at hj

/-- A run that does not have the controller is over, or was not begun. -/
theorem TakenUp.passed {s' : Stage} (h : s.TakenUp current) {index : Nat} {phase : Phase}
    (hcurrent : current ≠ some index) (hover : phase.isUnderway = false)
    (hphases : s'.phases = s.phases.set index phase)
    (hcontroller : s'.controller = s.controller) : s'.TakenUp current := by
  refine ⟨fun j phase' hj => ?_, ?_, fun j hj => ?_⟩
  · by_cases hji : index = j
    · subst hji
      rw [hphases, List.getElem?_set] at hj
      obtain ⟨-, rfl⟩ : _ ∧ phase = phase' := by simpa using hj
      simp [hover, hcurrent]
    · rw [hphases, List.getElem?_set_ne hji] at hj
      exact h.only j phase' hj
  · rw [hcontroller]
    exact h.none_rests
  · obtain ⟨phase', hget, hholds⟩ := h.some_holds j hj
    have hji : index ≠ j := by
      rintro rfl
      exact hcurrent hj
    rw [hphases, hcontroller, List.getElem?_set_ne hji]
    exact ⟨phase', hget, hholds⟩

/-- **A turn of any run keeps the controller taken up with one run at most.** -/
theorem TakenUp.turn (h : s.TakenUp current) (hq : s.controller.Quiet) (index : Nat) :
    s.controller.Leads (s.cue (.turn index)).controller ∧
      ∃ current', (s.cue (.turn index)).TakenUp current' := by
  cases hget : s.runs[index]? with
  | none =>
    have hcue : s.cue (.turn index) = s := by simp [cue, hget]
    rw [hcue]
    exact ⟨.of_eq rfl rfl rfl, current, h⟩
  | some e =>
    obtain ⟨run, tree⟩ := e
    have hcontroller : (s.cue (.turn index)).controller =
        (s.controller.turn run tree).controller := congrArg controller (cue_turn hget)
    have hphases := phases_turn hget
    have hphase : s.phases[index]? = some run.phase := by simp [phases, hget]
    have hlt := (List.getElem?_eq_some_iff.mp hphase).1
    -- Either the run has the controller, or nobody has it, or another run has it.
    by_cases hcurrent : current = none ∨ current = some index
    · have hholds : run.phase.Holds s.controller := by
        obtain hnone | hself := hcurrent
        · refine (h.none_rests hnone).holds ?_
          have hnot := (not_congr (h.only index _ hphase)).mpr (by simp [hnone])
          simpa using hnot
        · obtain ⟨phase, hget', hholds⟩ := h.some_holds index hself
          rwa [Option.some.inj (hphase.symm.trans hget')]
      obtain ⟨hleads, hholds'⟩ := Controller.turn_orderly hq hholds tree
      rw [← hcontroller] at hleads hholds'
      exact ⟨hleads, _, h.moved hcurrent hlt hphases hholds'⟩
    · obtain ⟨hne, hself⟩ := not_or.mp hcurrent
      obtain ⟨i, hi⟩ := Option.ne_none_iff_exists'.mp hne
      have hbusy : s.controller.isRunning = true := by
        obtain ⟨phase, hget', hholds⟩ := h.some_holds i hi
        exact (hholds.underway ((h.only i _ hget').mpr hi)).1
      have hover : run.phase.isUnderway = false := by
        have hnot := (not_congr (h.only index _ hphase)).mpr hself
        simpa using hnot
      obtain ⟨hsame, -, hdone⟩ := Controller.turn_of_other hbusy hover tree
      rw [hsame] at hcontroller
      refine ⟨?_, current, h.passed hself hdone hphases hcontroller⟩
      rw [hcontroller]
      exact .of_eq rfl rfl rfl

/-! ## Any number of cues -/

/-- The controller came from another one by states in order, and is taken up with one run at
most. -/
def Orderly (c₀ : Controller) (s : Stage) : Prop :=
  c₀.Leads s.controller ∧ ∃ current, s.TakenUp current

theorem Orderly.quiet {c₀ : Controller} (h : s.Orderly c₀) (hq : c₀.Quiet) :
    s.controller.Quiet := by
  unfold Controller.Quiet
  rw [h.1.1]
  exact hq

/-- **Whatever happens on a stage keeps it orderly.** -/
theorem orderly_cue {c₀ : Controller} (hq : c₀.Quiet) (h : s.Orderly c₀) (cue : Cue) :
    (s.cue cue).Orderly c₀ := by
  have hquiet := h.quiet hq
  obtain ⟨hleads, current, htaken⟩ := h
  cases cue with
  | ask control =>
    refine ⟨hleads.trans ?_, current, htaken.ask hquiet control⟩
    have happly : (s.cue (.ask control)).controller = s.controller.applied control :=
      congrArg Prod.fst (Controller.apply_quiet hquiet control)
    rw [happly]
    exact Controller.leads_applied control s.controller
  | start root tree inputs speed => exact ⟨hleads, current, htaken.start root tree inputs speed⟩
  | turn index =>
    obtain ⟨hturn, htaken'⟩ := htaken.turn hquiet index
    exact ⟨hleads.trans hturn, htaken'⟩
  | edit index tree =>
    refine ⟨hleads, current, htaken.congr ?_ rfl⟩
    exact phases_modify index (fun e => (Run.phase_edited e.2 tree e.1).1) s.runs
  | cancel index =>
    refine ⟨hleads, current, htaken.congr ?_ rfl⟩
    exact phases_modify index (fun e => Run.phase_cancel e.1) s.runs

theorem orderly_after {c₀ : Controller} (hq : c₀.Quiet) (h : s.Orderly c₀) (cues : List Cue) :
    (s.after cues).Orderly c₀ := by
  induction cues generalizing s with
  | nil => exact h
  | cons cue rest ih => exact ih (orderly_cue hq h cue)

end Stage

/-! ## What can be seen from outside -/

/-- What can be seen of a controller between the turns of its runs, if it began with some settings
and with no run. -/
structure Stage.Regular (settings : Settings) (s : Stage) : Prop where
  /-- The states that observers were told of begin after `idle`, follow each other as they may, and
  lead to the state now. -/
  states : ∃ states : List RunState,
    s.controller.statesTold = settings.heard (states.map .state) ∧
      RunState.Path .idle states s.controller.state
  /-- A run is in progress exactly if one has begun and is not over, and there is at most one. -/
  inProgress : s.controller.isRunning = true ↔ ∃ phase ∈ s.phases, phase.isUnderway = true
  one : ∀ (i j : Nat) (p q : Phase), s.phases[i]? = some p → s.phases[j]? = some q →
    p.isUnderway = true → q.isUnderway = true → i = j
  result : s.controller.result.isSome = true ↔ s.controller.state = .completed
  error : s.controller.error.isSome = true → s.controller.state = .errored
  highlight : s.controller.isRunning = false → s.controller.highlight = none
  /-- In a pause the block of the last step is highlighted. -/
  paused : s.controller.state = .paused → s.controller.Highlights
  /-- A run that is to begin while another one is in progress fails, and nothing else changes. -/
  refused : s.controller.isRunning = true → ∀ i run tree, s.runs[i]? = some (run, tree) →
    run.phase = .scheduled → run.cancelling = false →
      s.cue (.turn i) =
        { s with runs := s.runs.set i ({ run with phase := .finished (.failed .alreadyRunning) },
                                       tree) }
  /-- A run that is parked and not released is paused and was not asked to halt. To resume releases
  it, so it goes on at its next turn unless it is to be cancelled. -/
  parked : s.controller.released = false → ∀ i run tree rest, s.runs[i]? = some (run, tree) →
    run.phase = .parked rest →
      s.controller.state = .paused ∧ s.controller.halting = false ∧
        (s.cue (.ask .resume)).controller.released = true ∧
        (run.cancelling = false →
          (s.after [.ask .resume, .turn i]).phases[i]? = some (.delayed rest))

namespace Stage

variable {s : Stage} {current : Option Nat}

/-- A controller is taken up with a run exactly if one is in progress. -/
theorem TakenUp.isRunning_iff (h : s.TakenUp current) :
    s.controller.isRunning = true ↔ ∃ i, current = some i := by
  cases hcurrent : current with
  | none =>
    rw [(h.none_rests hcurrent).idle]
    simp
  | some i =>
    obtain ⟨phase, hphase, hholds⟩ := h.some_holds i hcurrent
    rw [(hholds.underway ((h.only i phase hphase).mpr hcurrent)).1]
    simp

/-- What is shown of a run goes by the state. -/
theorem TakenUp.shown (h : s.TakenUp current) :
    (s.controller.result.isSome = true ↔ s.controller.state = .completed) ∧
      (s.controller.error.isSome = true → s.controller.state = .errored) ∧
      (s.controller.isRunning = false → s.controller.highlight = none) := by
  cases hcurrent : current with
  | none =>
    have hrests := h.none_rests hcurrent
    exact ⟨hrests.result, hrests.error, fun _ => hrests.highlight⟩
  | some i =>
    obtain ⟨phase, hphase, hholds⟩ := h.some_holds i hcurrent
    have hunder := hholds.underway ((h.only i phase hphase).mpr hcurrent)
    obtain ⟨hrun, hresult, herror⟩ := hunder
    rw [hresult, herror, hrun]
    refine ⟨⟨fun hsome => absurd hsome Bool.noConfusion, fun hstate => ?_⟩,
      fun hsome => absurd hsome Bool.noConfusion, fun hidle => absurd hidle Bool.noConfusion⟩
    rw [Controller.isRunning, hstate] at hrun
    exact absurd hrun (by decide)

/-- A pause is the pause of a parked run. -/
theorem TakenUp.highlights (h : s.TakenUp current) (hpaused : s.controller.state = .paused) :
    s.controller.Highlights := by
  have hrun : s.controller.isRunning = true := by
    rw [Controller.isRunning, hpaused]
    rfl
  obtain ⟨i, hi⟩ := h.isRunning_iff.mp hrun
  obtain ⟨phase, hphase, hholds⟩ := h.some_holds i hi
  have hbegun := (h.only i phase hphase).mpr hi
  cases phase with
  | scheduled | finished _ => exact absurd hbegun Bool.noConfusion
  | delayed _ | waiting _ => exact absurd (hpaused.symm.trans hholds.2) (by decide)
  | parked rest => exact Controller.Parked.highlights hholds

theorem TakenUp.parked (h : s.TakenUp current) {i : Nat} {rest : Unit → Walk Int}
    (hphase : s.phases[i]? = some (.parked rest)) : s.controller.Parked := by
  have hi : current = some i := (h.only i _ hphase).mp rfl
  obtain ⟨phase, hphase', hholds⟩ := h.some_holds i hi
  obtain rfl : phase = .parked rest := Option.some.inj (hphase'.symm.trans hphase)
  exact hholds

/-- **Resuming releases a parked run**, and the run goes on with the delay of its step. -/
theorem TakenUp.resumed (h : s.TakenUp current) (hq : s.controller.Quiet)
    (hheld : s.controller.released = false) {i : Nat} {run : Run} {tree : Block}
    {rest : Unit → Walk Int} (hget : s.runs[i]? = some (run, tree))
    (hphase : run.phase = .parked rest) :
    s.controller.state = .paused ∧ s.controller.halting = false ∧
      (s.cue (.ask .resume)).controller.released = true ∧
      (run.cancelling = false →
        (s.after [.ask .resume, .turn i]).phases[i]? = some (.delayed rest)) := by
  have hphases : s.phases[i]? = some (.parked rest) := by simp [phases, hget, hphase]
  obtain ⟨hstate, hhalting⟩ := (h.parked hphases).held hheld
  have happly : (s.cue (.ask .resume)).controller =
      { (s.controller.become .running).announce (.state .running) with released := true } := by
    refine (congrArg Prod.fst (Controller.apply_quiet hq .resume)).trans ?_
    exact if_pos ⟨hstate, .inl rfl⟩
  refine ⟨hstate, hhalting, by rw [happly], fun hcancel => ?_⟩
  have hturn : ((s.cue (.ask .resume)).controller.turn run tree).phase = .delayed rest := by
    rw [happly]
    unfold Controller.turn Controller.leavePause
    rw [hphase, hcancel]
    dsimp only
    rw [if_pos rfl, if_neg (by exact Bool.eq_false_iff.mp hhalting)]
    rfl
  have hlt := (List.getElem?_eq_some_iff.mp hphases).1
  refine (congrArg (·[i]?) (phases_turn (s := s.cue (.ask .resume)) hget)).trans ?_
  rw [hturn]
  exact List.getElem?_set_self hlt

end Stage

/-- **The life of a controller.** Under quiet observers, and whatever happens between the turns of
its runs, a controller is regular: runs that are started at any time, controls in any order, runs
that are cancelled and trees that are edited. -/
theorem controller_lifecycle {settings : Settings} (hq : ({ settings } : Controller).Quiet)
    (cues : List Cue) : (Stage.after ⟨{ settings }, []⟩ cues).Regular settings := by
  have hstart : Stage.Orderly { settings } ⟨{ settings }, []⟩ := by
    refine ⟨.of_eq rfl rfl rfl, none, ?_, ?_, ?_⟩
    · exact fun i phase hphase => absurd hphase (by simp [Stage.phases])
    · exact fun _ => ⟨rfl, rfl, by simp, fun herror => absurd herror Bool.noConfusion⟩
    · exact fun i hi => absurd hi (by simp)
  have horderly := Stage.orderly_after hq hstart cues
  have hquiet := horderly.quiet hq
  generalize Stage.after ⟨{ settings }, []⟩ cues = s at horderly hquiet
  obtain ⟨⟨-, states, htold, hpath⟩, current, htaken⟩ := horderly
  obtain ⟨hresult, herror, hlight⟩ := htaken.shown
  refine ⟨⟨states, htold, hpath⟩, ?_, fun i j p q hi hj hp hq => ?_, hresult, herror, hlight,
    htaken.highlights, fun hrun i run tree hget hphase hcancel => ?_,
    fun hheld i run tree rest hget hphase => htaken.resumed hquiet hheld hget hphase⟩
  · rw [htaken.isRunning_iff]
    constructor
    · rintro ⟨i, hi⟩
      obtain ⟨phase, hphase, -⟩ := htaken.some_holds i hi
      exact ⟨phase, List.mem_of_getElem? hphase, (htaken.only i phase hphase).mpr hi⟩
    · rintro ⟨phase, hmem, hbegun⟩
      obtain ⟨i, hi⟩ := List.mem_iff_getElem?.mp hmem
      exact ⟨i, (htaken.only i phase hi).mp hbegun⟩
  · have hsame := ((htaken.only i p hi).mp hp).symm.trans ((htaken.only j q hj).mp hq)
    exact Option.some.inj hsame
  · have hturn : s.controller.turn run tree =
        ⟨.finished (.failed .alreadyRunning), s.controller, run.scene tree⟩ := by
      rw [Controller.turn, hphase, hcancel]
      exact Controller.start_of_isRunning hrun run tree
    rw [Stage.cue_turn hget, hturn]
    rfl

/-- Two runs are started. The first pauses after its first step, as asked, and while it is paused
the second is refused. -/
theorem controller_lifecycle_plus :
    let settings : Settings := { observers := [{ label := "watch" }] }
    let cues : List Cue :=
      [.ask .singleStep, .start ⟨[], .plus⟩ .plus [2, 1] none, .start ⟨[], .plus⟩ .plus [0, 0] none,
        .turn 0, .turn 1]
    let s := Stage.after ⟨{ settings }, []⟩ cues
    ({ settings } : Controller).Quiet ∧ s.Regular settings ∧ s.controller.state = .paused ∧
      s.controller.highlight = some "first" ∧ s.controller.released = false := by
  intro settings cues s
  have hquiet : ({ settings } : Controller).Quiet := by
    intro o ho past n
    rw [List.mem_singleton.mp ho]
  exact ⟨hquiet, controller_lifecycle hquiet cues, by decide +kernel, by decide +kernel,
    by decide +kernel⟩

end BlockCalculus
