import BlockCalculus.Proofs.Session

/-!
# Controlled runs follow the evaluation

Whatever is asked of a controller while a run is under way, the run computes what it would have
computed on its own. What is asked for decides where the run pauses, how long it is delayed and
whether it gets to its end, and nothing else.

The argument is a simulation. `Reported` ties the controller and the tree to the steps taken so far:
the observers were told of these steps, in order and by number, and the tree bears the notes that
these steps leave. `Goes` ties the rest of the walk to the walk as a whole. `Session.Tracks` says
both of a session, for each phase of its run; it holds in the beginning, and every act preserves it
(`tracks_ask`, `tracks_turn`), so it holds after every interleaving (`tracks_after`).

`controlled_run_follows_evaluation` reads the result off.
-/

namespace BlockCalculus

/-! ## What observers hear of steps -/

/-- What an entry of the log says that an observer was told of a step. -/
def LogEntry.toldStep? : LogEntry → Option (String × Notice)
  | .told observer (.step index block result) => some (observer, .step index block result)
  | _ => none

/-- What observers were told of steps, in order, by the labels of the observers. -/
def Controller.stepsTold (c : Controller) : List (String × Notice) :=
  c.log.toList.filterMap LogEntry.toldStep?

/-- What is heard if all observers are told some things, one after the other. -/
def Settings.heard (settings : Settings) (notices : List Notice) : List (String × Notice) :=
  notices.flatMap fun n => settings.observers.map fun o => (o.label, n)

/-- What there is to tell of steps taken on a tree, from number `index` on: each block as it is once
the step is noted, and the value it got. -/
def Step.notices (on : Bool) : (index : Nat) → List Step → Block → List Notice
  | _, [], _ => []
  | index, s :: rest, t =>
    let t' := Walk.trace on s t
    .step index ((t'.at? s.position).getD s.block) s.result :: notices on (index + 1) rest t'

namespace Step

@[simp] theorem length_notices (on : Bool) (index : Nat) (steps : List Step) (t : Block) :
    (notices on index steps t).length = steps.length := by
  induction steps generalizing index t with
  | nil => rfl
  | cons s rest ih => simp [notices, ih]

theorem notices_append (on : Bool) (index : Nat) (steps more : List Step) (t : Block) :
    notices on index (steps ++ more) t =
      notices on index steps t ++
        notices on (index + steps.length) more (Walk.traced on steps t) := by
  induction steps generalizing index t with
  | nil => rfl
  | cons s rest ih =>
    simp only [List.cons_append, notices, ih, List.length_cons, Walk.traced, List.foldl_cons]
    rw [show index + 1 + rest.length = index + (rest.length + 1) by omega]

/-- What there is to tell of the first steps is the first of what there is to tell. -/
theorem take_notices (on : Bool) (index : Nat) (steps more : List Step) (t : Block) :
    (notices on index (steps ++ more) t).take steps.length = notices on index steps t := by
  rw [notices_append, List.take_left' (length_notices on index steps t)]

end Step

theorem Settings.heard_append (settings : Settings) (ns ms : List Notice) :
    settings.heard (ns ++ ms) = settings.heard ns ++ settings.heard ms :=
  List.flatMap_append

theorem Walk.traced_concat (on : Bool) (steps : List Step) (s : Step) (t : Block) :
    traced on (steps ++ [s]) t = trace on s (traced on steps t) := by
  simp [traced]

namespace Controller

theorem stepsTold_announce_step (index : Nat) (b : Block) (result : Int) (c : Controller) :
    (c.announce (.step index b result)).stepsTold =
      c.stepsTold ++ c.settings.heard [.step index b result] := by
  simp only [stepsTold, announce, Array.toList_append, List.filterMap_append, List.filterMap_map,
    Settings.heard, List.flatMap_cons, List.flatMap_nil, List.append_nil]
  congr 1
  induction c.settings.observers with
  | nil => rfl
  | cons o rest ih => simp [LogEntry.toldStep?, ih]

theorem stepsTold_announce_other {n : Notice}
    (hn : ∀ label, LogEntry.toldStep? (.told label n) = none) (c : Controller) :
    (c.announce n).stepsTold = c.stepsTold := by
  have hnil : c.settings.observers.filterMap
      (LogEntry.toldStep? ∘ fun o => LogEntry.told o.label n) = [] :=
    List.filterMap_eq_nil_iff.mpr fun o _ => hn o.label
  simp only [stepsTold, announce, Array.toList_append, List.filterMap_append, List.filterMap_map]
  rw [hnil, List.append_nil]

/-- Two controllers agree on what there is to report: how many steps there were and what was told of
them, by which settings, and whether the run is to stop. -/
structure Agree (c c' : Controller) : Prop where
  settings : c'.settings = c.settings
  steps : c'.steps = c.steps
  told : c'.stepsTold = c.stepsTold
  halting : c'.halting = c.halting

theorem Agree.trans {c₁ c₂ c₃ : Controller} (h : Agree c₁ c₂) (h' : Agree c₂ c₃) : Agree c₁ c₃ :=
  ⟨h'.settings.trans h.settings, h'.steps.trans h.steps, h'.told.trans h.told,
    h'.halting.trans h.halting⟩

theorem agree_write {e : LogEntry} (he : e.toldStep? = none) (c : Controller) :
    Agree c (c.write e) := by
  refine ⟨rfl, rfl, ?_, rfl⟩
  simp [stepsTold, write, he]

theorem agree_announce {n : Notice} (hn : ∀ label, LogEntry.toldStep? (.told label n) = none)
    (c : Controller) : Agree c (c.announce n) :=
  ⟨rfl, rfl, stepsTold_announce_other hn c, rfl⟩

theorem agree_become (state : RunState) (c : Controller) : Agree c (c.become state) := by
  have h := agree_write (e := .note ("Run state " ++ c.state.name ++ " -> " ++ state.name)) rfl c
  exact ⟨rfl, rfl, h.told, rfl⟩

/-- Taking on a state leaves alone what there is to report. -/
theorem agree_entered (state : RunState) (c : Controller) : Agree c (c.entered state) := by
  unfold entered
  split
  · exact ⟨rfl, rfl, rfl, rfl⟩
  · exact (agree_become state c).trans (agree_announce (fun _ => rfl) _)

theorem agree_parkedAt (b : Block) (c : Controller) : Agree c (c.parkedAt b) := by
  have hclear : ∀ c : Controller, Agree c { c with pauseNext := false, released := false } :=
    fun _ => ⟨rfl, rfl, rfl, rfl⟩
  unfold parkedAt
  dsimp only
  split
  · exact ((agree_write rfl c).trans (hclear _)).trans (agree_entered _ _)
  · exact (hclear c).trans (agree_entered _ _)

/-- Marking a control down leaves alone what was reported. -/
theorem mark_report (control : Control) (c : Controller) :
    (c.mark control).steps = c.steps ∧ (c.mark control).stepsTold = c.stepsTold ∧
      ((c.mark control).halting = true → c.halting = true ∨ control = .halt) := by
  obtain ⟨_, _, _, _, heq⟩ | ⟨hhalt, -, heq⟩ := mark_cases control c
  · rw [heq]
    exact ⟨rfl, rfl, .inl⟩
  · rw [heq]
    exact ⟨rfl, (agree_write (e := .note "Halt requested") rfl c).told, fun _ => .inr hhalt⟩

/-- Asking for a control leaves alone what was reported; only halting asks the run to stop. -/
theorem applied_report (control : Control) (c : Controller) :
    (c.applied control).settings = c.settings ∧ (c.applied control).steps = c.steps ∧
      (c.applied control).stepsTold = c.stepsTold ∧
      ((c.applied control).halting = true → c.halting = true ∨ control = .halt) := by
  obtain ⟨hsteps, htold, hhalting⟩ := mark_report control c
  unfold applied
  split
  · have h : Agree (c.mark control) (((c.mark control).become .running).announce
        (.state .running)) := (agree_become _ _).trans (agree_announce (fun _ => rfl) _)
    refine ⟨h.settings.trans (mark_settings control c), h.steps.trans hsteps,
      h.told.trans htold, fun hh => hhalting ?_⟩
    rw [← h.halting]
    exact hh
  · exact ⟨mark_settings control c, hsteps, htold, hhalting⟩

end Controller

/-! ## The simulation -/

/-- The controller and the tree are as they are once some steps were taken and reported. -/
structure Reported (c₀ : Controller) (tree : Block) (taken : List Step) (c : Controller)
    (t : Block) : Prop where
  settings : c.settings = c₀.settings
  noted : t = Walk.traced c₀.settings.options.trace taken tree
  steps : c.steps = taken.length
  told : c.stepsTold = c₀.stepsTold ++
    c₀.settings.heard (Step.notices c₀.settings.options.trace 1 taken tree)

/-- The rest is what is left of the walk that evaluates the tree once some steps were taken. -/
structure Goes (c₀ : Controller) (tree : Block) (inputs : List Int) (taken : List Step)
    (rest : Walk Int) : Prop where
  steps : (tree.walk c₀.settings.options inputs).steps c₀.settings.catalog =
    taken ++ rest.steps c₀.settings.catalog
  ending : (tree.walk c₀.settings.options inputs).ending c₀.settings.catalog =
    rest.ending c₀.settings.catalog
  along : rest.Along c₀.settings.catalog tree.clearTrace

/-- How a run may have ended that took some steps: with the value or the error of the evaluation
after all of its steps, or early, if it was asked to. -/
def RunEnding.Tracks (c₀ : Controller) (tree : Block) (inputs : List Int) (asked : Prop)
    (taken : List Step) : RunEnding → Prop
  | .value n =>
    taken = (tree.walk c₀.settings.options inputs).steps c₀.settings.catalog ∧
      (tree.walk c₀.settings.options inputs).ending c₀.settings.catalog = .ok n
  | .failed f =>
    taken = (tree.walk c₀.settings.options inputs).steps c₀.settings.catalog ∧
      ∃ e : Failure, f = e.fault ∧
        (tree.walk c₀.settings.options inputs).ending c₀.settings.catalog = .error e
  | .halted =>
    asked ∧ ∃ more, (tree.walk c₀.settings.options inputs).steps c₀.settings.catalog = taken ++ more
  | .cancelled => False

/-- The phase fits the controller and the tree. -/
def Phase.Tracks (c₀ : Controller) (tree : Block) (inputs : List Int) (asked : Prop)
    (c : Controller) (t : Block) : Phase → Prop
  | .scheduled =>
    t = tree ∧ c.settings = c₀.settings ∧ c.isRunning = false ∧ c.stepsTold = c₀.stepsTold
  | .delayed rest | .parked rest =>
    (c.halting = true → asked) ∧
      ∃ taken, Reported c₀ tree taken c t ∧ Goes c₀ tree inputs taken (rest ())
  | .waiting _ => False
  | .finished ending =>
    ∃ taken, Reported c₀ tree taken c t ∧ ending.Tracks c₀ tree inputs asked taken

/-- The session follows the evaluation. -/
structure Session.Tracks (c₀ : Controller) (tree : Block) (inputs : List Int) (asked : Prop)
    (s : Session) : Prop where
  root : s.run.root = ⟨[], tree⟩
  given : s.run.inputs = inputs
  detached : s.run.detached = []
  cancelling : s.run.cancelling = false
  phase : s.run.phase.Tracks c₀ tree inputs asked s.controller s.tree

section Tracks

variable {c₀ c c' : Controller} {tree t : Block} {inputs : List Int} {asked asked' : Prop}
  {taken : List Step} {w : Walk Int}

theorem Reported.congr (h : Reported c₀ tree taken c t) (hc : Controller.Agree c c') :
    Reported c₀ tree taken c' t :=
  ⟨hc.settings.trans h.settings, h.noted, hc.steps.trans h.steps, hc.told.trans h.told⟩

theorem Reported.quiet (h : Reported c₀ tree taken c t) (hq : c₀.Quiet) : c.Quiet := by
  unfold Controller.Quiet
  rw [h.settings]
  exact hq

/-- One more step is reported. -/
theorem Reported.reported {s : Step} (h : Reported c₀ tree taken c t)
    (hs : tree.clearTrace.at? s.position = some s.block) (scene : Scene)
    (hscene : scene.tree = Walk.trace c₀.settings.options.trace s t) :
    Reported c₀ tree (taken ++ [s]) (c.reported (scene.now s.toSite) s.result) scene.tree := by
  have hclear : scene.tree.clearTrace = tree.clearTrace := by
    rw [hscene, Walk.clearTrace_trace, h.noted, Walk.clearTrace_traced]
  have hnow : scene.tree.at? s.position = some (scene.now s.toSite) :=
    Scene.now_of_at? (by rw [hclear]; exact hs)
  refine ⟨h.settings, ?_, ?_, ?_⟩
  · rw [hscene, h.noted, Walk.traced_concat]
  · show c.steps + 1 = (taken ++ [s]).length
    rw [h.steps, List.length_append, List.length_singleton]
  · -- The number is one more than the steps before, and the block is the one of the noted tree.
    have hnotice : Step.notices c₀.settings.options.trace (1 + taken.length) [s]
        (Walk.traced c₀.settings.options.trace taken tree) =
          [.step (c.steps + 1) (scene.now s.toSite) s.result] := by
      rw [← h.noted, h.steps, Nat.add_comm]
      simp only [Step.notices]
      rw [← hscene, hnow, Option.getD_some]
    have htold : (c.reported (scene.now s.toSite) s.result).stepsTold =
        c.stepsTold ++ c.settings.heard [.step (c.steps + 1) (scene.now s.toSite) s.result] :=
      Controller.stepsTold_announce_step _ _ _ _
    rw [htold, h.told, h.settings, Step.notices_append, Settings.heard_append, hnotice,
      List.append_assoc]

/-- A run that is asked to stop has taken some of the steps. -/
theorem closeHalted_tracks (hq : c₀.Quiet) (h : Reported c₀ tree taken c t) (hasked : asked)
    {more : List Step}
    (hmore : (tree.walk c₀.settings.options inputs).steps c₀.settings.catalog = taken ++ more)
    (scene : Scene) (hscene : scene.tree = t) :
    (c.closeHalted scene).scene = scene ∧
      (c.closeHalted scene).phase.Tracks c₀ tree inputs asked (c.closeHalted scene).controller
        scene.tree := by
  rw [Controller.closeHalted_quiet (h.quiet hq)]
  refine ⟨rfl, taken, ?_, hasked, more, hmore⟩
  rw [hscene]
  have hend := (Controller.agree_write
    (e := .note ("Run halted after " ++ toString c.steps ++ " steps")) rfl c).trans
      (Controller.agree_entered .halted _)
  exact h.congr ⟨hend.settings, hend.steps, hend.told, hend.halting⟩

/-- **Walking on follows the evaluation.** -/
theorem advance_tracks (hq : c₀.Quiet) (h : Reported c₀ tree taken c t)
    (hg : Goes c₀ tree inputs taken w) (hrun : c.halting = false) :
    (Controller.advance w ⟨t, []⟩ c).scene.detached = [] ∧
      (Controller.advance w ⟨t, []⟩ c).phase.Tracks c₀ tree inputs asked
        (Controller.advance w ⟨t, []⟩ c).controller
        (Controller.advance w ⟨t, []⟩ c).scene.tree := by
  have hclear : t.clearTrace = tree.clearTrace := by rw [h.noted, Walk.clearTrace_traced]
  have halong : w.Along c.settings.catalog (⟨t, []⟩ : Scene).tree.clearTrace := by
    rw [h.settings, hclear]
    exact hg.along
  obtain ⟨n, hsteps, hend, heq⟩ | ⟨e, hsteps, hend, heq⟩ |
      ⟨s, rest, hsteps, hend, hs, hrest, heq⟩ := Controller.advance_cases halong
  · -- The value: all steps were taken.
    rw [h.settings] at hsteps hend
    rw [heq, Controller.closeCompleted_quiet (h.quiet hq)]
    refine ⟨rfl, taken, ?_, ?_, hg.ending.trans hend⟩
    · have hclose := (Controller.agree_entered .completed { c.settle with result := some n }).trans
        (Controller.agree_announce (n := .complete n) (fun _ => rfl) _)
      exact h.congr ⟨hclose.settings, hclose.steps, hclose.told, hclose.halting⟩
    · rw [hg.steps, hsteps, List.append_nil]
  · -- The error: all steps were taken.
    rw [h.settings] at hsteps hend
    rw [heq, Controller.closeRaised_quiet (h.quiet hq)]
    refine ⟨rfl, taken, ?_, ?_, e, rfl, hg.ending.trans hend⟩
    · have hclose := Controller.agree_entered .errored
        { c with error := e.fault.error?.or c.error }
      exact h.congr ⟨hclose.settings, hclose.steps, hclose.told, hclose.halting⟩
    · rw [hg.steps, hsteps, List.append_nil]
  · -- A step: it is reported, and the run goes on from there.
    have hs' : tree.clearTrace.at? s.position = some s.block := by rwa [← hclear]
    rw [h.settings] at hsteps hend hrest
    rw [heq, Scene.trace_of_at? _ hs, h.settings, Controller.report_quiet (h.quiet hq) hrun]
    have hreport := h.reported hs' ⟨Walk.trace c₀.settings.options.trace s t, []⟩ rfl
    have hgoes : Goes c₀ tree inputs (taken ++ [s]) (rest ()) := by
      refine ⟨?_, hg.ending.trans hend, hclear ▸ hrest⟩
      rw [hg.steps, hsteps, List.append_assoc]
      rfl
    dsimp only
    split
    · refine ⟨rfl, fun hh => ?_, taken ++ [s], hreport.congr (Controller.agree_parkedAt _ _), hgoes⟩
      have hhalting := (Controller.agree_parkedAt _ _).halting.symm.trans hh
      exact absurd (hrun.symm.trans hhalting) (by simp)
    · refine ⟨rfl, fun hh => ?_, taken ++ [s], hreport.congr (Controller.agree_write rfl _), hgoes⟩
      exact absurd (hrun.symm.trans hh) (by simp)

/-! ### Acts -/

theorem RunEnding.Tracks.mono (hasked : asked → asked') {ending : RunEnding}
    (h : ending.Tracks c₀ tree inputs asked taken) :
    ending.Tracks c₀ tree inputs asked' taken := by
  cases ending with
  | value n => exact h
  | failed f => exact h
  | halted => exact ⟨hasked h.1, h.2⟩
  | cancelled => exact h

theorem Phase.Tracks.settings {phase : Phase} (h : phase.Tracks c₀ tree inputs asked c t) :
    c.settings = c₀.settings := by
  cases phase with
  | scheduled => exact h.2.1
  | delayed rest =>
    obtain ⟨-, _, hr, -⟩ := h
    exact hr.settings
  | parked rest =>
    obtain ⟨-, _, hr, -⟩ := h
    exact hr.settings
  | waiting rest => exact h.elim
  | finished ending =>
    obtain ⟨_, hr, -⟩ := h
    exact hr.settings

theorem Reported.applied (control : Control) (h : Reported c₀ tree taken c t) :
    Reported c₀ tree taken (c.applied control) t := by
  obtain ⟨hsettings, hsteps, htold, -⟩ := Controller.applied_report control c
  exact ⟨hsettings.trans h.settings, h.noted, hsteps.trans h.steps, htold.trans h.told⟩

/-- Asking for a control leaves the run where it is. -/
theorem Phase.Tracks.applied (control : Control) {phase : Phase}
    (h : phase.Tracks c₀ tree inputs asked c t) :
    phase.Tracks c₀ tree inputs (asked ∨ control = .halt) (c.applied control) t := by
  obtain ⟨hsettings, -, htold, hhalting⟩ := Controller.applied_report control c
  have hlive : ∀ {rest : Walk Int}, (c.halting = true → asked) →
      (∃ taken, Reported c₀ tree taken c t ∧ Goes c₀ tree inputs taken rest) →
      ((c.applied control).halting = true → asked ∨ control = .halt) ∧
        ∃ taken, Reported c₀ tree taken (c.applied control) t ∧ Goes c₀ tree inputs taken rest := by
    rintro rest hasked ⟨taken, hr, hg⟩
    exact ⟨fun hh => (hhalting hh).imp_left hasked, taken, hr.applied control, hg⟩
  cases phase with
  | scheduled =>
    obtain ⟨htree, hs, hidle, hold⟩ := h
    refine ⟨htree, hsettings.trans hs, ?_, htold.trans hold⟩
    -- Before the run begins there is no pause to end, so the state stays what it is.
    have hpaused : c.state ≠ .paused := by
      intro hp
      simp [Controller.isRunning, hp] at hidle
    rw [Controller.applied, if_neg (fun hp => hpaused hp.1), Controller.isRunning,
      Controller.mark_state]
    exact hidle
  | delayed rest => exact hlive h.1 h.2
  | parked rest => exact hlive h.1 h.2
  | waiting rest => exact h.elim
  | finished ending =>
    obtain ⟨taken, hr, he⟩ := h
    exact ⟨taken, hr.applied control, he.mono .inl⟩

theorem tracks_ask (hq : c₀.Quiet) {s : Session} (h : s.Tracks c₀ tree inputs asked)
    (control : Control) :
    (s.act (.ask control)).Tracks c₀ tree inputs (asked ∨ control = .halt) := by
  have hquiet : s.controller.Quiet := by
    unfold Controller.Quiet
    rw [h.phase.settings]
    exact hq
  refine ⟨h.root, h.given, h.detached, h.cancelling, ?_⟩
  have heq : (s.act (.ask control)).controller = s.controller.applied control :=
    congrArg Prod.fst (Controller.apply_quiet hquiet control)
  rw [heq]
  exact h.phase.applied control

/-- A run that begins has taken no step and reported none. -/
theorem reported_prepared (hs : c.settings = c₀.settings) (hold : c.stepsTold = c₀.stepsTold)
    (speed : Option Speed) (root : Block) :
    Reported c₀ root [] (c.prepared speed root) root ∧
      (c.prepared speed root).halting = false := by
  have h := Controller.agree_entered .running
    { c with
      speed := speed.getD c.speed
      halting := false
      released := false
      steps := 0
      result := none
      error := none
      treeBreakpoints := root.breakpoints }
  refine ⟨⟨h.settings.trans hs, rfl, h.steps, ?_⟩, h.halting⟩
  have htold : (c.prepared speed root).stepsTold = c.stepsTold := h.told
  rw [htold, hold]
  simp [Step.notices, Settings.heard]

/-- The walk as a whole is what is left of it before the first step. -/
theorem goes_walk (hp : c₀.settings.catalog.Prompt) (tree : Block) (inputs : List Int) :
    Goes c₀ tree inputs [] (tree.walk c₀.settings.options inputs) :=
  ⟨rfl, rfl, Block.walk_along_clearTrace hp _ _ _⟩

/-- **A turn follows the evaluation.** -/
theorem turn_tracks (hq : c₀.Quiet) (hp : c₀.settings.catalog.Prompt) {s : Session}
    (h : s.Tracks c₀ tree inputs asked) :
    (s.controller.turn s.run s.tree).scene.detached = [] ∧
      (s.controller.turn s.run s.tree).phase.Tracks c₀ tree inputs asked
        (s.controller.turn s.run s.tree).controller
        (s.controller.turn s.run s.tree).scene.tree := by
  have hscene : s.run.scene s.tree = ⟨s.tree, []⟩ := by rw [Run.scene, h.detached]
  have hphase := h.phase
  have hquiet : s.controller.Quiet := by
    unfold Controller.Quiet
    rw [hphase.settings]
    exact hq
  unfold Controller.turn
  rw [h.cancelling, hscene]
  dsimp only
  cases hph : s.run.phase with
  | scheduled =>
    rw [hph] at hphase
    obtain ⟨htree, hsettings, hidle, hold⟩ := hphase
    have hroot : (⟨s.tree, []⟩ : Scene).now s.run.root = tree := by
      rw [h.root, htree]
      rw [Scene.now, Scene.inPlace?, Block.at?_nil, Option.filter_some, beq_self_eq_true,
        if_pos rfl]
    obtain ⟨hreported, hgo⟩ := reported_prepared hsettings hold s.run.speed tree
    dsimp only
    rw [Controller.start, Controller.begin, hscene]
    dsimp only
    rw [hroot, Controller.prepare_quiet hquiet hidle]
    dsimp only
    rw [h.root, h.given, hreported.settings, htree]
    exact advance_tracks hq hreported (goes_walk hp tree inputs) hgo
  | delayed rest =>
    rw [hph] at hphase
    obtain ⟨hasked, taken, hr, hg⟩ := hphase
    dsimp only
    split
    · rename_i hhalt
      have hclose := closeHalted_tracks hq hr (hasked hhalt) hg.steps ⟨s.tree, []⟩ rfl
      rw [hclose.1]
      exact ⟨rfl, hclose.2⟩
    · rename_i hhalt
      exact advance_tracks hq hr hg (by simpa using hhalt)
  | parked rest =>
    rw [hph] at hphase
    obtain ⟨hasked, taken, hr, hg⟩ := hphase
    dsimp only
    split
    · unfold Controller.leavePause
      split
      · rename_i hhalt
        have hclose := closeHalted_tracks hq hr (hasked hhalt) hg.steps ⟨s.tree, []⟩ rfl
        rw [hclose.1]
        exact ⟨rfl, hclose.2⟩
      · exact ⟨rfl, hasked, taken, hr.congr (Controller.agree_write rfl _), hg⟩
    · exact ⟨rfl, hasked, taken, hr, hg⟩
  | waiting rest =>
    rw [hph] at hphase
    exact hphase.elim
  | finished ending =>
    rw [hph] at hphase
    exact ⟨rfl, hphase⟩

theorem tracks_turn (hq : c₀.Quiet) (hp : c₀.settings.catalog.Prompt) {s : Session}
    (h : s.Tracks c₀ tree inputs asked) : (s.act .turn).Tracks c₀ tree inputs asked := by
  obtain ⟨hdetached, hphase⟩ := turn_tracks hq hp h
  exact ⟨h.root, h.given, hdetached, h.cancelling, hphase⟩

theorem Phase.Tracks.mono (hasked : asked → asked') {phase : Phase}
    (h : phase.Tracks c₀ tree inputs asked c t) : phase.Tracks c₀ tree inputs asked' c t := by
  cases phase with
  | scheduled => exact h
  | delayed rest => exact ⟨fun hh => hasked (h.1 hh), h.2⟩
  | parked rest => exact ⟨fun hh => hasked (h.1 hh), h.2⟩
  | waiting rest => exact h
  | finished ending =>
    obtain ⟨taken, hr, he⟩ := h
    exact ⟨taken, hr, he.mono hasked⟩

theorem Session.Tracks.mono (hasked : asked → asked') {s : Session}
    (h : s.Tracks c₀ tree inputs asked) : s.Tracks c₀ tree inputs asked' :=
  ⟨h.root, h.given, h.detached, h.cancelling, h.phase.mono hasked⟩

/-- **Whatever happens, the session follows the evaluation.** The induction is on what happens, and
what may have been asked before comes along. -/
theorem tracks_after (hq : c₀.Quiet) (hp : c₀.settings.catalog.Prompt) (acts : List Act)
    {s : Session} (h : s.Tracks c₀ tree inputs asked) :
    (s.after acts).Tracks c₀ tree inputs (asked ∨ .ask .halt ∈ acts) := by
  induction acts generalizing s asked with
  | nil => exact h.mono .inl
  | cons a acts ih =>
    cases a with
    | ask control =>
      refine (ih (tracks_ask hq h control)).mono ?_
      rintro ((hasked | rfl) | hmem)
      · exact .inl hasked
      · exact .inr List.mem_cons_self
      · exact .inr (List.mem_cons_of_mem _ hmem)
    | turn =>
      refine (ih (tracks_turn hq hp h)).mono ?_
      rintro (hasked | hmem)
      · exact .inl hasked
      · exact .inr (List.mem_cons_of_mem _ hmem)

end Tracks

/-! ## Controlled runs -/

/-- What the session shows is what evaluating the tree on the inputs step by step does on its own.
Observers were told of the first `k` steps, numbered from one, each of them of each step in turn. A
run that is over has the value, or the error, that the evaluation has, after all of its steps, or
else it was halted, and someone asked for that. Direct evaluation gives that value too; with notes
it does so exactly if the inputs and the value can be written. -/
def Session.Follows (c₀ : Controller) (tree : Block) (inputs : List Int) (acts : List Act)
    (s : Session) : Prop :=
  let catalog := c₀.settings.catalog
  let options := c₀.settings.options
  let alone := tree.evaluateStepped catalog options none inputs
  ∃ k, k ≤ alone.steps.length ∧
    s.controller.stepsTold = c₀.stepsTold ++
      c₀.settings.heard ((Step.notices options.trace 1 alone.steps tree).take k) ∧
    match s.run.phase with
    | .scheduled => k = 0
    | .delayed _ | .parked _ => s.controller.steps = k
    | .waiting _ => False
    | .finished (.value n) =>
      k = alone.steps.length ∧ s.tree = alone.tree ∧ alone.outcome = .ok n ∧
        (tree.evaluate catalog options inputs).outcome = .ok n ∧
        (Block.Notable inputs (.ok n) →
          (tree.evaluateNoted catalog options inputs).outcome = .ok n) ∧
        (¬ Block.Notable inputs (.ok n) →
          (tree.evaluateNoted catalog options inputs).outcome = .error .unwritable)
    | .finished (.failed f) =>
      k = alone.steps.length ∧ s.tree = alone.tree ∧ alone.outcome = .error f ∧
        ∃ e : Failure, f = e.fault
    | .finished .halted => .ask .halt ∈ acts
    | .finished .cancelled => False

/-- What was told of the first steps of the walk. -/
theorem Reported.told_take {c₀ c : Controller} {tree t : Block} {taken more steps : List Step}
    (h : Reported c₀ tree taken c t) (hsteps : steps = taken ++ more) :
    taken.length ≤ steps.length ∧
      c.stepsTold = c₀.stepsTold ++ c₀.settings.heard
        ((Step.notices c₀.settings.options.trace 1 steps tree).take taken.length) := by
  subst hsteps
  refine ⟨by simp, ?_⟩
  rw [Step.take_notices]
  exact h.told

/-- **Control never alters the computation.** A run under a controller with quiet observers follows
the evaluation of its tree, whatever is asked of the controller before the run, between its turns
and after it, and in whatever order. -/
theorem controlled_run_follows_evaluation {c₀ : Controller} (hidle : c₀.isRunning = false)
    (hq : c₀.Quiet) (hp : c₀.settings.catalog.Prompt) (tree : Block) (inputs : List Int)
    (speed : Option Speed) (acts : List Act) :
    ((Session.scheduled c₀ tree inputs speed).after acts).Follows c₀ tree inputs acts := by
  have hstart : (Session.scheduled c₀ tree inputs speed).Tracks c₀ tree inputs False :=
    ⟨rfl, rfl, rfl, rfl, rfl, rfl, hidle, rfl⟩
  have hphase := (tracks_after hq hp acts hstart).phase
  have halone := Block.evaluateStepped_eq c₀.settings.catalog c₀.settings.options tree inputs
  have hdirect := Block.evaluate_outcome hp c₀.settings.options tree inputs
  generalize (Session.scheduled c₀ tree inputs speed).after acts = s at hphase
  unfold Session.Follows
  dsimp only
  rw [halone]
  dsimp only
  cases hph : s.run.phase with
  | scheduled =>
    rw [hph] at hphase
    obtain ⟨-, -, -, hold⟩ := hphase
    refine ⟨0, Nat.zero_le _, ?_, rfl⟩
    rw [hold, List.take_zero, Settings.heard, List.flatMap_nil, List.append_nil]
  | delayed rest =>
    rw [hph] at hphase
    obtain ⟨-, taken, hr, hg⟩ := hphase
    obtain ⟨hle, htold⟩ := hr.told_take hg.steps
    exact ⟨taken.length, hle, htold, hr.steps⟩
  | parked rest =>
    rw [hph] at hphase
    obtain ⟨-, taken, hr, hg⟩ := hphase
    obtain ⟨hle, htold⟩ := hr.told_take hg.steps
    exact ⟨taken.length, hle, htold, hr.steps⟩
  | waiting rest =>
    rw [hph] at hphase
    exact hphase.elim
  | finished ending =>
    rw [hph] at hphase
    obtain ⟨taken, hr, hending⟩ := hphase
    cases ending with
    | value n =>
      obtain ⟨rfl, hend⟩ := hending
      obtain ⟨hle, htold⟩ := hr.told_take (List.append_nil _).symm
      rw [hend] at hdirect
      refine ⟨_, hle, htold, rfl, hr.noted, ?_, hdirect,
        Block.evaluateNoted_of_evaluate_eq_ok hdirect⟩
      rw [hend]
      rfl
    | failed f =>
      obtain ⟨rfl, e, rfl, hend⟩ := hending
      obtain ⟨hle, htold⟩ := hr.told_take (List.append_nil _).symm
      refine ⟨_, hle, htold, rfl, hr.noted, ?_, e, rfl⟩
      rw [hend]
      rfl
    | halted =>
      obtain ⟨hasked, more, hmore⟩ := hending
      obtain ⟨hle, htold⟩ := hr.told_take hmore
      exact ⟨taken.length, hle, htold, hasked.resolve_left id⟩
    | cancelled => exact hending.elim

/-- An observer watches `2 + 1`. The run pauses after the first step, as asked, and at a breakpoint
that is set meanwhile and taken back there, and then it goes on to the sum. -/
theorem controlled_run_follows_evaluation_plus :
    let c₀ : Controller := { settings := { observers := [{ label := "watch" }] } }
    let acts : List Act :=
      [.ask .singleStep, .turn, .ask (.setBreakpoint "successor" true), .ask .resume, .turn, .turn,
        .turn, .turn, .ask (.setBreakpoint "successor" false), .ask .resume, .turn,
        .ask (.setSpeed .slow), .turn, .turn, .turn]
    c₀.isRunning = false ∧ c₀.Quiet ∧ c₀.settings.catalog.Prompt ∧
      ((Session.scheduled c₀ .plus [2, 1] none).after acts).Follows c₀ .plus [2, 1] acts ∧
      ((Session.scheduled c₀ .plus [2, 1] none).after acts).controller.result = some 3 := by
  intro c₀ acts
  have hquiet : c₀.Quiet := by
    intro o ho past n
    rw [List.mem_singleton.mp ho]
  exact ⟨rfl, hquiet, Catalog.prompt_standard,
    controlled_run_follows_evaluation rfl hquiet Catalog.prompt_standard _ _ _ _,
    by decide +kernel⟩

end BlockCalculus
