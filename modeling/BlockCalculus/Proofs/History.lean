import BlockCalculus.Proofs.Requests
import BlockCalculus.Proofs.Stage
import Mathlib.Data.List.Induction

/-!
# What is left of the past

A controller keeps some of what was asked of it from run to run, and forgets the rest when a run
ends.

* `Controller.turn_settles`: a turn that ends a run leaves nothing of what was asked for during it,
  but for the breakpoints.
* `Stage.recalls_after`: between runs, a controller pauses at the next step, and ignores breakpoints,
  by what was asked for since the last run ended (`Stage.askedSince`).
* `Stage.breakpoints_after`: its breakpoints are the net effect of all that was ever asked for.

That holds after any history of a stage. Observers are quiet.
-/

namespace BlockCalculus

/-! ## Turns that settle -/

/-- Whether a run has begun, or begins with its next turn. -/
def Run.isBegun (c : Controller) (run : Run) : Bool :=
  match run.phase with
  | .scheduled => !run.cancelling && !c.isRunning
  | phase => phase.isUnderway

/-- A turn of a run that has begun leaves the settings alone, and the breakpoints that were asked for.
If it ends the run, nothing is left of what was asked for during this run only. -/
structure Turn.Settles (settings : Settings) (breakpoints : List String) (t : Turn) : Prop where
  begun : t.phase ≠ .scheduled
  settings : t.controller.settings = settings
  breakpoints : t.controller.breakpoints = breakpoints
  settled : t.phase.isUnderway = false →
    t.controller.ignoring = false ∧ t.controller.pauseNext = false

namespace Controller

section Settles

variable {c : Controller}

theorem close_settles (hq : c.Quiet) (state : RunState) (ending : RunEnding) (scene : Scene) :
    (c.close state ending scene).Settles c.settings c.breakpoints := by
  rw [close_quiet hq]
  obtain ⟨log, heq⟩ := exists_entered_eq state c
  rw [heq]
  exact ⟨Phase.noConfusion, rfl, rfl, fun _ => ⟨rfl, rfl⟩⟩

theorem closeHalted_settles (hq : c.Quiet) (scene : Scene) :
    (c.closeHalted scene).Settles c.settings c.breakpoints :=
  close_settles (c := c.write (.note ("Run halted after " ++ toString c.steps ++ " steps"))) hq _ _
    scene

theorem closeRaised_settles (hq : c.Quiet) (e : Failure) (scene : Scene) :
    (c.closeRaised e.fault scene).Settles c.settings c.breakpoints := by
  rw [closeRaised_fault]
  exact close_settles (c := { c with error := e.fault.error?.or c.error }) hq _ _ scene

theorem closeCompleted_settles (hq : c.Quiet) (n : Int) (scene : Scene) :
    (c.closeCompleted n scene).Settles c.settings c.breakpoints := by
  rw [closeCompleted_quiet hq]
  obtain ⟨log, heq⟩ := exists_entered_eq .completed { c.settle with result := some n }
  rw [heq]
  exact ⟨Phase.noConfusion, rfl, rfl, fun _ => ⟨rfl, rfl⟩⟩

/-- A run that goes on is not settled yet. -/
theorem settles_of_isUnderway {t : Turn} (hphase : t.phase.isUnderway = true)
    (hsettings : t.controller.settings = c.settings)
    (hbreakpoints : t.controller.breakpoints = c.breakpoints) :
    t.Settles c.settings c.breakpoints := by
  refine ⟨fun hscheduled => ?_, hsettings, hbreakpoints, fun hover => ?_⟩
  · rw [hscheduled] at hphase
    exact Bool.noConfusion hphase
  · exact absurd (hphase.symm.trans hover) Bool.noConfusion

theorem report_settles (hq : c.Quiet) (s : Step) (rest : Unit → Walk Int) (scene : Scene) :
    (c.report s rest scene).Settles c.settings c.breakpoints := by
  cases hhalting : c.halting with
  | true =>
    rw [report, if_pos hhalting]
    exact closeHalted_settles hq scene
  | false =>
    rw [report_quiet hq hhalting]
    dsimp only
    split
    · obtain ⟨log, heq⟩ := exists_parkedAt_eq (scene.now s.toSite)
        (c.reported (scene.now s.toSite) s.result)
      rw [heq]
      exact settles_of_isUnderway rfl rfl rfl
    · exact settles_of_isUnderway rfl rfl rfl

theorem advance_settles (hq : c.Quiet) (w : Walk Int) (scene : Scene) :
    (advance w scene c).Settles c.settings c.breakpoints := by
  obtain ⟨n, heq⟩ | ⟨e, heq⟩ | ⟨rest, -, heq⟩ | ⟨s, rest, heq⟩ := advance_forms w scene c
  · rw [heq]
    exact closeCompleted_settles hq n scene
  · rw [heq]
    exact closeRaised_settles hq e scene
  · rw [heq]
    exact settles_of_isUnderway rfl rfl rfl
  · rw [heq]
    exact report_settles hq s rest _

/-- **A turn of a run that has begun settles.** -/
theorem turn_settles (hq : c.Quiet) {run : Run} (hbegun : run.isBegun c = true) (tree : Block) :
    (c.turn run tree).Settles c.settings c.breakpoints := by
  unfold Run.isBegun at hbegun
  cases hphase : run.phase with
  | scheduled =>
    rw [hphase, Bool.and_eq_true, Bool.not_eq_true', Bool.not_eq_true'] at hbegun
    obtain ⟨log, heq⟩ := exists_prepared_eq run.speed ((run.scene tree).now run.root) c
    have hsettles := advance_settles
      (quiet_prepared hq run.speed ((run.scene tree).now run.root))
      (Site.walk c.settings.options { run.root with block := (run.scene tree).now run.root }
        run.inputs) (run.scene tree)
    rw [turn_of_scheduled hq hbegun.2 hphase hbegun.1]
    dsimp only
    rw [heq] at hsettles ⊢
    exact hsettles
  | finished ending =>
    rw [hphase] at hbegun
    exact absurd hbegun Bool.noConfusion
  | delayed rest =>
    rw [turn, hphase]
    cases run.cancelling with
    | true => exact close_settles hq _ _ _
    | false =>
      dsimp only
      split
      · exact closeHalted_settles hq _
      · exact advance_settles hq _ _
  | parked rest =>
    rw [turn, hphase]
    cases run.cancelling with
    | true => exact close_settles hq _ _ _
    | false =>
      dsimp only
      unfold leavePause
      split
      · split
        · exact closeHalted_settles hq _
        · exact settles_of_isUnderway rfl rfl rfl
      · exact settles_of_isUnderway rfl rfl rfl
  | waiting rest =>
    rw [turn, hphase]
    cases run.cancelling with
    | true => exact close_settles hq _ _ _
    | false => exact advance_settles hq _ _

/-- No turn takes a run back to its beginning, and none changes the settings. -/
theorem turn_keeps (hq : c.Quiet) {run : Run} (hphase : run.phase ≠ .scheduled) (tree : Block) :
    (c.turn run tree).phase ≠ .scheduled ∧
      (c.turn run tree).controller.settings = c.settings := by
  cases hbegun : run.isBegun c with
  | true =>
    have hsettles := turn_settles hq hbegun tree
    exact ⟨hsettles.begun, hsettles.settings⟩
  | false =>
    unfold Run.isBegun at hbegun
    unfold turn
    cases hp : run.phase with
    | scheduled => exact absurd hp hphase
    | finished ending => exact ⟨Phase.noConfusion, rfl⟩
    | _ =>
      rw [hp] at hbegun
      exact absurd hbegun Bool.noConfusion

/-- The turn of a run that does not begin by it changes nothing about the controller. -/
theorem turn_of_not_isBegun {run : Run} (h : run.isBegun c = false) (tree : Block) :
    (c.turn run tree).controller = c := by
  unfold Run.isBegun at h
  unfold turn
  cases hphase : run.phase with
  | scheduled =>
    rw [hphase, Bool.and_eq_false_iff, Bool.not_eq_false', Bool.not_eq_false'] at h
    cases hcancel : run.cancelling with
    | true => rfl
    | false =>
      have hrunning : c.isRunning = true := h.resolve_left (by simp [hcancel])
      dsimp only
      rw [start_of_isRunning hrunning]
  | finished ending => rfl
  | _ =>
    rw [hphase] at h
    exact absurd h Bool.noConfusion

end Settles

end Controller

/-! ## What is left of the past -/

/-- What is asked for, if anything is. -/
def Cue.control? : Cue → Option Control
  | .ask control => some control
  | _ => none

namespace Stage

/-- Whether a cue ends a run. A run that never began does not end. -/
def endsRun (s : Stage) : Cue → Bool
  | .turn index =>
    match s.runs[index]? with
    | some (run, tree) =>
      run.isBegun s.controller && !(s.controller.turn run tree).phase.isUnderway
    | none => false
  | _ => false

/-- What was asked for since the last run ended, in order, if some was before the cues. -/
def askedSince (s : Stage) (asked : List Control) : List Cue → List Control
  | [] => asked
  | cue :: rest =>
    (s.cue cue).askedSince (if s.endsRun cue then [] else asked ++ cue.control?.toList) rest

/-- Whether there is a breakpoint at a block by what was asked for: the last word on it counts. -/
def breaksAt (cues : List Cue) (id : String) : Bool :=
  (latest? (fun cue => cue.control?.bind (Control.breakpointAt? id)) cues).getD false

end Stage

/-- Between runs, a controller pauses at the next step, and ignores breakpoints, by what was asked
for since the last run ended. -/
structure Controller.Recalls (asked : List Control) (c : Controller) : Prop where
  pauseNext : c.pauseNext = asked.any (· == .singleStep)
  ignoring : c.ignoring = (latest? Control.ignoring? asked).getD false

namespace Controller

variable {c : Controller}

theorem requests_of_idle (h : c.isRunning = false) (control : Control) :
    c.requests control = (control == .singleStep) := by
  have hstate : (c.state == .running) = false := (Bool.or_eq_false_iff.mp h).1
  rw [requests, hstate, Bool.and_false, Bool.or_false]

theorem Recalls.mark {asked : List Control} (h : c.Recalls asked) (hidle : c.isRunning = false)
    (control : Control) : (c.mark control).Recalls (asked ++ [control]) := by
  constructor
  · rw [pauseNext_mark (.inr hidle), requests_of_idle hidle, h.pauseNext, List.any_append,
      List.any_cons, List.any_nil, Bool.or_false, Bool.or_comm]
  · rw [ignoring_mark, h.ignoring, latest?_concat, Option.getD_or]

/-- Idle controllers stay idle, whatever is asked for. -/
theorem applied_of_idle (h : c.isRunning = false) (control : Control) :
    c.applied control = c.mark control ∧ (c.mark control).isRunning = false := by
  refine ⟨if_neg fun hpaused => (state_of_idle h).2 hpaused.1, ?_⟩
  rw [isRunning, mark_state]
  exact h

end Controller

namespace Stage

section Recalls

variable {s : Stage} {current : Option Nat} {asked : List Control}

/-- What the controller shows fits a run that has begun, or begins now. -/
theorem TakenUp.holds_of_isBegun (h : s.TakenUp current) {index : Nat} {run : Run} {tree : Block}
    (hget : s.runs[index]? = some (run, tree)) (hbegun : run.isBegun s.controller = true) :
    run.phase.Holds s.controller := by
  have hphase : s.phases[index]? = some run.phase := by simp [phases, hget]
  have hunder (hu : run.phase.isUnderway = true) : run.phase.Holds s.controller := by
    have hcurrent := (h.only index _ hphase).mp hu
    obtain ⟨phase, hget', hholds⟩ := h.some_holds index hcurrent
    rwa [Option.some.inj (hphase.symm.trans hget')]
  unfold Run.isBegun at hbegun
  cases hp : run.phase with
  | scheduled =>
    rw [hp, Bool.and_eq_true, Bool.not_eq_true', Bool.not_eq_true'] at hbegun
    refine h.none_rests (Option.eq_none_iff_forall_ne_some.mpr fun i hi => ?_)
    have hrunning := h.isRunning_iff.mpr ⟨i, hi⟩
    exact absurd (hrunning.symm.trans hbegun.2) Bool.noConfusion
  | _ =>
    rw [hp] at hbegun hunder
    exact hunder hbegun

/-- **Between runs, a controller recalls what was asked for since the last run ended.** This is one
cue. -/
theorem recalls_cue (hq : s.controller.Quiet) (htaken : s.TakenUp current)
    (h : s.controller.isRunning = false → s.controller.Recalls asked) (cue : Cue)
    (hidle : (s.cue cue).controller.isRunning = false) :
    (s.cue cue).controller.Recalls
      (if s.endsRun cue then [] else asked ++ cue.control?.toList) := by
  cases cue with
  | ask control =>
    have hc : (s.cue (.ask control)).controller = s.controller.applied control :=
      congrArg Prod.fst (Controller.apply_quiet hq control)
    have hbefore : s.controller.isRunning = false := by
      refine Bool.eq_false_iff.mpr fun hrunning => ?_
      have hafter : (s.cue (.ask control)).controller.isRunning = true :=
        Controller.apply_preserves Controller.stable_isRunning control hrunning
      exact absurd (hafter.symm.trans hidle) Bool.noConfusion
    rw [hc, (Controller.applied_of_idle hbefore control).1]
    exact (h hbefore).mark hbefore control
  | turn index =>
    cases hget : s.runs[index]? with
    | none =>
      have hcue : s.cue (.turn index) = s := by simp [cue, hget]
      rw [hcue] at hidle ⊢
      simpa [endsRun, hget, Cue.control?] using h hidle
    | some e =>
      obtain ⟨run, tree⟩ := e
      have hc : (s.cue (.turn index)).controller = (s.controller.turn run tree).controller :=
        congrArg controller (cue_turn hget)
      rw [hc] at hidle ⊢
      cases hbegun : run.isBegun s.controller with
      | false =>
        rw [Controller.turn_of_not_isBegun hbegun] at hidle ⊢
        simpa [endsRun, hget, hbegun, Cue.control?] using h hidle
      | true =>
        -- A run that goes on is in progress, so this one is over.
        have hover : (s.controller.turn run tree).phase.isUnderway = false := by
          refine Bool.eq_false_iff.mpr fun hunder => ?_
          have hholds := (Controller.turn_orderly hq (htaken.holds_of_isBegun hget hbegun) tree).2
          exact absurd ((hholds.underway hunder).1.symm.trans hidle) Bool.noConfusion
        obtain ⟨hignoring, hpauseNext⟩ := (Controller.turn_settles hq hbegun tree).settled hover
        have hends : s.endsRun (.turn index) = true := by simp [endsRun, hget, hbegun, hover]
        rw [if_pos hends]
        exact ⟨hpauseNext, hignoring⟩
  | start | edit | cancel =>
    show s.controller.Recalls (asked ++ [])
    rw [List.append_nil]
    exact h hidle

/-- **Between runs, a controller recalls what was asked for since the last run ended**, whatever
happened. -/
theorem recalls_after {c₀ : Controller} (hq : c₀.Quiet) (horderly : s.Orderly c₀)
    (h : s.controller.isRunning = false → s.controller.Recalls asked) (cues : List Cue)
    (hidle : (s.after cues).controller.isRunning = false) :
    (s.after cues).controller.Recalls (s.askedSince asked cues) := by
  induction cues generalizing s asked with
  | nil => exact h hidle
  | cons cue rest ih =>
    obtain ⟨-, current, htaken⟩ := id horderly
    exact ih (orderly_cue hq horderly cue) (recalls_cue (horderly.quiet hq) htaken h cue) hidle

/-- A new controller is orderly. -/
theorem orderly_new (settings : Settings) : Orderly { settings } ⟨{ settings }, []⟩ := by
  refine ⟨.of_eq rfl rfl rfl, none, fun i phase hphase => ?_, fun _ => ?_, fun i hi => ?_⟩
  · simp [phases] at hphase
  · exact ⟨rfl, rfl, by simp, fun herror => absurd herror Bool.noConfusion⟩
  · exact absurd hi (by simp)

/-- One cue sets the breakpoints that it asks for, and no others. -/
theorem breakpoints_cue (hq : s.controller.Quiet) (cue : Cue) (id : String) :
    (s.cue cue).controller.breakpoints.contains id =
      ((cue.control?.bind (Control.breakpointAt? id)).getD
        (s.controller.breakpoints.contains id)) := by
  cases cue with
  | ask control =>
    have hc : (s.cue (.ask control)).controller = s.controller.applied control :=
      congrArg Prod.fst (Controller.apply_quiet hq control)
    rw [hc, (Controller.applied_asked control s.controller).1]
    exact Controller.contains_mark control s.controller id
  | turn index =>
    cases hget : s.runs[index]? with
    | none =>
      have hcue : s.cue (.turn index) = s := by simp [cue, hget]
      rw [hcue]
      rfl
    | some e =>
      obtain ⟨run, tree⟩ := e
      have hc : (s.cue (.turn index)).controller = (s.controller.turn run tree).controller :=
        congrArg controller (cue_turn hget)
      rw [hc]
      cases hbegun : run.isBegun s.controller with
      | false =>
        rw [Controller.turn_of_not_isBegun hbegun]
        rfl
      | true =>
        rw [(Controller.turn_settles hq hbegun tree).breakpoints]
        rfl
  | start | edit | cancel => rfl

/-- **The breakpoints that were asked for are the net effect of all that was asked for.** -/
theorem breakpoints_after {settings : Settings} (hq : ({ settings } : Controller).Quiet)
    (cues : List Cue) (id : String) :
    (after ⟨{ settings }, []⟩ cues).controller.breakpoints.contains id = breaksAt cues id := by
  induction cues using List.reverseRecOn with
  | nil => rfl
  | append_singleton cues cue ih =>
    have hquiet := (orderly_after hq (orderly_new settings) cues).quiet hq
    have hafter : after ⟨{ settings }, []⟩ (cues ++ [cue]) =
        (after ⟨{ settings }, []⟩ cues).cue cue := by simp [after]
    rw [hafter, breakpoints_cue hquiet, ih, breaksAt, breaksAt, latest?_concat, Option.getD_or]

end Recalls

end Stage

end BlockCalculus
