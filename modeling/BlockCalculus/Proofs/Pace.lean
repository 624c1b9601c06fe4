import BlockCalculus.Proofs.Requests
import BlockCalculus.Proofs.Simulation

/-!
# The pace of a run

What happens to a run between two of its turns, and in a turn, if nobody halts or cancels it and
observers are quiet.

* `Session.Paced`: what the controller shows fits where the run is.
* `Session.Paced.ask`: to ask for something leaves the run where it is, or ends a pause.
* `Session.turned`: a turn does nothing, goes on without a step, ends the run, or reports one step
  (`Session.Moves`). A run that goes on without a step gets closer to its next one
  (`Session.turnsLeft`).

This holds for every catalogue, so rules may wait, and whatever the tree is.
-/

namespace BlockCalculus

/-- A run came to its end by itself: its evaluation has a value, or failed. -/
def RunEnding.OfEvaluation (ending : RunEnding) : Prop :=
  (∃ n, ending = .value n) ∨ ∃ e : Failure, ending = .failed e.fault

namespace Session

/-- The number of steps of the run that were reported. -/
def delivered (s : Session) : Nat :=
  match s.run.phase with
  | .scheduled => 0
  | _ => s.controller.steps

/-! ## What a turn does -/

/-- The number of turns that the run takes to its next step or to its end, if nothing holds it up. -/
def turnsLeft (s : Session) : Nat :=
  let scene := s.run.scene s.tree
  let catalog := s.controller.settings.catalog
  match s.run.phase with
  | .scheduled =>
    (Site.walk s.controller.settings.options { s.run.root with block := scene.now s.run.root }
      s.run.inputs).turnsToStep catalog scene
  | .delayed rest | .waiting rest => (rest ()).turnsToStep catalog scene
  | .parked rest => (rest ()).turnsToStep catalog scene + 1
  | .finished _ => 0

/-- What the controller shows fits where the run is, if nobody halts it. A run that is parked is
paused until it is released. The breakpoints of the tree are those of the beginning. -/
def Paced (flags : List String) (s : Session) : Prop :=
  match s.run.phase with
  | .scheduled =>
    s.controller.isRunning = false ∧ ((s.run.scene s.tree).now s.run.root).breakpoints = flags
  | .delayed _ | .waiting _ =>
    s.controller.state = .running ∧ s.controller.halting = false ∧
      s.controller.treeBreakpoints = flags
  | .parked _ =>
    s.controller.state = (if s.controller.released then .running else .paused) ∧
      s.controller.halting = false ∧ s.controller.treeBreakpoints = flags
  | .finished _ => s.controller.isRunning = false

/-- How a run may move in a turn. -/
inductive Moves (flags : List String) (s s' : Session) : Prop where
  /-- It is paused or over, and nothing changes. -/
  | stays (same : s' = s) (still : s.controller.state = .paused ∨ s.run.isFinished = true)
  /-- It goes on to a delay or to a rule that waits. -/
  | passes (told : s'.controller.stepsTold = s.controller.stepsTold)
      (delivered : s'.delivered = s.delivered) (state : s'.controller.state = .running)
      (pauseNext : s'.controller.pauseNext = s.controller.pauseNext)
      (ignoring : s'.controller.ignoring = s.controller.ignoring)
      (turns : s.turnsLeft = s'.turnsLeft + 1)
  /-- It comes to its end. -/
  | ends (told : s'.controller.stepsTold = s.controller.stepsTold)
      (delivered : s'.delivered = s.delivered) (idle : s'.controller.isRunning = false)
      (ending : RunEnding) (phase : s'.run.phase = .finished ending)
      (own : ending.OfEvaluation)
  /-- It reports a step of a block, shows that block, and pauses if there is a breakpoint at it that
  is not ignored, or a request. -/
  | steps (unpaused : s.controller.state ≠ .paused) (b : Block) (result : Int)
      (told : s'.controller.stepsTold =
        s.controller.stepsTold ++ s.controller.settings.heard [.step (s.delivered + 1) b result])
      (delivered : s'.delivered = s.delivered + 1)
      (highlight : s'.controller.highlight = some b.head.id)
      (paused : s'.controller.state = .paused ↔
        ((s.controller.breakpoints.contains b.head.id || flags.contains b.head.id) &&
          !s.controller.ignoring || s.controller.pauseNext) = true)
      (pauseNext : s'.controller.pauseNext = false)
      (ignoring : s'.controller.ignoring = s.controller.ignoring)

/-- What becomes of a session in a turn. -/
structure Turned (flags : List String) (s s' : Session) : Prop where
  settings : s'.controller.settings = s.controller.settings
  breakpoints : s'.controller.breakpoints = s.controller.breakpoints
  cancelling : s'.run.cancelling = s.run.cancelling
  paced : s'.Paced flags
  moves : s.Moves flags s'

/-- The session after a turn. -/
def moved (s : Session) (t : Turn) : Session :=
  ⟨t.controller, s.run.after t, t.scene.tree⟩

/-- The run goes on under a controller that fits the session. -/
structure Ready (flags : List String) (s : Session) (c : Controller) : Prop where
  quiet : c.Quiet
  settings : c.settings = s.controller.settings
  told : c.stepsTold = s.controller.stepsTold
  steps : c.steps = s.delivered
  breakpoints : c.breakpoints = s.controller.breakpoints
  ignoring : c.ignoring = s.controller.ignoring
  pauseNext : c.pauseNext = s.controller.pauseNext
  state : c.state = .running
  halting : c.halting = false
  flags : c.treeBreakpoints = flags
  unpaused : s.controller.state ≠ .paused

section Turned

variable {flags : List String} {s : Session} {c : Controller}

theorem act_turn_of_isFinished (h : s.run.isFinished = true) : s.act .turn = s := by
  refine act_turn_of_turn_eq ?_
  unfold Run.isFinished at h
  cases hphase : s.run.phase with
  | finished ending => rw [Controller.turn, hphase]
  | _ =>
    rw [hphase] at h
    exact absurd h Bool.noConfusion

theorem not_isFinished_of_act_turn (h : (s.act .turn).run.isFinished = false) :
    s.run.isFinished = false := by
  refine Bool.eq_false_iff.mpr fun hover => ?_
  rw [act_turn_of_isFinished hover] at h
  exact absurd (h.symm.trans hover) Bool.noConfusion

/-- A run that reports a step was not over. -/
theorem not_isFinished_of_delivered (h : (s.act .turn).delivered = s.delivered + 1) :
    s.run.isFinished = false := by
  refine Bool.eq_false_iff.mpr fun hover => ?_
  rw [act_turn_of_isFinished hover] at h
  exact absurd h (Nat.succ_ne_self _).symm

/-- A run that is over stays over. -/
theorem isFinished_after (h : s.run.isFinished = true) (acts : List Act) :
    (s.after acts).run.isFinished = true := by
  induction acts generalizing s with
  | nil => exact h
  | cons a rest ih =>
    refine ih ?_
    cases a with
    | ask control => exact h
    | turn => rwa [act_turn_of_isFinished h]

/-- A step is reported, and then the run pauses if that is due. -/
theorem report_turned (h : s.Ready flags c) (step : Step) (rest : Unit → Walk Int)
    (scene : Scene) : s.Turned flags (s.moved (c.report step rest scene)) := by
  rw [Controller.report_quiet h.quiet h.halting]
  dsimp only
  generalize scene.now step.toSite = b
  have htold : (c.reported b step.result).stepsTold =
      s.controller.stepsTold ++
        s.controller.settings.heard [.step (s.delivered + 1) b step.result] := by
    rw [← h.told, ← h.settings, ← h.steps]
    exact Controller.stepsTold_announce_step _ _ _ _
  have hdelivered : c.steps + 1 = s.delivered + 1 := by rw [h.steps]
  have hdue : ((c.reported b step.result).pausesAt b.head.id ||
      (c.reported b step.result).pauseNext) =
        ((s.controller.breakpoints.contains b.head.id || flags.contains b.head.id) &&
          !s.controller.ignoring || s.controller.pauseNext) := by
    rw [← h.breakpoints, ← h.flags, ← h.ignoring, ← h.pauseNext]
    rfl
  split
  · rename_i hpause
    obtain ⟨log, heq⟩ := Controller.exists_parkedAt_eq b (c.reported b step.result)
    have hagree := Controller.agree_parkedAt b (c.reported b step.result)
    rw [heq] at hagree ⊢
    refine ⟨h.settings, h.breakpoints, rfl, ⟨rfl, h.halting, h.flags⟩, ?_⟩
    exact .steps h.unpaused b step.result (hagree.told.trans htold) hdelivered rfl
      ⟨fun _ => hdue ▸ hpause, fun _ => rfl⟩ rfl h.ignoring
  · rename_i hpause
    have hagree := Controller.agree_write
      (e := .slept ((c.reported b step.result).settings.delay (c.reported b step.result).speed)) rfl
      (c.reported b step.result)
    refine ⟨h.settings, h.breakpoints, rfl, ⟨h.state, h.halting, h.flags⟩, ?_⟩
    have hrunning : c.state ≠ .paused := by
      rw [h.state]
      decide
    have hpauseNext : c.pauseNext = false := by
      have hnone := Bool.or_eq_false_iff.mp (Bool.eq_false_iff.mpr hpause)
      exact hnone.2
    exact .steps h.unpaused b step.result (hagree.told.trans htold) hdelivered rfl
      ⟨fun hp => absurd hp hrunning, fun hp => absurd (hdue.trans hp) hpause⟩ hpauseNext h.ignoring

/-- A run whose evaluation is over comes to its end, and reports no step. -/
theorem ended_turned (h : s.Ready flags c) {t : Turn} {ending : RunEnding}
    (hphase : t.phase = .finished ending) (hending : ending.OfEvaluation)
    (hagree : Controller.Agree c t.controller)
    (hbreakpoints : t.controller.breakpoints = c.breakpoints)
    (hidle : t.controller.isRunning = false) : s.Turned flags (s.moved t) := by
  have hover : (s.moved t).run.phase = .finished ending := hphase
  have hdelivered : (s.moved t).delivered = t.controller.steps := by
    rw [delivered, hover]
    rfl
  refine ⟨hagree.settings.trans h.settings, hbreakpoints.trans h.breakpoints, rfl, ?_, ?_⟩
  · rw [Paced, hover]
    exact hidle
  · exact .ends (hagree.told.trans h.told) (hdelivered.trans (hagree.steps.trans h.steps)) hidle
      ending hover hending

/-- **Walking on goes on without a step, ends the run, or reports one step.** -/
theorem advance_turned (h : s.Ready flags c) {w : Walk Int}
    (hturns : s.turnsLeft = w.turnsToStep s.controller.settings.catalog (s.run.scene s.tree)) :
    s.Turned flags (s.moved (Controller.advance w (s.run.scene s.tree) c)) := by
  obtain ⟨n, heq⟩ | ⟨e, heq⟩ | ⟨rest, hrest, heq⟩ | ⟨step, rest, heq⟩ :=
    Controller.advance_forms w (s.run.scene s.tree) c
  · rw [heq, Controller.closeCompleted_quiet h.quiet]
    obtain ⟨log, hentered⟩ := Controller.exists_entered_eq .completed
      { c.settle with result := some n }
    have hagree := (Controller.agree_entered .completed { c.settle with result := some n }).trans
      (Controller.agree_announce (n := .complete n) (fun _ => rfl) _)
    rw [hentered] at hagree ⊢
    exact ended_turned h rfl (.inl ⟨n, rfl⟩)
      ⟨hagree.settings, hagree.steps, hagree.told, hagree.halting⟩ rfl rfl
  · rw [heq, Controller.closeRaised_quiet h.quiet]
    let failed := { c with error := e.fault.error?.or c.error }
    obtain ⟨log, hentered⟩ := Controller.exists_entered_eq .errored failed
    have hagree := Controller.agree_entered .errored failed
    rw [hentered] at hagree ⊢
    exact ended_turned h rfl (.inr ⟨e, rfl⟩)
      ⟨hagree.settings, hagree.steps, hagree.told, hagree.halting⟩ rfl rfl
  · rw [heq]
    refine ⟨h.settings, h.breakpoints, rfl, ⟨h.state, h.halting, h.flags⟩, ?_⟩
    refine .passes h.told h.steps h.state h.pauseNext h.ignoring ?_
    rw [hturns, ← h.settings, hrest]
    rfl
  · rw [heq]
    exact report_turned h step rest _

theorem Paced.ready_prepared (h : s.Paced flags) (hq : s.controller.Quiet)
    (hphase : s.run.phase = .scheduled) :
    s.Ready flags
      (s.controller.prepared s.run.speed ((s.run.scene s.tree).now s.run.root)) := by
  rw [Paced, hphase] at h
  obtain ⟨hidle, hflags⟩ := h
  have hunpaused := (Controller.state_of_idle hidle).2
  have hdelivered : s.delivered = 0 := by
    rw [delivered, hphase]
  obtain ⟨hreported, hhalting⟩ := reported_prepared (Eq.refl s.controller.settings) rfl
    s.run.speed ((s.run.scene s.tree).now s.run.root)
  have htold : (s.controller.prepared s.run.speed
      ((s.run.scene s.tree).now s.run.root)).stepsTold = s.controller.stepsTold := by
    rw [hreported.told]
    simp [Step.notices, Settings.heard]
  obtain ⟨log, heq⟩ := Controller.exists_prepared_eq s.run.speed
    ((s.run.scene s.tree).now s.run.root) s.controller
  rw [heq] at htold hhalting ⊢
  exact ⟨hq, rfl, htold, hdelivered.symm, rfl, rfl, rfl, rfl, hhalting, hflags, hunpaused⟩

theorem ready_self (hq : s.controller.Quiet) (hbegun : s.run.phase ≠ .scheduled)
    (h : s.controller.state = .running ∧ s.controller.halting = false ∧
      s.controller.treeBreakpoints = flags) : s.Ready flags s.controller := by
  obtain ⟨hstate, hhalting, hflags⟩ := h
  have hdelivered : s.controller.steps = s.delivered := by
    unfold delivered
    cases hphase : s.run.phase with
    | scheduled => exact absurd hphase hbegun
    | _ => rfl
  refine ⟨hq, rfl, rfl, hdelivered, rfl, rfl, rfl, hstate, hhalting, hflags, ?_⟩
  rw [hstate]
  decide

/-- A run that is parked stays in its pause until it is released, and then goes on to its delay. -/
theorem parked_turned (hcancel : s.run.cancelling = false) {rest : Unit → Walk Int}
    (hphase : s.run.phase = .parked rest) (h : s.Paced flags) : s.Turned flags (s.act .turn) := by
  have hpaced := h
  rw [Paced, hphase] at h
  obtain ⟨hstate, hhalting, hflags⟩ := h
  cases hreleased : s.controller.released with
  | false =>
    rw [hreleased] at hstate
    rw [act_turn_of_parked hcancel hphase hreleased]
    exact ⟨rfl, rfl, rfl, hpaced, .stays rfl (.inl hstate)⟩
  | true =>
    rw [hreleased] at hstate
    have hturn : s.controller.turn s.run s.tree =
        s.controller.delay rest (s.run.scene s.tree) := by
      rw [Controller.turn, hphase, hcancel]
      dsimp only
      rw [if_pos hreleased, Controller.leavePause, if_neg (by simp [hhalting])]
    have hagree := Controller.agree_write
      (e := .slept (s.controller.settings.delay s.controller.speed)) rfl s.controller
    show s.Turned flags (s.moved (s.controller.turn s.run s.tree))
    rw [hturn]
    refine ⟨rfl, rfl, rfl, ⟨hstate, hhalting, hflags⟩, .passes hagree.told ?_ hstate rfl rfl ?_⟩
    · rw [delivered, delivered, hphase]
      rfl
    · rw [turnsLeft, turnsLeft, hphase]
      rfl

/-- **What a turn does**, if nobody halts or cancels the run. -/
theorem turned (hq : s.controller.Quiet) (hcancel : s.run.cancelling = false)
    (h : s.Paced flags) : s.Turned flags (s.act .turn) := by
  have hpaced := h
  have hadvance {c : Controller} {w : Walk Int} (hready : s.Ready flags c)
      (hturn : s.controller.turn s.run s.tree = Controller.advance w (s.run.scene s.tree) c)
      (hturns : s.turnsLeft = w.turnsToStep s.controller.settings.catalog (s.run.scene s.tree)) :
      s.Turned flags (s.act .turn) := by
    show s.Turned flags (s.moved (s.controller.turn s.run s.tree))
    rw [hturn]
    exact advance_turned hready hturns
  cases hphase : s.run.phase with
  | scheduled =>
    rw [Paced, hphase] at h
    refine hadvance (hpaced.ready_prepared hq hphase)
      (Controller.turn_of_scheduled hq h.1 hphase hcancel s.tree) ?_
    rw [turnsLeft, hphase]
  | delayed rest =>
    rw [Paced, hphase] at h
    refine hadvance (ready_self hq (by rw [hphase]; exact Phase.noConfusion) h) ?_
      (by rw [turnsLeft, hphase])
    rw [Controller.turn, hphase, hcancel]
    dsimp only
    rw [if_neg (by simp [h.2.1])]
  | waiting rest =>
    rw [Paced, hphase] at h
    refine hadvance (ready_self hq (by rw [hphase]; exact Phase.noConfusion) h) ?_
      (by rw [turnsLeft, hphase])
    rw [Controller.turn, hphase, hcancel]
  | parked rest => exact parked_turned hcancel hphase hpaced
  | finished ending =>
    have hover : s.run.isFinished = true := by rw [Run.isFinished, hphase]
    rw [act_turn_of_isFinished hover]
    exact ⟨rfl, rfl, rfl, hpaced, .stays rfl (.inr hover)⟩

end Turned

end Session

/-! ## What is asked for meanwhile -/

namespace Controller

/-- No control begins a pause, and to resume or to single-step ends it. -/
theorem applied_paused {control : Control} {c : Controller}
    (h : (c.applied control).state = .paused) :
    c.state = .paused ∧ control ≠ .resume ∧ control ≠ .singleStep := by
  unfold applied at h
  split at h
  · have hrunning : RunState.running = .paused := h
    exact absurd hrunning (by decide)
  · rename_i hkeeps
    rw [mark_state] at h
    exact ⟨h, fun hc => hkeeps ⟨h, .inl hc⟩, fun hc => hkeeps ⟨h, .inr hc⟩⟩

theorem requests_of_paused {control : Control} {c : Controller} (h : c.state = .paused)
    (hstep : control ≠ .singleStep) : c.requests control = false := by
  simp [requests, h, hstep]

end Controller

namespace Session

section Paced

variable {flags : List String} {s : Session}

theorem controller_ask (hq : s.controller.Quiet) (control : Control) :
    (s.act (.ask control)).controller = s.controller.applied control :=
  congrArg Prod.fst (Controller.apply_quiet hq control)

/-- To ask for something leaves the run where it is, or it ends a pause. -/
theorem Paced.ask {control : Control} (hq : s.controller.Quiet) (hhalt : control ≠ .halt)
    (h : s.Paced flags) : (s.act (.ask control)).Paced flags := by
  have hrun : (s.act (.ask control)).run = s.run := rfl
  have htree : (s.act (.ask control)).tree = s.tree := rfl
  unfold Paced at h ⊢
  rw [controller_ask hq, hrun, htree]
  obtain ⟨pauseNext, breakpoints, ignoring, speed, heq | ⟨hpaused, log, heq⟩⟩ :=
    Controller.applied_cases hhalt s.controller
  · rw [heq]
    exact h
  · rw [heq]
    have hrunning : s.controller.isRunning = true := by
      rw [Controller.isRunning, hpaused]
      rfl
    cases hphase : s.run.phase with
    | scheduled =>
      rw [hphase] at h
      exact absurd (hrunning.symm.trans h.1) Bool.noConfusion
    | delayed rest | waiting rest =>
      rw [hphase] at h
      exact absurd (hpaused.symm.trans h.1) (by decide)
    | parked rest =>
      rw [hphase] at h
      exact ⟨rfl, h.2⟩
    | finished ending =>
      rw [hphase] at h
      exact absurd (hrunning.symm.trans h) Bool.noConfusion

/-- A run that is paused is parked, and nobody released it. -/
theorem Paced.parked (h : s.Paced flags)
    (hpaused : s.controller.state = .paused) :
    (∃ rest, s.run.phase = .parked rest) ∧ s.controller.released = false := by
  have hrunning : s.controller.isRunning = true := by
    rw [Controller.isRunning, hpaused]
    rfl
  unfold Paced at h
  cases hphase : s.run.phase with
  | parked rest =>
    rw [hphase] at h
    refine ⟨⟨rest, rfl⟩, ?_⟩
    cases hreleased : s.controller.released with
    | false => rfl
    | true =>
      rw [hreleased, hpaused] at h
      exact absurd h.1 (by decide)
  | scheduled =>
    rw [hphase] at h
    exact absurd (hrunning.symm.trans h.1) Bool.noConfusion
  | delayed rest | waiting rest =>
    rw [hphase] at h
    exact absurd (hpaused.symm.trans h.1) (by decide)
  | finished ending =>
    rw [hphase] at h
    exact absurd (hrunning.symm.trans h) Bool.noConfusion

theorem Paced.not_finished (h : s.Paced flags) (hstate : s.controller.state = .running) :
    s.run.isFinished = false := by
  unfold Run.isFinished
  cases hphase : s.run.phase with
  | finished ending =>
    rw [Paced, hphase] at h
    exact absurd hstate (Controller.state_of_idle h).1
  | _ => rfl

theorem turnsLeft_pos (h : s.run.isFinished = false) : 0 < s.turnsLeft := by
  unfold turnsLeft
  dsimp only
  cases hphase : s.run.phase with
  | scheduled | delayed _ | waiting _ => exact Walk.turnsToStep_pos _ _ _
  | parked _ => exact Nat.succ_pos _
  | finished ending =>
    rw [Run.isFinished, hphase] at h
    exact Bool.noConfusion h

end Paced

end Session

end BlockCalculus
