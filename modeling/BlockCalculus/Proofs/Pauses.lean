import BlockCalculus.Proofs.Pace
import Mathlib.Data.List.Induction

/-!
# Pauses happen where they were asked for

A run pauses after a step exactly if that was asked for by the time the step is reported: there is a
breakpoint at its block and breakpoints are not ignored, or a pause at the next step was requested
(`Session.Due`). What was asked for is read off the history, not off the controller: the last word
on a breakpoint counts, and a request counts until there is a pause (`Session.Pending`).

* `Session.pending_concat`: a request stays pending until there is a pause.
* `Session.heeds_after`: whatever happened, what the controller goes by is what was asked for.
* `Session.Stepping.after`: after a request to single-step in a pause, one more step is reported by
  the next pause.

`pauses_exactly_where_asked` puts this together. Nobody halts the run, and observers are quiet.
-/

namespace BlockCalculus

/-- What is asked for, if anything is. -/
def Act.control? : Act → Option Control
  | .ask control => some control
  | .turn => none

namespace Session

/-! ## What is due -/

/-- Whether there is a breakpoint at a block by what was asked for: the last word on it counts. -/
def breaksAt (s₀ : Session) (acts : List Act) (id : String) : Bool :=
  (latest? (fun a => a.control?.bind (Control.breakpointAt? id)) acts).getD
    (s₀.controller.breakpoints.contains id)

/-- Whether breakpoints are ignored by what was asked for. -/
def ignores (s₀ : Session) (acts : List Act) : Bool :=
  (latest? (fun a => a.control?.bind Control.ignoring?) acts).getD s₀.controller.ignoring

/-- Whether an act is a request for a pause at the next step. -/
def requests (s : Session) : Act → Bool
  | .ask control => s.controller.requests control
  | .turn => false

/-- There was a request for a pause at the next step, before the run or since, and there was no
pause after it. -/
def Pending (s₀ : Session) (acts : List Act) : Prop :=
  (s₀.controller.pauseNext = true ∧
      ∀ past, past <+: acts → (s₀.after past).controller.state ≠ .paused) ∨
    ∃ before a since, acts = before ++ a :: since ∧ (s₀.after before).requests a = true ∧
      ∀ past, past <+: since → (s₀.after (before ++ a :: past)).controller.state ≠ .paused

/-- A pause is due after a step of a block: there is a breakpoint at it that is not ignored, set by
request or in the tree as it was in the beginning, or a request for a pause is pending. -/
def Due (s₀ : Session) (acts : List Act) (id : String) : Prop :=
  ((s₀.breaksAt acts id = true ∨ id ∈ s₀.tree.breakpoints) ∧ s₀.ignores acts = false) ∨
    s₀.Pending acts

theorem after_concat (s : Session) (acts : List Act) (a : Act) :
    s.after (acts ++ [a]) = (s.after acts).act a := by
  simp [after]

theorem Pending.not_paused {s₀ : Session} {acts : List Act} (h : s₀.Pending acts) :
    (s₀.after acts).controller.state ≠ .paused := by
  obtain ⟨-, hnone⟩ | ⟨before, a, since, rfl, -, hnone⟩ := h
  · exact hnone acts (List.prefix_refl acts)
  · exact hnone since (List.prefix_refl since)

/-- **A request stays pending until there is a pause.** -/
theorem pending_concat (s₀ : Session) (acts : List Act) (a : Act) :
    s₀.Pending (acts ++ [a]) ↔
      (s₀.after (acts ++ [a])).controller.state ≠ .paused ∧
        (s₀.Pending acts ∨ (s₀.after acts).requests a = true) := by
  constructor
  · intro h
    refine ⟨h.not_paused, ?_⟩
    obtain ⟨hfirst, hnone⟩ | ⟨before, a', since, heq, hrequest, hnone⟩ := h
    · exact .inl (.inl ⟨hfirst, fun past hpast => hnone past (hpast.trans (acts.prefix_append [a]))⟩)
    · -- The request is the last act, or it came before.
      obtain rfl | ⟨since', a'', rfl⟩ := List.eq_nil_or_concat since
      · obtain ⟨rfl, ha⟩ := List.append_inj' heq rfl
        obtain rfl : a = a' := List.cons.inj ha |>.1
        exact .inr hrequest
      · simp only [List.concat_eq_append] at heq hnone
        rw [← List.cons_append, ← List.append_assoc] at heq
        obtain ⟨rfl, -⟩ := List.append_inj' heq rfl
        refine .inl (.inr ⟨before, a', since', rfl, hrequest, fun past hpast => ?_⟩)
        exact hnone past (hpast.trans (since'.prefix_append [a'']))
  · rintro ⟨hstate, (⟨hfirst, hnone⟩ | ⟨before, a', since, rfl, hrequest, hnone⟩) | hrequest⟩
    · refine .inl ⟨hfirst, fun past hpast => ?_⟩
      obtain rfl | hpast := List.prefix_concat_iff.mp hpast
      · exact hstate
      · exact hnone past hpast
    · refine .inr ⟨before, a', since ++ [a], by simp, hrequest, fun past hpast => ?_⟩
      obtain rfl | hpast := List.prefix_concat_iff.mp hpast
      · simpa using hstate
      · exact hnone past hpast
    · refine .inr ⟨acts, a, [], rfl, hrequest, fun past hpast => ?_⟩
      rw [List.prefix_nil.mp hpast]
      exact hstate

/-! ## Whatever is asked for -/

/-- What the controller goes by at a step is what was asked for. -/
structure Heeds (s₀ : Session) (acts : List Act) (s : Session) : Prop where
  settings : s.controller.settings = s₀.controller.settings
  cancelling : s.run.cancelling = false
  paced : s.Paced s₀.tree.breakpoints
  breakpoints : ∀ id, s.controller.breakpoints.contains id = s₀.breaksAt acts id
  ignoring : s.run.isFinished = false → s.controller.ignoring = s₀.ignores acts
  pending : s.run.isFinished = false → (s.controller.pauseNext = true ↔ s₀.Pending acts)

section Heeds

variable {s₀ s : Session} {acts : List Act}

theorem Heeds.quiet (h : s₀.Heeds acts s) (hq : s₀.controller.Quiet) : s.controller.Quiet := by
  unfold Controller.Quiet
  rw [h.settings]
  exact hq

/-- **Whatever is asked for is heeded**, unless it is to halt. -/
theorem heeds_ask (hq : s₀.controller.Quiet) (h : s₀.Heeds acts (s₀.after acts))
    {control : Control} (hhalt : control ≠ .halt) :
    s₀.Heeds (acts ++ [.ask control]) (s₀.after (acts ++ [.ask control])) := by
  have hquiet := h.quiet hq
  have hpending := pending_concat s₀ acts (.ask control)
  have hnot : s₀.Pending acts → (s₀.after acts).controller.state ≠ .paused := Pending.not_paused
  rw [after_concat] at hpending ⊢
  generalize s₀.after acts = s at h hquiet hpending hnot
  obtain ⟨hbreakpoints, hignoring, hpauseNext⟩ :=
    Controller.applied_asked control s.controller
  have hc := controller_ask hquiet control
  refine ⟨?_, h.cancelling, h.paced.ask hquiet hhalt, fun id => ?_, fun hlive => ?_,
    fun hlive => ?_⟩
  · rw [hc, (Controller.applied_report control s.controller).1]
    exact h.settings
  · rw [hc, hbreakpoints, Controller.contains_mark, h.breakpoints]
    simp [breaksAt, Act.control?, Option.getD_or]
  · rw [hc, hignoring, Controller.ignoring_mark, h.ignoring hlive]
    simp [ignores, Act.control?, Option.getD_or]
  · rw [hpending, hc, hpauseNext, Controller.pauseNext_mark (.inl hhalt), Bool.or_eq_true,
      h.pending hlive, or_comm]
    refine (and_iff_right_of_imp fun hasked => ?_).symm
    -- What is asked for in a pause, and does not end it, is no request.
    intro hpaused
    obtain ⟨hstate, -, hstep⟩ := Controller.applied_paused hpaused
    have hrequest : s.controller.requests control ≠ true :=
      Bool.eq_false_iff.mp (Controller.requests_of_paused hstate hstep)
    exact hasked.elim (fun hp => hnot hp hstate) hrequest

/-- **A turn heeds what was asked for.** -/
theorem heeds_turn (hq : s₀.controller.Quiet) (h : s₀.Heeds acts (s₀.after acts)) :
    s₀.Heeds (acts ++ [.turn]) (s₀.after (acts ++ [.turn])) := by
  have hturned := turned (h.quiet hq) h.cancelling h.paced
  have hpending := pending_concat s₀ acts .turn
  have hnot : s₀.Pending acts → (s₀.after acts).controller.state ≠ .paused := Pending.not_paused
  rw [after_concat] at hpending ⊢
  generalize s₀.after acts = s at h hpending hnot hturned
  have hpending : s₀.Pending (acts ++ [.turn]) ↔
      (s.act .turn).controller.state ≠ .paused ∧ s₀.Pending acts := by
    simpa [requests] using hpending
  have hbreaks (id : String) : s₀.breaksAt (acts ++ [.turn]) id = s₀.breaksAt acts id := by
    simp [breaksAt, Act.control?]
  have hignores : s₀.ignores (acts ++ [.turn]) = s₀.ignores acts := by
    simp [ignores, Act.control?]
  have hlive : (s.act .turn).run.isFinished = false → s.run.isFinished = false ∧
      (s.act .turn).controller.ignoring = s.controller.ignoring ∧
      ((s.act .turn).controller.pauseNext = true ↔
        (s.act .turn).controller.state ≠ .paused ∧ s.controller.pauseNext = true) := by
    intro hlive
    have hbefore := not_isFinished_of_act_turn hlive
    refine ⟨hbefore, ?_⟩
    cases hturned.moves with
    | stays same still =>
      rw [same]
      exact ⟨rfl, (and_iff_right_of_imp fun hp => hnot ((h.pending hbefore).mp hp)).symm⟩
    | passes _ _ state pauseNext ignoring _ =>
      refine ⟨ignoring, ?_⟩
      rw [pauseNext, state]
      exact (and_iff_right (by decide)).symm
    | ends _ _ _ ending phase _ =>
      rw [Run.isFinished, phase] at hlive
      exact Bool.noConfusion hlive
    | steps _ b result _ _ _ paused pauseNext ignoring =>
      refine ⟨ignoring, ?_⟩
      rw [pauseNext]
      refine ⟨fun hp => Bool.noConfusion hp, fun hp => absurd (paused.mpr ?_) hp.1⟩
      rw [hp.2, Bool.or_true]
  refine ⟨hturned.settings.trans h.settings, hturned.cancelling.trans h.cancelling,
    hturned.paced, fun id => ?_, fun hover => ?_, fun hover => ?_⟩
  · rw [hturned.breakpoints, hbreaks]
    exact h.breakpoints id
  · obtain ⟨hbefore, hsame, -⟩ := hlive hover
    rw [hsame, hignores]
    exact h.ignoring hbefore
  · obtain ⟨hbefore, -, hsame⟩ := hlive hover
    rw [hsame, hpending, h.pending hbefore]

/-- **Whatever happens, what was asked for is heeded.** The induction is on the history, act by
act. -/
theorem heeds_after {c₀ : Controller} (hidle : c₀.isRunning = false) (hq : c₀.Quiet) (tree : Block)
    (inputs : List Int) (speed : Option Speed) {acts : List Act} (hacts : .ask .halt ∉ acts) :
    let s₀ := scheduled c₀ tree inputs speed
    s₀.Heeds acts (s₀.after acts) := by
  intro s₀
  induction acts using List.reverseRecOn with
  | nil =>
    have hroot : (s₀.run.scene s₀.tree).now s₀.run.root = tree := by
      show (⟨tree, []⟩ : Scene).now ⟨[], tree⟩ = tree
      rw [Scene.now, Scene.inPlace?, Block.at?_nil, Option.filter_some, beq_self_eq_true, if_pos rfl]
    refine ⟨rfl, rfl, ⟨hidle, congrArg Block.breakpoints hroot⟩, fun _ => rfl, fun _ => rfl,
      fun _ => ?_⟩
    constructor
    · intro hp
      refine .inl ⟨hp, fun past hpast hpaused => ?_⟩
      rw [List.prefix_nil.mp hpast] at hpaused
      exact (Controller.state_of_idle hidle).2 hpaused
    · rintro (⟨hp, -⟩ | ⟨before, a, since, heq, -⟩)
      · exact hp
      · exact absurd heq (by simp)
  | append_singleton acts a ih =>
    have hpast := ih fun hmem => hacts (List.mem_append_left _ hmem)
    cases a with
    | ask control =>
      refine heeds_ask hq hpast fun hhalt => hacts ?_
      rw [hhalt]
      exact List.mem_append_right _ (List.mem_singleton_self _)
    | turn => exact heeds_turn hq hpast

end Heeds

/-! ## Single steps -/

/-- The run is on its way from step `k` to a pause after the next one, or it is over. -/
structure Stepping (flags : List String) (k : Nat) (told : List (String × Notice)) (s : Session) :
    Prop where
  quiet : s.controller.Quiet
  cancelling : s.run.cancelling = false
  paced : s.Paced flags
  unpaused : s.controller.state ≠ .paused
  told : s.controller.stepsTold = told
  delivered : s.delivered = k
  requested : s.run.isFinished = false → s.controller.pauseNext = true
  ended : ∀ ending, s.run.phase = .finished ending → ending.OfEvaluation

/-- One more step was reported, and the run is paused at its block. -/
def SteppedOn (k : Nat) (told : List (String × Notice)) (s : Session) : Prop :=
  s.controller.state = .paused ∧ s.delivered = k + 1 ∧
    ∃ b result, s.controller.highlight = some b.head.id ∧
      s.controller.stepsTold = told ++ s.controller.settings.heard [.step (k + 1) b result]

section Stepping

variable {flags : List String} {k : Nat} {told : List (String × Notice)} {s : Session}

/-- To ask for something does not keep a run from its next step. -/
theorem Stepping.ask (h : s.Stepping flags k told) {control : Control} (hhalt : control ≠ .halt) :
    (s.act (.ask control)).Stepping flags k told ∧
      (s.act (.ask control)).turnsLeft = s.turnsLeft := by
  have hc := controller_ask h.quiet control
  have hpaced := h.paced.ask h.quiet hhalt
  have hrequested : s.run.isFinished = false → (s.controller.applied control).pauseNext = true := by
    intro hlive
    obtain ⟨-, -, hpauseNext⟩ := Controller.applied_asked control s.controller
    rw [hpauseNext, Controller.pauseNext_mark (.inl hhalt), h.requested hlive, Bool.or_true]
  obtain ⟨pauseNext, breakpoints, ignoring, speed, heq | ⟨hpaused, -⟩⟩ :=
    Controller.applied_cases hhalt s.controller
  · rw [heq] at hc hrequested
    have hact : s.act (.ask control) =
        { s with controller := { s.controller with pauseNext, breakpoints, ignoring, speed } } :=
      congrArg (fun c => { s with controller := c }) hc
    rw [hact] at hpaced ⊢
    exact ⟨⟨h.quiet, h.cancelling, hpaced, h.unpaused, h.told, h.delivered, hrequested, h.ended⟩, rfl⟩
  · exact absurd hpaused h.unpaused

/-- **A run that was asked to single-step gets to its next step and pauses, or to its end.** -/
theorem Stepping.turn (h : s.Stepping flags k told) :
    ((s.act .turn).Stepping flags k told ∧
        ((s.act .turn).run.isFinished = false → (s.act .turn).turnsLeft + 1 = s.turnsLeft)) ∨
      (s.act .turn).SteppedOn k told := by
  have hturned := turned h.quiet h.cancelling h.paced
  have hquiet : (s.act .turn).controller.Quiet := by
    unfold Controller.Quiet
    rw [hturned.settings]
    exact h.quiet
  have hcancel := hturned.cancelling.trans h.cancelling
  cases hturned.moves with
  | stays same still =>
    rw [same]
    refine .inl ⟨h, fun hlive => ?_⟩
    have hover := still.resolve_left h.unpaused
    exact absurd (hlive.symm.trans hover) Bool.noConfusion
  | passes htold hdelivered hstate hpauseNext _ hturns =>
    have hlive := hturned.paced.not_finished hstate
    have hbefore := not_isFinished_of_act_turn hlive
    refine .inl ⟨⟨hquiet, hcancel, hturned.paced, by rw [hstate]; decide, htold.trans h.told,
      hdelivered.trans h.delivered, fun _ => hpauseNext.trans (h.requested hbefore),
      fun ending hphase => ?_⟩, fun _ => hturns.symm⟩
    rw [Run.isFinished, hphase] at hlive
    exact Bool.noConfusion hlive
  | ends htold hdelivered hidle ending hphase hown =>
    have hover : (s.act .turn).run.isFinished = true := by rw [Run.isFinished, hphase]
    refine .inl ⟨⟨hquiet, hcancel, hturned.paced, (Controller.state_of_idle hidle).2,
      htold.trans h.told, hdelivered.trans h.delivered,
      fun hlive => absurd (hlive.symm.trans hover) Bool.noConfusion, fun ending' hphase' => ?_⟩,
      fun hlive => absurd (hlive.symm.trans hover) Bool.noConfusion⟩
    obtain rfl : ending = ending' := Phase.finished.inj (hphase.symm.trans hphase')
    exact hown
  | steps _ b result htold hdelivered hlight hpaused _ _ =>
    have hbefore := not_isFinished_of_delivered hdelivered
    refine .inr ⟨hpaused.mpr ?_, ?_, b, result, hlight, ?_⟩
    · rw [h.requested hbefore, Bool.or_true]
    · rw [hdelivered, h.delivered]
    · rw [htold, h.told, h.delivered, hturned.settings]

/-- **From one pause to the next one, a run that was asked to single-step reports one step.** Until
it is paused again it reports none, and if it gets the turns that this takes, it is over. -/
theorem Stepping.after (h : s.Stepping flags k told) {more : List Act} (hmore : .ask .halt ∉ more)
    (hbetween : ∀ past, past <+: more → past ≠ more → (s.after past).controller.state ≠ .paused) :
    ((s.after more).Stepping flags k told ∧
        ((s.after more).run.isFinished = false →
          (s.after more).turnsLeft + more.count .turn = s.turnsLeft)) ∨
      (s.after more).SteppedOn k told := by
  induction more generalizing s with
  | nil => exact .inl ⟨h, fun _ => rfl⟩
  | cons a rest ih =>
    have hrest : .ask .halt ∉ rest := fun hmem => hmore (List.mem_cons_of_mem a hmem)
    have hbetween' : ∀ past, past <+: rest → past ≠ rest →
        ((s.act a).after past).controller.state ≠ .paused := by
      intro past hpast hne
      refine hbetween (a :: past) (List.prefix_cons_inj a |>.mpr hpast) fun heq => hne ?_
      exact (List.cons.inj heq).2
    cases a with
    | ask control =>
      have hhalt : control ≠ .halt := by
        rintro rfl
        exact hmore List.mem_cons_self
      obtain ⟨hstepping, hturns⟩ := h.ask hhalt
      obtain ⟨hstepping', hturns'⟩ | hstepped := ih hstepping hrest hbetween'
      · refine .inl ⟨hstepping', fun hlive => ?_⟩
        rw [List.count_cons_of_ne (by simp), ← hturns]
        exact hturns' hlive
      · exact .inr hstepped
    | turn =>
      obtain ⟨hstepping, hturns⟩ | hstepped := h.turn
      · obtain ⟨hstepping', hturns'⟩ | hstepped := ih hstepping hrest hbetween'
        · refine .inl ⟨hstepping', fun hlive => ?_⟩
          have hbefore : (s.act .turn).run.isFinished = false := by
            refine Bool.eq_false_iff.mpr fun hover => ?_
            exact absurd ((isFinished_after hover rest).symm.trans hlive) Bool.noConfusion
          have hlater : ((s.act .turn).after rest).turnsLeft + rest.count .turn =
              (s.act .turn).turnsLeft := hturns' hlive
          rw [List.count_cons_self, ← hturns hbefore, ← hlater, Nat.add_assoc]
          rfl
        · exact .inr hstepped
      · -- The pause is the end of it.
        cases rest with
        | nil => exact .inr hstepped
        | cons a rest =>
          refine absurd hstepped.1 (hbetween [.turn] (List.prefix_append _ _) ?_)
          simp

end Stepping

/-! ## Pauses -/

/-- The steps of the evaluation that the run is about. -/
def stepsAlone (s₀ : Session) : List Step :=
  (s₀.tree.evaluateStepped s₀.controller.settings.catalog s₀.controller.settings.options none
    s₀.run.inputs).steps

/-- No step is reported and no pause begins. -/
def Silent (s s' : Session) : Prop :=
  s'.controller.stepsTold = s.controller.stepsTold ∧ s'.delivered = s.delivered ∧
    (s'.controller.state = .paused → s.controller.state = .paused)

/-- What can be seen of the pauses of a run after some acts. -/
structure PausesAsAsked (s₀ : Session) (acts : List Act) : Prop where
  /-- Whatever is asked for, no step is reported and no pause begins. -/
  ask : ∀ control, control ≠ .halt → (s₀.after acts).Silent ((s₀.after acts).act (.ask control))
  /-- A turn reports no step and begins no pause. Or it reports one step, whose block the controller
  shows then, and the run is paused exactly if a pause is due after the step of that block. -/
  turn : let s := s₀.after acts
    let s' := s.act .turn
    s.Silent s' ∨ s.controller.state ≠ .paused ∧ ∃ b result,
      s'.controller.stepsTold =
        s.controller.stepsTold ++ s.controller.settings.heard [.step (s.delivered + 1) b result] ∧
      s'.delivered = s.delivered + 1 ∧ s'.controller.highlight = some b.head.id ∧
      (s'.controller.state = .paused ↔ s₀.Due acts b.head.id)
  /-- In a pause a turn changes nothing. -/
  paused : (s₀.after acts).controller.state = .paused →
    (s₀.after acts).act .turn = s₀.after acts
  /-- Somebody asks to single-step in a pause. By the next pause one more step is reported, until
  then none. After enough turns without a pause the evaluation is over. -/
  singleStep : let s := s₀.after acts
    let s' := s.act (.ask .singleStep)
    s.controller.state = .paused → ∃ turns, ∀ more, .ask .halt ∉ more →
      (∀ past, past <+: more → past ≠ more → (s'.after past).controller.state ≠ .paused) →
      ((s'.after more).controller.state = .paused →
        (s'.after more).SteppedOn s.delivered s.controller.stepsTold) ∧
      ((s'.after more).controller.state ≠ .paused →
        (s'.after more).delivered = s.delivered ∧
          (s'.after more).controller.stepsTold = s.controller.stepsTold ∧
          (turns ≤ more.count .turn →
            ∃ ending, (s'.after more).run.phase = .finished ending ∧ ending.OfEvaluation))
  /-- If no rule waits, the steps that are reported are those of the evaluation, by number, and all
  of them once the run is over. -/
  evaluated : s₀.controller.settings.catalog.Prompt →
    (s₀.after acts).delivered ≤ s₀.stepsAlone.length ∧
      (s₀.after acts).controller.stepsTold =
        s₀.controller.stepsTold ++ s₀.controller.settings.heard
          ((Step.notices s₀.controller.settings.options.trace 1 s₀.stepsAlone s₀.tree).take
            (s₀.after acts).delivered) ∧
      ((s₀.after acts).run.isFinished = true →
        (s₀.after acts).delivered = s₀.stepsAlone.length)

section PausesAsAsked

variable {s₀ : Session} {acts : List Act}

theorem Heeds.silent_ask {s : Session} (h : s₀.Heeds acts s) (hq : s₀.controller.Quiet)
    (control : Control) : s.Silent (s.act (.ask control)) := by
  obtain ⟨-, hsteps, htold, -⟩ := Controller.applied_report control s.controller
  have hc := controller_ask (h.quiet hq) control
  refine ⟨?_, ?_, ?_⟩
  · rw [hc, htold]
  · unfold delivered
    rw [hc, hsteps]
    rfl
  · rw [hc]
    exact fun hpaused => (Controller.applied_paused hpaused).1

/-- A pause is due by what the controller goes by exactly if it is due by what was asked for. -/
theorem Heeds.due_iff {s : Session} (h : s₀.Heeds acts s) (hlive : s.run.isFinished = false)
    (id : String) :
    ((s.controller.breakpoints.contains id || s₀.tree.breakpoints.contains id) &&
      !s.controller.ignoring || s.controller.pauseNext) = true ↔ s₀.Due acts id := by
  rw [Bool.or_eq_true, h.pending hlive, Bool.and_eq_true, Bool.or_eq_true, h.breakpoints,
    List.contains_iff_mem, h.ignoring hlive, Bool.not_eq_true']
  rfl

theorem Heeds.turn {s : Session} (h : s₀.Heeds acts s) (hq : s₀.controller.Quiet) :
    s.Silent (s.act .turn) ∨ s.controller.state ≠ .paused ∧ ∃ b result,
      (s.act .turn).controller.stepsTold =
        s.controller.stepsTold ++ s.controller.settings.heard [.step (s.delivered + 1) b result] ∧
      (s.act .turn).delivered = s.delivered + 1 ∧
      (s.act .turn).controller.highlight = some b.head.id ∧
      ((s.act .turn).controller.state = .paused ↔ s₀.Due acts b.head.id) := by
  have hturned := turned (h.quiet hq) h.cancelling h.paced
  cases hturned.moves with
  | stays same _ =>
    rw [same]
    exact .inl ⟨rfl, rfl, id⟩
  | passes told delivered state _ _ _ =>
    refine .inl ⟨told, delivered, fun hpaused => ?_⟩
    rw [state] at hpaused
    exact absurd hpaused (by decide)
  | ends told delivered idle _ _ _ =>
    exact .inl ⟨told, delivered, fun hpaused => absurd hpaused (Controller.state_of_idle idle).2⟩
  | steps unpaused b result told delivered highlight paused _ _ =>
    have hlive := not_isFinished_of_delivered delivered
    exact .inr ⟨unpaused, b, result, told, delivered, highlight,
      paused.trans (h.due_iff hlive b.head.id)⟩

/-- To single-step in a pause sets the run on its way to the next step. -/
theorem Heeds.stepping {s : Session} (h : s₀.Heeds acts s) (hq : s₀.controller.Quiet)
    (hpaused : s.controller.state = .paused) :
    (s.act (.ask .singleStep)).Stepping s₀.tree.breakpoints s.delivered s.controller.stepsTold := by
  have hquiet := h.quiet hq
  have hc := controller_ask hquiet .singleStep
  obtain ⟨htold, hdelivered, -⟩ := h.silent_ask hq .singleStep
  obtain ⟨⟨rest, hphase⟩, -⟩ := h.paced.parked hpaused
  have hhalt : Control.singleStep ≠ .halt := by decide
  refine ⟨?_, h.cancelling, h.paced.ask hquiet hhalt, fun hstill => ?_, htold, hdelivered,
    fun _ => ?_, fun ending hover => ?_⟩
  · unfold Controller.Quiet
    rw [hc, (Controller.applied_report .singleStep s.controller).1]
    exact hquiet
  · rw [hc] at hstill
    exact (Controller.applied_paused hstill).2.2 rfl
  · rw [hc, (Controller.applied_asked .singleStep s.controller).2.2]
    rfl
  · exact absurd (hphase.symm.trans hover) Phase.noConfusion

/-- **A single step in a pause is one step.** -/
theorem Stepping.between {flags : List String} {k : Nat} {told : List (String × Notice)}
    {s : Session} (h : s.Stepping flags k told) {more : List Act} (hmore : .ask .halt ∉ more)
    (hbetween : ∀ past, past <+: more → past ≠ more → (s.after past).controller.state ≠ .paused) :
    ((s.after more).controller.state = .paused → (s.after more).SteppedOn k told) ∧
      ((s.after more).controller.state ≠ .paused →
        (s.after more).delivered = k ∧ (s.after more).controller.stepsTold = told ∧
          (s.turnsLeft ≤ more.count .turn →
            ∃ ending, (s.after more).run.phase = .finished ending ∧ ending.OfEvaluation)) := by
  obtain ⟨hstepping, hturns⟩ | hstepped := h.after hmore hbetween
  · refine ⟨fun hpaused => absurd hpaused hstepping.unpaused, fun _ =>
      ⟨hstepping.delivered, hstepping.told, fun henough => ?_⟩⟩
    -- The turns are used up, so the run is over.
    cases hphase : (s.after more).run.phase with
    | finished ending => exact ⟨ending, rfl, hstepping.ended ending hphase⟩
    | _ =>
      have hlive : (s.after more).run.isFinished = false := by rw [Run.isFinished, hphase]
      have hleft := turnsLeft_pos hlive
      have hused := hturns hlive
      omega
  · exact ⟨fun _ => hstepped, fun hnot => absurd hstepped.1 hnot⟩

end PausesAsAsked

/-- The steps that are reported are those of the evaluation, if no rule waits and nobody halts the
run. -/
theorem evaluated_after {c₀ : Controller} (hidle : c₀.isRunning = false) (hq : c₀.Quiet)
    (hp : c₀.settings.catalog.Prompt) (tree : Block) (inputs : List Int) (speed : Option Speed)
    {acts : List Act} (hacts : .ask .halt ∉ acts) :
    let s₀ := scheduled c₀ tree inputs speed
    (s₀.after acts).delivered ≤ s₀.stepsAlone.length ∧
      (s₀.after acts).controller.stepsTold =
        c₀.stepsTold ++ c₀.settings.heard
          ((Step.notices c₀.settings.options.trace 1 s₀.stepsAlone tree).take
            (s₀.after acts).delivered) ∧
      ((s₀.after acts).run.isFinished = true →
        (s₀.after acts).delivered = s₀.stepsAlone.length) := by
  intro s₀
  have hstart : s₀.Tracks c₀ tree inputs False := ⟨rfl, rfl, rfl, rfl, rfl, rfl, hidle, rfl⟩
  have hphase := ((tracks_after hq hp acts hstart).mono
    fun hasked => hasked.elim id (fun hmem => hacts hmem)).phase
  have halone : s₀.stepsAlone = (tree.walk c₀.settings.options inputs).steps c₀.settings.catalog :=
    congrArg Walk.Stepped.steps (Block.evaluateStepped_eq _ _ tree inputs)
  rw [halone]
  unfold delivered Run.isFinished
  generalize s₀.after acts = s at hphase
  cases hph : s.run.phase with
  | scheduled =>
    rw [hph] at hphase
    refine ⟨Nat.zero_le _, ?_, fun hover => Bool.noConfusion hover⟩
    rw [hphase.2.2.2, List.take_zero, Settings.heard, List.flatMap_nil, List.append_nil]
  | delayed rest | parked rest =>
    rw [hph] at hphase
    obtain ⟨-, taken, hr, hg⟩ := hphase
    obtain ⟨hle, htold⟩ := hr.told_take hg.steps
    dsimp only
    rw [hr.steps]
    exact ⟨hle, htold, fun hover => Bool.noConfusion hover⟩
  | waiting rest =>
    rw [hph] at hphase
    exact hphase.elim
  | finished ending =>
    rw [hph] at hphase
    obtain ⟨taken, hr, hending⟩ := hphase
    have hall : taken = (tree.walk c₀.settings.options inputs).steps c₀.settings.catalog := by
      cases ending with
      | value n => exact hending.1
      | failed f => exact hending.1
      | halted => exact hending.1.elim
      | cancelled => exact hending.elim
    obtain ⟨hle, htold⟩ := hr.told_take (hall.symm.trans (List.append_nil _).symm)
    dsimp only
    rw [hr.steps]
    refine ⟨hle, htold, fun _ => ?_⟩
    rw [← hall]

/-- **Pauses happen exactly where they were asked for**, whatever is asked of the controller before
the run and between its turns, in whatever order, unless it is to halt. -/
theorem pauses_exactly_where_asked {c₀ : Controller} (hidle : c₀.isRunning = false)
    (hq : c₀.Quiet) (tree : Block) (inputs : List Int) (speed : Option Speed) {acts : List Act}
    (hacts : .ask .halt ∉ acts) : (scheduled c₀ tree inputs speed).PausesAsAsked acts := by
  have hheeds := heeds_after hidle hq tree inputs speed hacts
  dsimp only at hheeds
  refine ⟨fun control _ => hheeds.silent_ask hq control, hheeds.turn hq, fun hpaused => ?_,
    fun hpaused => ?_, fun hp => ?_⟩
  · obtain ⟨⟨rest, hphase⟩, hheld⟩ := hheeds.paced.parked hpaused
    exact act_turn_of_parked hheeds.cancelling hphase hheld
  · exact ⟨_, fun more hmore hbetween => (hheeds.stepping hq hpaused).between hmore hbetween⟩
  · exact evaluated_after hidle hq hp tree inputs speed hacts

/-- Single-stepped before it began, a run is paused after its first step. It is resumed, and asked to
pause before it wakes up, and a breakpoint is set: so it is paused after its second step, and then,
resumed once more, at the breakpoint. -/
theorem pauses_exactly_where_asked_plus :
    let c₀ : Controller := { settings := { observers := [{ label := "watch" }] } }
    let acts : List Act :=
      [.ask .singleStep, .turn, .ask .resume, .ask .pause, .ask (.setBreakpoint "successor" true),
        .turn, .turn, .ask .resume, .turn, .turn, .turn]
    let s₀ := scheduled c₀ .plus [2, 1] none
    let pauses (n : Nat) : Bool := (s₀.after (acts.take n)).controller.state == .paused
    c₀.isRunning = false ∧ c₀.Quiet ∧ .ask .halt ∉ acts ∧ s₀.PausesAsAsked acts ∧
      (List.range 12).filter pauses = [2, 7, 11] := by
  intro c₀ acts s₀ pauses
  have hquiet : c₀.Quiet := by
    intro o ho past n
    rw [List.mem_singleton.mp ho]
  have hacts : .ask .halt ∉ acts := by decide
  exact ⟨rfl, hquiet, hacts, pauses_exactly_where_asked rfl hquiet .plus [2, 1] none hacts,
    by decide +kernel⟩

end Session

end BlockCalculus
