import BlockCalculus.Proofs.History
import BlockCalculus.Proofs.Twins

/-!
# Runs are isolated from each other

A run goes as it would go on a new controller, whatever happened on the controller before: runs that
were completed, halted, cancelled or failed, at any point, and whatever was asked for meanwhile. Of
the past there remain the breakpoints that were asked for, and the requests to single-step and to
ignore breakpoints since the last run ended.

Before the run begins, the two controllers agree on just that (`Controller.Akin`). All else is set
anew when it begins, so then they are twins (`Akin.prepared`). `Session.Paired` says both of two
sessions, and whatever happens preserves it (`Paired.ask`, `Paired.turn`, `Paired.after`).

`runs_are_isolated` is the result. Observers are quiet.
-/

namespace BlockCalculus

/-! ## Before a run begins -/

/-- Whether a control that is asked for between runs makes a difference to the next run only. -/
def Control.isKept : Control → Bool
  | .singleStep | .ignoreBreakpoints _ => true
  | _ => false

namespace Controller

/-- The controller after some controls were asked for. -/
def replayed (controls : List Control) (c : Controller) : Controller :=
  controls.foldl (fun c control => (c.apply control).1) c

/-- Two idle controllers that agree on what a run begins with. -/
structure Akin (past past' : List LogEntry) (c c' : Controller) : Prop where
  idle : c.isRunning = false ∧ c'.isRunning = false
  settings : c'.settings = c.settings
  breakpoints : ∀ id, c'.breakpoints.contains id = c.breakpoints.contains id
  ignoring : c'.ignoring = c.ignoring
  pauseNext : c'.pauseNext = c.pauseNext
  highlight : c'.highlight = c.highlight
  events : c.events = past ∧ c'.events = past'

section Akin

variable {past past' : List LogEntry} {c c' : Controller}

theorem mark_of_idle (h : c.isRunning = false) (control : Control) :
    (c.mark control).highlight = c.highlight ∧ (c.mark control).events = c.events := by
  obtain ⟨_, _, _, _, heq⟩ | ⟨-, hrunning, -⟩ := mark_cases control c
  · rw [heq]
    exact ⟨rfl, rfl⟩
  · exact absurd (hrunning.symm.trans h) Bool.noConfusion

/-- **Whatever is asked for before a run begins, the two go on to agree.** -/
theorem Akin.applied (h : c.Akin past past' c') (control : Control) :
    (c.applied control).Akin past past' (c'.applied control) := by
  obtain ⟨heq, hidle⟩ := applied_of_idle h.idle.1 control
  obtain ⟨heq', hidle'⟩ := applied_of_idle h.idle.2 control
  obtain ⟨hlight, hevents⟩ := mark_of_idle h.idle.1 control
  obtain ⟨hlight', hevents'⟩ := mark_of_idle h.idle.2 control
  rw [heq, heq']
  refine ⟨⟨hidle, hidle'⟩, ?_, fun id => ?_, ?_, ?_, ?_, hevents.trans h.events.1,
    hevents'.trans h.events.2⟩
  · rw [mark_settings, mark_settings, h.settings]
  · rw [contains_mark, contains_mark, h.breakpoints]
  · rw [ignoring_mark, ignoring_mark, h.ignoring]
  · rw [pauseNext_mark (.inr h.idle.1), pauseNext_mark (.inr h.idle.2), requests_of_idle h.idle.1,
      requests_of_idle h.idle.2, h.pauseNext]
  · rw [hlight, hlight', h.highlight]

/-- A run that begins announces that it is running. -/
theorem events_prepared (h : c.isRunning = false) (speed : Option Speed) (root : Block) :
    (c.prepared speed root).events =
      c.events ++ c.settings.observers.map fun o => LogEntry.told o.label (.state .running) := by
  unfold prepared entered
  rw [if_neg (by exact (state_of_idle h).1), events_announce]
  have hbecome (c : Controller) : (c.become .running).events = c.events := by
    have hnote := events_write
      (.note ("Run state " ++ c.state.name ++ " -> " ++ RunState.running.name)) c
    exact hnote.trans (List.append_nil _)
  rw [hbecome]
  rfl

/-- **Controllers that agree on what a run begins with are twins once it has begun**, if the run sets
the speed. All else is set anew. -/
theorem Akin.prepared (h : c.Akin past past' c') (speed : Speed) (root : Block) :
    (c.prepared (some speed) root).Twins past past' (c'.prepared (some speed) root) := by
  have hevents := events_prepared h.idle.1 (some speed) root
  have hevents' := events_prepared h.idle.2 (some speed) root
  rw [h.events.1] at hevents
  rw [h.events.2, h.settings] at hevents'
  obtain ⟨log, heq⟩ := exists_prepared_eq (some speed) root c
  obtain ⟨log', heq'⟩ := exists_prepared_eq (some speed) root c'
  refine ⟨log', c'.breakpoints, ?_, ?_, _, hevents, hevents'⟩
  · rw [heq, heq', h.settings, h.ignoring, h.pauseNext, h.highlight]
    rfl
  · rw [heq]
    exact h.breakpoints

/-- What was asked for besides does not matter to the next run. -/
theorem Recalls.skip {asked : List Control} (h : c.Recalls asked) {control : Control}
    (hskip : control.isKept = false) : c.Recalls (asked ++ [control]) := by
  constructor
  · have hstep : (control == .singleStep) = false := by
      cases control <;> first | rfl | exact absurd hskip Bool.noConfusion
    rw [h.pauseNext, List.any_append, List.any_cons, List.any_nil, hstep, Bool.or_false,
      Bool.or_false]
  · have hignoring : control.ignoring? = none := by
      cases control <;> first | rfl | exact absurd hskip Bool.noConfusion
    rw [h.ignoring, latest?_concat, hignoring, Option.none_or]

/-- A new controller recalls all that was asked for if only what matters is replayed on it. -/
theorem recalls_replayed {settings : Settings} (hq : ({ settings } : Controller).Quiet)
    (breakpoints : List String) (asked : List Control) :
    let c := ({ settings, breakpoints } : Controller).replayed (asked.filter Control.isKept)
    c.Recalls asked ∧ c.isRunning = false ∧ c.settings = settings ∧
      c.breakpoints = breakpoints ∧ c.highlight = none ∧ c.events = [] := by
  induction asked using List.reverseRecOn with
  | nil => exact ⟨⟨rfl, rfl⟩, rfl, rfl, rfl, rfl, rfl⟩
  | append_singleton asked control ih =>
    dsimp only at ih ⊢
    rw [List.filter_append]
    cases hkept : control.isKept with
    | false =>
      obtain ⟨hrecalls, hrest⟩ := ih
      have hnone : [control].filter Control.isKept = [] := by simp [hkept]
      rw [hnone, List.append_nil]
      exact ⟨hrecalls.skip hkept, hrest⟩
    | true =>
      have hone : [control].filter Control.isKept = [control] := by simp [hkept]
      have hsnoc (controls : List Control) (c : Controller) :
          c.replayed (controls ++ [control]) = ((c.replayed controls).apply control).1 := by
        simp [replayed]
      rw [hone, hsnoc]
      generalize Controller.replayed _ _ = c at ih
      obtain ⟨hrecalls, hidle, hsettings, hbreakpoints, hlight, hevents⟩ := ih
      have hquiet : c.Quiet := by
        unfold Quiet
        rw [hsettings]
        exact hq
      obtain ⟨hlight', hevents'⟩ := mark_of_idle hidle control
      rw [apply_quiet hquiet, (applied_of_idle hidle control).1]
      refine ⟨hrecalls.mark hidle control, (applied_of_idle hidle control).2,
        (mark_settings control c).trans hsettings, ?_, hlight'.trans hlight,
        hevents'.trans hevents⟩
      cases control with
      | singleStep | ignoreBreakpoints => exact hbreakpoints
      | _ => exact absurd hkept Bool.noConfusion

/-- **A new controller on which only what matters is replayed agrees with one that has a past.** -/
theorem Recalls.akin {asked : List Control} {settings : Settings} {breakpoints : List String}
    (h : c.Recalls asked) (hq : ({ settings } : Controller).Quiet) (hidle : c.isRunning = false)
    (hsettings : c.settings = settings) (hlight : c.highlight = none)
    (hbreakpoints : ∀ id, breakpoints.contains id = c.breakpoints.contains id) :
    c.Akin c.events [] (({ settings, breakpoints } : Controller).replayed
      (asked.filter Control.isKept)) := by
  obtain ⟨hrecalls, hidle', hsettings', hbreakpoints', hlight', hevents'⟩ :=
    recalls_replayed hq breakpoints asked
  refine ⟨⟨hidle, hidle'⟩, ?_, fun id => ?_, ?_, ?_, ?_, rfl, hevents'⟩
  · rw [hsettings', hsettings]
  · rw [hbreakpoints', hbreakpoints]
  · rw [hrecalls.ignoring, h.ignoring]
  · rw [hrecalls.pauseNext, h.pauseNext]
  · rw [hlight', hlight]

end Akin

end Controller

namespace Session

/-- Two sessions on the same run, under controllers that agree on what it begins with, or that are
twins once it has begun. -/
structure Paired (past past' : List LogEntry) (s s' : Session) : Prop where
  run : s'.run = s.run
  tree : s'.tree = s.tree
  quiet : s.controller.Quiet
  waits : s.run.phase = .scheduled → s.run.cancelling = false ∧
    (∃ speed, s.run.speed = some speed) ∧ s.controller.Akin past past' s'.controller
  begun : s.run.phase ≠ .scheduled → s.controller.Twins past past' s'.controller

section Paired

variable {past past' : List LogEntry} {s s' : Session}

theorem Paired.settings (h : s.Paired past past' s') :
    s'.controller.settings = s.controller.settings := by
  by_cases hphase : s.run.phase = .scheduled
  · exact (h.waits hphase).2.2.settings
  · exact (h.begun hphase).settings

theorem Paired.quiet' (h : s.Paired past past' s') : s'.controller.Quiet := by
  unfold Controller.Quiet
  rw [h.settings]
  exact h.quiet

theorem Paired.ask (h : s.Paired past past' s') (control : Control) :
    (s.act (.ask control)).Paired past past' (s'.act (.ask control)) := by
  have hc : (s.act (.ask control)).controller = s.controller.applied control :=
    congrArg Prod.fst (Controller.apply_quiet h.quiet control)
  have hc' : (s'.act (.ask control)).controller = s'.controller.applied control :=
    congrArg Prod.fst (Controller.apply_quiet h.quiet' control)
  refine ⟨h.run, h.tree, ?_, fun hphase => ?_, fun hphase => ?_⟩
  · unfold Controller.Quiet
    rw [hc, (Controller.applied_report control s.controller).1]
    exact h.quiet
  · obtain ⟨hcancel, hspeed, hakin⟩ := h.waits hphase
    rw [hc, hc']
    exact ⟨hcancel, hspeed, hakin.applied control⟩
  · rw [hc, hc']
    exact (h.begun hphase).applied control

/-- The turns of paired sessions are twins. -/
theorem Paired.turns (h : s.Paired past past' s') :
    (s.controller.turn s.run s.tree).Twins past past' (s'.controller.turn s'.run s'.tree) := by
  by_cases hphase : s.run.phase = .scheduled
  · obtain ⟨hcancel, ⟨speed, hspeed⟩, hakin⟩ := h.waits hphase
    have hphase' : s'.run.phase = .scheduled := by rw [h.run, hphase]
    have hcancel' : s'.run.cancelling = false := by rw [h.run, hcancel]
    rw [Controller.turn_of_scheduled h.quiet hakin.idle.1 hphase hcancel,
      Controller.turn_of_scheduled h.quiet' hakin.idle.2 hphase' hcancel', h.run, h.tree, h.settings,
      hspeed]
    exact (hakin.prepared speed _).advance (Controller.quiet_prepared h.quiet _ _) _ _
  · rw [h.run, h.tree]
    exact (h.begun hphase).turn h.quiet hphase s.tree

/-- **Paired sessions take the same turns.** -/
theorem Paired.turn (h : s.Paired past past' s') :
    (s.act .turn).Paired past past' (s'.act .turn) := by
  obtain ⟨hphase, hscene, htwins⟩ := h.turns
  obtain ⟨hbegun, hsettings⟩ : (s.controller.turn s.run s.tree).phase ≠ .scheduled ∧
      (s.controller.turn s.run s.tree).controller.settings = s.controller.settings := by
    by_cases hstart : s.run.phase = .scheduled
    · obtain ⟨hcancel, -, hakin⟩ := h.waits hstart
      have hbegins : s.run.isBegun s.controller = true := by
        rw [Run.isBegun, hstart, hcancel, hakin.idle.1]
        rfl
      have hsettles := Controller.turn_settles h.quiet hbegins s.tree
      exact ⟨hsettles.begun, hsettles.settings⟩
    · exact Controller.turn_keeps h.quiet hstart s.tree
  refine ⟨?_, congrArg Scene.tree hscene, ?_, fun hstart => absurd hstart hbegun, fun _ => htwins⟩
  · show s'.run.after _ = s.run.after _
    rw [Run.after, Run.after, hphase, hscene, h.run]
  · show Controller.Quiet (s.controller.turn s.run s.tree).controller
    unfold Controller.Quiet
    rw [hsettings]
    exact h.quiet

theorem Paired.after (h : s.Paired past past' s') (acts : List Act) :
    (s.after acts).Paired past past' (s'.after acts) := by
  induction acts generalizing s s' with
  | nil => exact h
  | cons a rest ih =>
    cases a with
    | ask control => exact ih (h.ask control)
    | turn => exact ih h.turn

end Paired

end Session

/-- **Runs are isolated from each other.** Let anything have happened on a controller, and let no run
be in progress. A run that sets its speed then goes as it does on a new controller with the same
settings, with the breakpoints that are the net effect of all that was asked for, and on which only
the requests to single-step and to ignore breakpoints are replayed that were made since the last run
ended. Whatever is asked for before and between its turns, the run takes the same turns on the same
tree, the same happens, and once the run has begun the two controllers show the same. -/
theorem runs_are_isolated {settings : Settings} (hq : ({ settings } : Controller).Quiet)
    (past : List Cue)
    (hidle : (Stage.after ⟨{ settings }, []⟩ past).controller.isRunning = false)
    {breakpoints : List String}
    (hbreakpoints : ∀ id, breakpoints.contains id = Stage.breaksAt past id)
    (root : Site) (tree : Block) (inputs : List Int) (speed : Speed) (acts : List Act) :
    let c := (Stage.after ⟨{ settings }, []⟩ past).controller
    let asked := Stage.askedSince ⟨{ settings }, []⟩ [] past
    let fresh := ({ settings, breakpoints } : Controller).replayed (asked.filter Control.isKept)
    let run : Run := { root, inputs, speed := some speed }
    let s := (⟨c, run, tree⟩ : Session).after acts
    let s' := (⟨fresh, run, tree⟩ : Session).after acts
    s'.run = s.run ∧ s'.tree = s.tree ∧
      s.controller.events = c.events ++ s'.controller.events ∧
      (s.run.phase ≠ .scheduled → ∃ log breakpoints,
        s'.controller = { s.controller with log, breakpoints } ∧
          ∀ id, breakpoints.contains id = s.controller.breakpoints.contains id) := by
  intro c asked fresh run s s'
  have horderly := Stage.orderly_after hq (Stage.orderly_new settings) past
  obtain ⟨hleads, current, htaken⟩ := id horderly
  have hrecalls : c.Recalls asked :=
    Stage.recalls_after hq (Stage.orderly_new settings) (fun _ => ⟨rfl, rfl⟩) past hidle
  have hakin : c.Akin c.events [] fresh := by
    refine hrecalls.akin hq hidle hleads.1 (htaken.shown.2.2 hidle) fun id => ?_
    rw [hbreakpoints, Stage.breakpoints_after hq]
  have hpaired : Session.Paired c.events [] ⟨c, run, tree⟩ ⟨fresh, run, tree⟩ :=
    ⟨rfl, rfl, horderly.quiet hq, fun _ => ⟨rfl, ⟨speed, rfl⟩, hakin⟩,
      fun hbegun => absurd rfl hbegun⟩
  have hpaired := hpaired.after acts
  refine ⟨hpaired.run, hpaired.tree, ?_, fun hbegun => ?_⟩
  · by_cases hphase : s.run.phase = .scheduled
    · obtain ⟨-, -, hakin⟩ := hpaired.waits hphase
      have hevents : s.controller.events = c.events := hakin.events.1
      have hevents' : s'.controller.events = [] := hakin.events.2
      rw [hevents, hevents', List.append_nil]
    · obtain ⟨-, -, -, -, new, hnew, hnew'⟩ := hpaired.begun hphase
      have hevents : s.controller.events = c.events ++ new := hnew
      have hevents' : s'.controller.events = new := hnew'
      rw [hevents, hevents']
  · obtain ⟨log, breakpoints, heq, hsame, -⟩ := hpaired.begun hbegun
    exact ⟨log, breakpoints, heq, hsame⟩

/-- A first run is halted in a pause, after somebody asked to ignore breakpoints for the rest of it,
and a second one is cancelled in a delay. Then somebody asks to single-step. The next run is paused
after its first step, and again at the breakpoint that is left. -/
theorem runs_are_isolated_plus :
    let settings : Settings := { observers := [{ label := "watch" }] }
    let past : List Cue :=
      [.ask (.setBreakpoint "first" true), .ask (.setBreakpoint "plus" true),
        .start ⟨[], .plus⟩ .plus [2, 1] none, .turn 0, .ask (.ignoreBreakpoints true),
        .ask .singleStep, .ask (.setBreakpoint "first" false), .ask .halt, .turn 0,
        .start ⟨[], .plus⟩ .plus [1, 1] (some .slow), .turn 1, .ask .pause, .cancel 1, .turn 1,
        .ask .singleStep]
    let acts : List Act := [.turn, .ask .resume, .turn, .turn]
    let c := (Stage.after ⟨{ settings }, []⟩ past).controller
    let asked := Stage.askedSince ⟨{ settings }, []⟩ [] past
    let fresh :=
      ({ settings, breakpoints := ["plus"] } : Controller).replayed (asked.filter Control.isKept)
    let run : Run := { root := ⟨[], .plus⟩, inputs := [2, 1], speed := some .instant }
    let s := (⟨c, run, .plus⟩ : Session).after acts
    let s' := (⟨fresh, run, .plus⟩ : Session).after acts
    ({ settings } : Controller).Quiet ∧ c.isRunning = false ∧
      (∀ id, ["plus"].contains id = Stage.breaksAt past id) ∧ asked = [.singleStep] ∧
      s'.run = s.run ∧ s.controller.events = c.events ++ s'.controller.events ∧
      s'.controller.state = .paused ∧ s'.controller.highlight = some "plus" := by
  intro settings past acts c asked fresh run s s'
  have hquiet : ({ settings } : Controller).Quiet := by
    intro o ho past n
    rw [List.mem_singleton.mp ho]
  have hidle : c.isRunning = false := by decide +kernel
  have hleft : c.breakpoints = ["plus"] := by decide +kernel
  have hbreakpoints : ∀ id, ["plus"].contains id = Stage.breaksAt past id := by
    intro id
    rw [← hleft]
    exact Stage.breakpoints_after hquiet past id
  obtain ⟨hrun, -, hevents, -⟩ :=
    runs_are_isolated hquiet past hidle hbreakpoints ⟨[], .plus⟩ .plus [2, 1] .instant acts
  exact ⟨hquiet, hidle, hbreakpoints, by decide +kernel, hrun, hevents, by decide +kernel,
    by decide +kernel⟩

end BlockCalculus
