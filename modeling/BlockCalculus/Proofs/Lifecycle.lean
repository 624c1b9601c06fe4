import BlockCalculus.Proofs.Halt
import BlockCalculus.Proofs.Simulation

/-!
# The life of a controller

What a controller shows has to fit where its run is. `Phase.Holds` says how, for the run that the
controller is taken up with: a run in a delay is `running`, a run in a pause is `paused` until
somebody ends the pause, and between runs the controller rests (`Controller.Rests`). `Leads` is the
history: the states that observers were told of, each of which may come after the one before.

Observers are quiet throughout.

* `leads_applied`, `applied_holds`: a control leads at most from a pause back to the run, and what
  held of the run holds after it.
* `turn_orderly`: a turn leads on by states in order, and what holds of a run holds after its turn.
-/

namespace BlockCalculus

/-! ## States in order -/

namespace RunState

/-- Whether a state may come right after another one. -/
def precedes : RunState → RunState → Bool
  | .idle, .running => true
  | .running, .paused | .running, .completed | .running, .halted | .running, .errored => true
  | .paused, .running | .paused, .halted => true
  | .completed, .running | .halted, .running | .errored, .running => true
  | _, _ => false

/-- The states lead from the first one given to the last one given, and each of them may come right
after the one before. -/
def Path : RunState → List RunState → RunState → Prop
  | first, [], last => first = last
  | first, next :: rest, last => first.precedes next = true ∧ Path next rest last

theorem Path.append {a b c : RunState} {states more : List RunState} (h : Path a states b)
    (h' : Path b more c) : Path a (states ++ more) c := by
  induction states generalizing a with
  | nil =>
    obtain rfl : a = b := h
    exact h'
  | cons s rest ih => exact ⟨h.1, ih h.2⟩

end RunState

/-- What an entry of the log says that an observer was told of a state. -/
def LogEntry.toldState? : LogEntry → Option (String × Notice)
  | .told observer (.state state) => some (observer, .state state)
  | _ => none

namespace Controller

/-- What observers were told of states, in order, by the labels of the observers. -/
def statesTold (c : Controller) : List (String × Notice) :=
  c.log.toList.filterMap LogEntry.toldState?

theorem statesTold_write {e : LogEntry} (he : e.toldState? = none) (c : Controller) :
    (c.write e).statesTold = c.statesTold := by
  simp [statesTold, write, he]

theorem statesTold_announce_state (state : RunState) (c : Controller) :
    (c.announce (.state state)).statesTold = c.statesTold ++ c.settings.heard [.state state] := by
  simp only [statesTold, announce, Array.toList_append, List.filterMap_append, List.filterMap_map,
    Settings.heard, List.flatMap_cons, List.flatMap_nil, List.append_nil]
  congr 1
  induction c.settings.observers with
  | nil => rfl
  | cons o rest ih => simp [LogEntry.toldState?, ih]

theorem statesTold_announce_other {n : Notice}
    (hn : ∀ label, LogEntry.toldState? (.told label n) = none) (c : Controller) :
    (c.announce n).statesTold = c.statesTold := by
  have hnil : c.settings.observers.filterMap
      (LogEntry.toldState? ∘ fun o => LogEntry.told o.label n) = [] :=
    List.filterMap_eq_nil_iff.mpr fun o _ => hn o.label
  simp only [statesTold, announce, Array.toList_append, List.filterMap_append, List.filterMap_map]
  rw [hnil, List.append_nil]

/-- One controller leads to another: in between, observers were told of states, all of them of each
state in turn. Each state may come right after the one before, and the last one is the state now. -/
def Leads (c c' : Controller) : Prop :=
  c'.settings = c.settings ∧
    ∃ states : List RunState,
      c'.statesTold = c.statesTold ++ c.settings.heard (states.map .state) ∧
      RunState.Path c.state states c'.state

theorem Leads.of_eq {c c' : Controller} (hsettings : c'.settings = c.settings)
    (htold : c'.statesTold = c.statesTold) (hstate : c'.state = c.state) : c.Leads c' := by
  refine ⟨hsettings, [], ?_, hstate.symm⟩
  rw [htold, List.map_nil, Settings.heard, List.flatMap_nil, List.append_nil]

theorem Leads.trans {c₁ c₂ c₃ : Controller} (h : c₁.Leads c₂) (h' : c₂.Leads c₃) :
    c₁.Leads c₃ := by
  obtain ⟨hs, states, htold, hpath⟩ := h
  obtain ⟨hs', more, htold', hpath'⟩ := h'
  refine ⟨hs'.trans hs, states ++ more, ?_, hpath.append hpath'⟩
  rw [htold', htold, hs, List.map_append, Settings.heard_append, List.append_assoc]

theorem leads_write {e : LogEntry} (he : e.toldState? = none) (c : Controller) :
    c.Leads (c.write e) :=
  .of_eq rfl (statesTold_write he c) rfl

/-- Taking on a state that may come next leads there. -/
theorem leads_entered {c : Controller} {state : RunState} (h : c.state.precedes state = true) :
    c.Leads (c.entered state) := by
  have hne : c.state ≠ state := by
    rintro rfl
    revert h
    cases c.state <;> decide
  rw [entered, if_neg hne]
  refine ⟨rfl, [state], ?_, h, rfl⟩
  rw [statesTold_announce_state]
  have hnote : (c.become state).statesTold = c.statesTold :=
    statesTold_write (e := .note ("Run state " ++ c.state.name ++ " -> " ++ state.name)) rfl c
  rw [hnote]
  rfl

/-! ## What a controller shows -/

/-- No run is in progress, and the controller shows how the last one ended: a value if it was
completed and only then, an error only if it failed. No block is highlighted. -/
structure Rests (c : Controller) : Prop where
  idle : c.isRunning = false
  highlight : c.highlight = none
  result : c.result.isSome = true ↔ c.state = .completed
  error : c.error.isSome = true → c.state = .errored

/-- The highlighted block is that of the last step, and observers were told of no step since. -/
def Highlights (c : Controller) : Prop :=
  1 ≤ c.steps ∧
    ∃ (earlier : List (String × Notice)) (b : Block) (result : Int),
      c.stepsTold = earlier ++ c.settings.heard [.step c.steps b result] ∧
      c.highlight = some b.head.id

theorem Highlights.congr {c c' : Controller} (h : c.Highlights)
    (hsettings : c'.settings = c.settings) (hsteps : c'.steps = c.steps)
    (htold : c'.stepsTold = c.stepsTold) (hlight : c'.highlight = c.highlight) :
    c'.Highlights := by
  obtain ⟨hpos, earlier, b, result, hlast, hid⟩ := h
  refine ⟨by rwa [hsteps], earlier, b, result, ?_, hlight.trans hid⟩
  rw [htold, hlast, hsettings, hsteps]

theorem Underway.state {c : Controller} (h : c.Underway) :
    c.state = .running ∨ c.state = .paused := by
  have hrun := h.1
  unfold isRunning at hrun
  simpa using hrun

end Controller

/-- A run is parked. It was reported. As long as nobody released it, it is paused and nobody asked
it to halt; once it is released, it is running again, or somebody did. -/
structure Controller.Parked (c : Controller) : Prop where
  underway : c.Underway
  highlights : c.Highlights
  held : c.released = false → c.state = .paused ∧ c.halting = false
  freed : c.released = true → c.halting = false → c.state = .running

/-- What a controller shows fits the phase of the run that it is taken up with. A run that is
delayed or waits for its rule is running. Before and after a run, the controller rests. -/
def Phase.Holds (c : Controller) : Phase → Prop
  | .scheduled | .finished _ => c.Rests
  | .delayed _ | .waiting _ => c.Underway ∧ c.state = .running
  | .parked _ => c.Parked

/-- A turn leads on from a controller, and what it leads to holds. -/
def Turn.Orderly (c : Controller) (t : Turn) : Prop :=
  c.Leads t.controller ∧ t.phase.Holds t.controller

theorem Turn.Orderly.of_leads {c c' : Controller} {t : Turn} (h : t.Orderly c')
    (hc : c.Leads c') : t.Orderly c :=
  ⟨hc.trans h.1, h.2⟩

namespace Controller

/-! ## Controls -/

theorem leads_mark (control : Control) (c : Controller) : c.Leads (c.mark control) := by
  obtain ⟨_, _, _, _, heq⟩ | ⟨-, -, heq⟩ := mark_cases control c
  · rw [heq]
    exact .of_eq rfl rfl rfl
  · rw [heq]
    exact .of_eq rfl (statesTold_write (e := .note "Halt requested") rfl c) rfl

/-- **A control leads at most from a pause back to the run.** -/
theorem leads_applied (control : Control) (c : Controller) : c.Leads (c.applied control) := by
  unfold applied
  split
  · rename_i hpaused
    have hstate : (c.mark control).state = .paused := (mark_state control c).trans hpaused.1
    have hrunning : (c.mark control).Leads ((c.mark control).entered .running) :=
      leads_entered (by rw [hstate]; rfl)
    rw [entered, if_neg (by rw [hstate]; decide)] at hrunning
    exact (leads_mark control c).trans (hrunning.trans (.of_eq rfl rfl rfl))
  · exact leads_mark control c

/-- Asking for a control leaves alone what is shown of the run. -/
theorem applied_shown (control : Control) (c : Controller) :
    (c.applied control).highlight = c.highlight ∧ (c.applied control).result = c.result ∧
      (c.applied control).error = c.error := by
  have hmark : (c.mark control).highlight = c.highlight ∧ (c.mark control).result = c.result ∧
      (c.mark control).error = c.error := by
    obtain ⟨_, _, _, _, heq⟩ | ⟨-, -, heq⟩ := mark_cases control c <;> rw [heq] <;>
      exact ⟨rfl, rfl, rfl⟩
  unfold applied
  split
  · exact hmark
  · exact hmark

/-- Away from pauses a control leaves the state as it is. -/
theorem applied_state {c : Controller} (h : c.state ≠ .paused) (control : Control) :
    (c.applied control).state = c.state := by
  rw [applied, if_neg fun hpaused => h hpaused.1, mark_state]

theorem applied_underway {c : Controller} (hq : c.Quiet) (h : c.Underway) (control : Control) :
    (c.applied control).Underway := by
  have happly := apply_preserves stable_underway control h
  rwa [apply_quiet hq] at happly

theorem applied_highlights {c : Controller} (h : c.Highlights) (control : Control) :
    (c.applied control).Highlights := by
  obtain ⟨hsettings, hsteps, htold, -⟩ := applied_report control c
  exact h.congr hsettings hsteps htold (applied_shown control c).1

theorem applied_rests {c : Controller} (h : c.Rests) (control : Control) :
    (c.applied control).Rests := by
  have hne : c.state ≠ .paused := by
    intro hpaused
    have hidle := h.idle
    rw [isRunning, hpaused] at hidle
    exact absurd hidle (by decide)
  have hstate := applied_state hne control
  obtain ⟨hlight, hresult, herror⟩ := applied_shown control c
  refine ⟨?_, hlight.trans h.highlight, ?_, ?_⟩
  · rw [isRunning, hstate]
    exact h.idle
  · rw [hresult, hstate]
    exact h.result
  · rw [herror, hstate]
    exact h.error

/-- **Controls release a parked run, or leave it as it is.** -/
theorem applied_parked {c : Controller} (hq : c.Quiet) (h : c.Parked) (control : Control) :
    (c.applied control).Parked := by
  refine ⟨applied_underway hq h.underway control, applied_highlights h.highlights control, ?_, ?_⟩
  · unfold applied
    split
    · exact fun hreleased => absurd hreleased Bool.noConfusion
    · obtain ⟨_, _, _, _, heq⟩ | ⟨-, -, heq⟩ := mark_cases control c
      · rw [heq]
        exact h.held
      · rw [heq]
        exact fun hreleased => absurd hreleased Bool.noConfusion
  · unfold applied
    split
    · exact fun _ _ => rfl
    · obtain ⟨_, _, _, _, heq⟩ | ⟨-, -, heq⟩ := mark_cases control c
      · rw [heq]
        exact h.freed
      · rw [heq]
        exact fun _ hhalting => absurd hhalting Bool.noConfusion

/-- **What holds of a run holds after any control.** -/
theorem applied_holds {c : Controller} (hq : c.Quiet) {phase : Phase} (h : phase.Holds c)
    (control : Control) : phase.Holds (c.applied control) := by
  cases phase with
  | scheduled | finished _ => exact applied_rests h control
  | delayed _ | waiting _ =>
    have hstate := applied_state (by rw [h.2]; decide) control
    exact ⟨applied_underway hq h.1 control, hstate.trans h.2⟩
  | parked rest => exact applied_parked hq h control

/-! ## Endings -/

theorem entered_of_precedes {c : Controller} {state : RunState}
    (h : c.state.precedes state = true) :
    c.entered state = (c.become state).announce (.state state) := by
  refine if_neg ?_
  rintro rfl
  revert h
  cases c.state <;> decide

/-- A run that ends without a value leaves a controller that rests. -/
theorem close_orderly {c : Controller} (hq : c.Quiet) {state : RunState}
    (hnext : c.state.precedes state = true) (hover : state = .halted ∨ state = .errored)
    (hresult : c.result = none) (herror : c.error.isSome = true → state = .errored)
    (ending : RunEnding) (scene : Scene) : (c.close state ending scene).Orderly c := by
  rw [close_quiet hq]
  refine ⟨(leads_entered hnext).trans (.of_eq rfl rfl rfl), ?_⟩
  rw [entered_of_precedes hnext]
  refine ⟨?_, rfl, ?_, herror⟩
  · obtain rfl | rfl := hover <;> rfl
  · show c.result.isSome = true ↔ state = .completed
    rw [hresult]
    obtain rfl | rfl := hover <;> decide

theorem Underway.precedes_halted {c : Controller} (h : c.Underway) :
    c.state.precedes .halted = true := by
  obtain heq | heq := h.state <;> rw [heq] <;> rfl

theorem closeCancelled_orderly {c : Controller} (hq : c.Quiet) (h : c.Underway) (scene : Scene) :
    (c.closeCancelled scene).Orderly c := by
  refine close_orderly hq h.precedes_halted (.inl rfl) h.2.1 ?_ _ _
  rw [h.2.2]
  exact fun herror => absurd herror Bool.noConfusion

theorem closeHalted_orderly {c : Controller} (hq : c.Quiet) (h : c.Underway) (scene : Scene) :
    (c.closeHalted scene).Orderly c :=
  have hnoted :
      (c.write (.note ("Run halted after " ++ toString c.steps ++ " steps"))).Underway := h
  (close_orderly (by exact hq) hnoted.precedes_halted (.inl rfl) h.2.1
    (by rw [hnoted.2.2]; exact fun herror => absurd herror Bool.noConfusion) _ _).of_leads
    (leads_write rfl c)

theorem closeRaised_orderly {c : Controller} (hq : c.Quiet) (h : c.Underway)
    (hstate : c.state = .running) (e : Failure) (scene : Scene) :
    (c.closeRaised e.fault scene).Orderly c := by
  have hnext : { c with error := e.fault.error?.or c.error }.state.precedes .errored = true := by
    show c.state.precedes .errored = true
    rw [hstate]
    rfl
  rw [closeRaised_fault]
  exact (close_orderly (by exact hq) hnext (.inr rfl) h.2.1 (fun _ => rfl) _ _).of_leads
    (.of_eq rfl rfl rfl)

theorem closeCompleted_orderly {c : Controller} (hq : c.Quiet) (h : c.Underway)
    (hstate : c.state = .running) (n : Int) (scene : Scene) :
    (c.closeCompleted n scene).Orderly c := by
  have hnext : { c.settle with result := some n }.state.precedes .completed = true := by
    show c.state.precedes .completed = true
    rw [hstate]
    rfl
  rw [closeCompleted_quiet hq]
  constructor
  · have hentered := leads_entered hnext
    have hvalue : c.Leads { c.settle with result := some n } := .of_eq rfl rfl rfl
    exact (hvalue.trans hentered).trans
      (.of_eq rfl (statesTold_announce_other (fun _ => rfl) _) rfl)
  · rw [entered_of_precedes hnext]
    refine ⟨rfl, rfl, ⟨fun _ => rfl, fun _ => rfl⟩, fun herror => ?_⟩
    have hnone : c.error.isSome = true := herror
    rw [h.2.2] at hnone
    exact absurd hnone Bool.noConfusion

/-! ## Steps and turns -/

theorem delay_orderly {c : Controller} (h : c.Underway) (hstate : c.state = .running)
    (rest : Unit → Walk Int) (scene : Scene) : (c.delay rest scene).Orderly c :=
  ⟨leads_write rfl c, h, hstate⟩

/-- A pause begins in a run that is going on. -/
theorem parkedAt_orderly {c : Controller} (h : c.Underway) (hstate : c.state = .running)
    (hlight : c.Highlights) (hhalting : c.halting = false) (b : Block) :
    c.Leads (c.parkedAt b) ∧ (c.parkedAt b).Parked := by
  have hagree := agree_parkedAt b c
  unfold parkedAt at hagree ⊢
  dsimp only at hagree ⊢
  -- A note on the breakpoint, if it is written, changes nothing that is shown.
  generalize hc' : (if c.pausesAt b.head.id then _ else c) = c' at hagree ⊢
  obtain ⟨hleads, hunder, hstate', hlight'⟩ :
      c.Leads c' ∧ c'.Underway ∧ c'.state = .running ∧ c'.highlight = c.highlight := by
    subst hc'
    split
    · exact ⟨leads_write rfl c, h, hstate, rfl⟩
    · exact ⟨.of_eq rfl rfl rfl, h, hstate, rfl⟩
  have hnext : { c' with pauseNext := false, released := false }.state.precedes .paused = true := by
    show c'.state.precedes .paused = true
    rw [hstate']
    rfl
  have hcleared : c'.Leads { c' with pauseNext := false, released := false } := .of_eq rfl rfl rfl
  refine ⟨(hleads.trans hcleared).trans (leads_entered hnext), ?_⟩
  rw [entered_of_precedes hnext] at hagree ⊢
  exact ⟨⟨rfl, hunder.2⟩, hlight.congr hagree.settings hagree.steps hagree.told hlight',
    fun _ => ⟨rfl, hagree.halting.trans hhalting⟩,
    fun hreleased => absurd hreleased Bool.noConfusion⟩

theorem reported_highlights (b : Block) (result : Int) (c : Controller) :
    (c.reported b result).Highlights :=
  ⟨Nat.succ_le_succ (Nat.zero_le _), c.stepsTold, b, result, stepsTold_announce_step _ _ _ _, rfl⟩

/-- **A step is reported, and then the run is delayed or paused, or it ends before the report.** -/
theorem report_orderly {c : Controller} (hq : c.Quiet) (h : c.Underway)
    (hstate : c.state = .running) (s : Step) (rest : Unit → Walk Int) (scene : Scene) :
    (c.report s rest scene).Orderly c := by
  cases hhalting : c.halting with
  | true =>
    rw [report, if_pos hhalting]
    exact closeHalted_orderly hq h scene
  | false =>
    rw [report_quiet hq hhalting]
    dsimp only
    generalize hb : scene.now s.toSite = b
    have hleads : c.Leads (c.reported b s.result) :=
      .of_eq rfl (statesTold_announce_other (fun _ => rfl) _) rfl
    split
    · obtain ⟨hpark, hparked⟩ :=
        parkedAt_orderly (c := c.reported b s.result) h hstate (reported_highlights b s.result c)
          hhalting b
      exact ⟨hleads.trans hpark, hparked⟩
    · exact (delay_orderly (by exact h) (by exact hstate) rest scene).of_leads hleads

theorem leavePause_orderly {c : Controller} (hq : c.Quiet) (h : c.Underway)
    (hstate : c.halting = false → c.state = .running) (rest : Unit → Walk Int) (scene : Scene) :
    (c.leavePause rest scene).Orderly c := by
  unfold leavePause
  split
  · exact closeHalted_orderly hq h scene
  · rename_i hhalting
    exact delay_orderly h (hstate (by simpa using hhalting)) rest scene

theorem advance_orderly {c : Controller} (hq : c.Quiet) (h : c.Underway)
    (hstate : c.state = .running) (w : Walk Int) (scene : Scene) :
    (advance w scene c).Orderly c := by
  induction w with
  | done n => exact closeCompleted_orderly hq h hstate n scene
  | fail e => exact closeRaised_orderly hq h hstate e scene
  | step s rest _ => exact report_orderly hq h hstate s rest _
  | wait rest _ => exact ⟨.of_eq rfl rfl rfl, h, hstate⟩
  | look site next ih => exact ih _
  | consult kind next ih => exact ih _

/-- A run begins under a controller that rests. -/
theorem start_orderly {c : Controller} (hq : c.Quiet) (h : c.Rests) (run : Run) (tree : Block) :
    (c.start run tree).Orderly c := by
  unfold start begin
  dsimp only
  generalize (run.scene tree).now run.root = root
  rw [prepare_quiet hq h.idle]
  dsimp only
  have hnext : c.state.precedes .running = true := by
    have hidle := h.idle
    unfold isRunning at hidle
    revert hidle
    cases c.state <;> decide
  unfold prepared
  generalize hfresh : ({ c with
    speed := run.speed.getD c.speed
    halting := false
    released := false
    steps := 0
    result := none
    error := none
    treeBreakpoints := root.breakpoints } : Controller) = fresh
  have hleads : c.Leads fresh := by
    subst hfresh
    exact .of_eq rfl rfl rfl
  have hnext' : fresh.state.precedes .running = true := by
    subst hfresh
    exact hnext
  refine Turn.Orderly.of_leads (advance_orderly ?_ ?_ ?_ _ _) (hleads.trans (leads_entered hnext'))
  · rw [entered_of_precedes hnext']
    subst hfresh
    exact hq
  · rw [entered_of_precedes hnext']
    subst hfresh
    exact ⟨rfl, rfl, rfl⟩
  · rw [entered_of_precedes hnext']
    rfl

/-- **A turn leads on, and what holds of a run holds after its turn.** -/
theorem turn_orderly {c : Controller} (hq : c.Quiet) {run : Run} (h : run.phase.Holds c)
    (tree : Block) : (c.turn run tree).Orderly c := by
  unfold turn
  dsimp only
  cases hphase : run.phase with
  | scheduled =>
    rw [hphase] at h
    cases run.cancelling with
    | true => exact ⟨.of_eq rfl rfl rfl, h⟩
    | false => exact start_orderly hq h run tree
  | finished ending =>
    rw [hphase] at h
    exact ⟨.of_eq rfl rfl rfl, h⟩
  | delayed rest =>
    rw [hphase] at h
    cases run.cancelling with
    | true => exact closeCancelled_orderly hq h.1 _
    | false =>
      dsimp only
      split
      · exact closeHalted_orderly hq h.1 _
      · exact advance_orderly hq h.1 h.2 _ _
  | waiting rest =>
    rw [hphase] at h
    cases run.cancelling with
    | true => exact closeCancelled_orderly hq h.1 _
    | false => exact advance_orderly hq h.1 h.2 _ _
  | parked rest =>
    rw [hphase] at h
    cases run.cancelling with
    | true => exact closeCancelled_orderly hq h.underway _
    | false =>
      dsimp only
      split
      · rename_i hreleased
        exact leavePause_orderly hq h.underway (h.freed hreleased) rest _
      · exact ⟨.of_eq rfl rfl rfl, h⟩

end Controller

end BlockCalculus
