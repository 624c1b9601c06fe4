import BlockCalculus.Proofs.Session

/-!
# What was asked for

What a controller does at a step goes by what was asked of it: at which blocks to pause, whether to
heed that, and whether to pause at the next step. Here is what one control does to that
(`contains_mark`, `ignoring_mark`, `pauseNext_mark`), and `latest?` to say it of a history. That a
control may end a pause makes no difference to it (`applied_asked`).

A turn walks on from where the run is. `advance_forms` says where that leads, for any walk and on any
tree.
-/

namespace BlockCalculus

/-! ## The last word -/

/-- What was said last in a history, if anything was. -/
def latest? {α β : Type} (said : α → Option β) (history : List α) : Option β :=
  history.reverse.findSome? said

@[simp] theorem latest?_concat {α β : Type} (said : α → Option β) (history : List α) (a : α) :
    latest? said (history ++ [a]) = (said a).or (latest? said history) := by
  rw [latest?, List.reverse_append, List.reverse_singleton, List.findSome?_append]
  simp [latest?]

/-! ## One control -/

namespace Control

/-- Whether a control asks to pause at a block from now on, or no longer. -/
def breakpointAt? (id : String) : Control → Option Bool
  | .setBreakpoint id' enabled => if id' = id then some enabled else none
  | _ => none

/-- Whether a control asks to pause at no block from now on, or again. -/
def ignoring? : Control → Option Bool
  | .ignoreBreakpoints ignore => some ignore
  | _ => none

end Control

namespace Controller

/-- Whether a control asks a controller for a pause at the next step. To single-step does so at any
time, to pause only while a run is going on. -/
def requests (control : Control) (c : Controller) : Bool :=
  control == .singleStep || control == .pause && c.state == .running

variable {c : Controller}

theorem state_of_idle (h : c.isRunning = false) : c.state ≠ .running ∧ c.state ≠ .paused := by
  constructor <;>
  · intro hstate
    rw [isRunning, hstate] at h
    exact absurd h (by decide)

theorem contains_mark (control : Control) (c : Controller) (id : String) :
    (c.mark control).breakpoints.contains id =
      (control.breakpointAt? id).getD (c.breakpoints.contains id) := by
  cases control with
  | setBreakpoint id' enabled =>
    rw [Bool.eq_iff_iff]
    by_cases hid : id' = id
    · cases enabled <;> simp [mark, Control.breakpointAt?, hid]
    · have hne : id ≠ id' := fun h => hid h.symm
      cases enabled <;> simp [mark, Control.breakpointAt?, hid, hne]
  | pause | halt =>
    unfold mark
    dsimp only
    split <;> rfl
  | _ => rfl

theorem ignoring_mark (control : Control) (c : Controller) :
    (c.mark control).ignoring = control.ignoring?.getD c.ignoring := by
  cases control with
  | pause | halt =>
    unfold mark
    dsimp only
    split <;> rfl
  | _ => rfl

/-- Only to halt takes a request for a pause back. -/
theorem pauseNext_mark {control : Control} (h : control ≠ .halt ∨ c.isRunning = false) :
    (c.mark control).pauseNext = (c.requests control || c.pauseNext) := by
  cases control with
  | pause =>
    unfold mark
    dsimp only
    split
    · rename_i hstate
      simp [requests, hstate]
    · rename_i hstate
      simp [requests, hstate]
  | halt =>
    have hidle : c.isRunning = false := h.resolve_left fun hne => hne rfl
    simp [mark, hidle, requests]
  | _ => rfl

/-- To end a pause changes nothing about what was asked for. -/
theorem applied_asked (control : Control) (c : Controller) :
    (c.applied control).breakpoints = (c.mark control).breakpoints ∧
      (c.applied control).ignoring = (c.mark control).ignoring ∧
      (c.applied control).pauseNext = (c.mark control).pauseNext := by
  unfold applied
  split <;> exact ⟨rfl, rfl, rfl⟩

/-- **What asking for a control can do**, unless it is to halt. It decides at most where a run pauses
and how fast it is, and it may end a pause. -/
theorem applied_cases {control : Control} (h : control ≠ .halt) (c : Controller) :
    ∃ pauseNext breakpoints ignoring speed,
      c.applied control = { c with pauseNext, breakpoints, ignoring, speed } ∨
        c.state = .paused ∧ ∃ log, c.applied control =
          { c with
            pauseNext, breakpoints, ignoring, speed, state := .running, released := true, log } := by
  obtain ⟨pauseNext, breakpoints, ignoring, speed, heq⟩ :
      ∃ pauseNext breakpoints ignoring speed,
        c.mark control = { c with pauseNext, breakpoints, ignoring, speed } :=
    (mark_cases control c).resolve_right fun hhalt => h hhalt.1
  refine ⟨pauseNext, breakpoints, ignoring, speed, ?_⟩
  unfold applied
  split
  · rename_i hpaused
    rw [heq]
    exact .inr ⟨hpaused.1, _, rfl⟩
  · exact .inl heq

/-! ## A turn -/

/-- Taking on a state writes to the log and changes nothing else. -/
theorem exists_entered_eq (state : RunState) (c : Controller) :
    ∃ log, c.entered state = { c with state, log } := by
  unfold entered
  split
  · rename_i hstate
    subst hstate
    exact ⟨c.log, rfl⟩
  · exact ⟨_, rfl⟩

/-- To begin a pause meets the requests for one. -/
theorem exists_parkedAt_eq (b : Block) (c : Controller) :
    ∃ log, c.parkedAt b =
      { c with state := .paused, pauseNext := false, released := false, log } := by
  unfold parkedAt
  dsimp only
  obtain ⟨log, heq⟩ := exists_entered_eq .paused
    { (if c.pausesAt b.head.id then
        c.write (.note ("Breakpoint hit at " ++ b.head.label ++ " (" ++ b.head.id ++ ")"))
      else c) with pauseNext := false, released := false }
  refine ⟨log, heq.trans ?_⟩
  split <;> rfl

/-- To get ready for a run leaves alone what was asked for. -/
theorem exists_prepared_eq (speed : Option Speed) (root : Block) (c : Controller) :
    ∃ log, c.prepared speed root =
      { c with
        state := .running
        speed := speed.getD c.speed
        halting := false
        released := false
        steps := 0
        result := none
        error := none
        treeBreakpoints := root.breakpoints
        log } :=
  exists_entered_eq .running _

/-- **A run that is to begin gets ready and walks on from the beginning.** -/
theorem turn_of_scheduled (hq : c.Quiet) (hidle : c.isRunning = false) {run : Run}
    (hphase : run.phase = .scheduled) (hcancel : run.cancelling = false) (tree : Block) :
    c.turn run tree =
      let root := (run.scene tree).now run.root
      advance (Site.walk c.settings.options { run.root with block := root } run.inputs)
        (run.scene tree) (c.prepared run.speed root) := by
  obtain ⟨log, heq⟩ := exists_prepared_eq run.speed ((run.scene tree).now run.root) c
  rw [turn, hphase, hcancel]
  dsimp only
  rw [start, begin]
  dsimp only
  rw [prepare_quiet hq hidle]
  dsimp only
  rw [heq]

theorem quiet_prepared (hq : c.Quiet) (speed : Option Speed) (root : Block) :
    (c.prepared speed root).Quiet := by
  obtain ⟨log, heq⟩ := exists_prepared_eq speed root c
  rw [heq]
  exact hq

end Controller

/-- The number of turns that a walk takes to its next step or to its end, on a tree that nobody edits
meanwhile: one, and one more for each rule that waits. -/
def Walk.turnsToStep (c : Catalog) (scene : Scene) : Walk Int → Nat
  | .done _ | .fail _ | .step _ _ => 1
  | .wait rest => turnsToStep c scene (rest ()) + 1
  | .look site next => turnsToStep c scene (next (scene.view site))
  | .consult kind next => turnsToStep c scene (next (c.lookup? kind))

theorem Walk.turnsToStep_pos (c : Catalog) (scene : Scene) (w : Walk Int) :
    0 < w.turnsToStep c scene := by
  induction w with
  | done _ | fail _ | step _ _ _ => exact Nat.one_pos
  | wait rest _ => exact Nat.succ_pos _
  | look site next ih => exact ih _
  | consult kind next ih => exact ih _

/-- **Walking on leads to a value, to an error, to a rule that waits, or to a step**, on any tree. -/
theorem Controller.advance_forms (w : Walk Int) (scene : Scene) (c : Controller) :
    (∃ n, advance w scene c = c.closeCompleted n scene) ∨
      (∃ e : Failure, advance w scene c = c.closeRaised e.fault scene) ∨
      (∃ rest, w.turnsToStep c.settings.catalog scene =
          (rest ()).turnsToStep c.settings.catalog scene + 1 ∧
        advance w scene c = ⟨.waiting rest, c, scene⟩) ∨
      ∃ s rest, advance w scene c = c.report s rest (scene.trace c.settings.options.trace s) := by
  induction w with
  | done n => exact .inl ⟨n, rfl⟩
  | fail e => exact .inr (.inl ⟨e, rfl⟩)
  | step s rest _ => exact .inr (.inr (.inr ⟨s, rest, rfl⟩))
  | wait rest _ => exact .inr (.inr (.inl ⟨rest, rfl, rfl⟩))
  | look site next ih => exact ih _
  | consult kind next ih => exact ih _

end BlockCalculus
