import BlockCalculus.Proofs.Requests

/-!
# Twin controllers

Two controllers that differ only in their logs, and in the order of their breakpoints, are twins:
whatever is asked of both of them, and whatever turns their runs take, the same happens to both.

What happens is what observers are told, and the delays (`Controller.events`). Notes are left out,
for they may mention what is past.

* `Controller.Twins.applied`: twins stay twins when the same is asked of both.
* `Controller.Twins.turn`: runs in the same phase take the same turn under twins.

Observers are quiet throughout.
-/

namespace BlockCalculus

/-! ## Twins -/

/-- Whether an entry of the log is a note. -/
def LogEntry.isNote : LogEntry → Bool
  | .note _ => true
  | _ => false

namespace Controller

/-- What happened according to the log, in order: what observers were told, and the delays. -/
def events (c : Controller) : List LogEntry :=
  c.log.toList.filter fun e => !e.isNote

/-- Two controllers that differ in their logs and in the order of their breakpoints at most. After
some events each, the same happened to both. -/
def Twins (past past' : List LogEntry) (c c' : Controller) : Prop :=
  ∃ log breakpoints, c' = { c with log, breakpoints } ∧
    (∀ id, breakpoints.contains id = c.breakpoints.contains id) ∧
    ∃ new, c.events = past ++ new ∧ c'.events = past' ++ new

section Twins

variable {past past' : List LogEntry} {c c' : Controller}

theorem Twins.settings (h : c.Twins past past' c') : c'.settings = c.settings := by
  obtain ⟨log, breakpoints, rfl, -⟩ := h
  rfl

theorem Twins.state (h : c.Twins past past' c') : c'.state = c.state := by
  obtain ⟨log, breakpoints, rfl, -⟩ := h
  rfl

theorem Twins.steps (h : c.Twins past past' c') : c'.steps = c.steps := by
  obtain ⟨log, breakpoints, rfl, -⟩ := h
  rfl

theorem Twins.released (h : c.Twins past past' c') : c'.released = c.released := by
  obtain ⟨log, breakpoints, rfl, -⟩ := h
  rfl

theorem Twins.quiet (h : c.Twins past past' c') (hq : c.Quiet) : c'.Quiet := by
  unfold Quiet
  rw [h.settings]
  exact hq

theorem Twins.halting (h : c.Twins past past' c') : c'.halting = c.halting := by
  obtain ⟨log, breakpoints, rfl, -⟩ := h
  rfl

theorem Twins.pausesAt (h : c.Twins past past' c') (id : String) :
    c'.pausesAt id = c.pausesAt id := by
  obtain ⟨log, breakpoints, rfl, hbreakpoints, -⟩ := h
  unfold Controller.pausesAt
  dsimp only
  rw [hbreakpoints]

/-- What neither reads nor writes the log or the breakpoints keeps twins twins. -/
theorem Twins.map {f : Controller → Controller}
    (hf : ∀ c log breakpoints, f { c with log, breakpoints } = { f c with log, breakpoints })
    (hlog : ∀ c, (f c).log = c.log) (hbreakpoints : ∀ c, (f c).breakpoints = c.breakpoints)
    (h : c.Twins past past' c') : (f c).Twins past past' (f c') := by
  obtain ⟨log, breakpoints, rfl, hsame, new, hnew, hnew'⟩ := h
  refine ⟨log, breakpoints, hf c log breakpoints, ?_, new, ?_, ?_⟩
  · rw [hbreakpoints]
    exact hsame
  · rw [events, hlog]
    exact hnew
  · rw [events, hlog]
    exact hnew'

theorem events_write (e : LogEntry) (c : Controller) :
    (c.write e).events = c.events ++ if e.isNote then [] else [e] := by
  cases he : e.isNote <;> simp [events, write, he]

theorem events_announce (n : Notice) (c : Controller) :
    (c.announce n).events =
      c.events ++ c.settings.observers.map fun o => LogEntry.told o.label n := by
  have hall : (c.settings.observers.map fun o => LogEntry.told o.label n).filter
      (fun e => !e.isNote) = c.settings.observers.map fun o => LogEntry.told o.label n := by
    refine List.filter_eq_self.mpr fun e he => ?_
    obtain ⟨o, -, rfl⟩ := List.mem_map.mp he
    rfl
  simp only [events, announce, Array.toList_append, List.filter_append]
  rw [hall]

theorem Twins.write (e : LogEntry) (h : c.Twins past past' c') :
    (c.write e).Twins past past' (c'.write e) := by
  obtain ⟨log, breakpoints, rfl, hsame, new, hnew, hnew'⟩ := h
  refine ⟨_, breakpoints, rfl, hsame, new ++ if e.isNote then [] else [e], ?_, ?_⟩
  · rw [events_write, hnew, List.append_assoc]
  · rw [events_write, hnew', List.append_assoc]

theorem Twins.announce (n : Notice) (h : c.Twins past past' c') :
    (c.announce n).Twins past past' (c'.announce n) := by
  obtain ⟨log, breakpoints, rfl, hsame, new, hnew, hnew'⟩ := h
  refine ⟨_, breakpoints, rfl, hsame,
    new ++ c.settings.observers.map fun o => LogEntry.told o.label n, ?_, ?_⟩
  · rw [events_announce, hnew, List.append_assoc]
  · rw [events_announce, hnew', List.append_assoc]

theorem Twins.become (state : RunState) (h : c.Twins past past' c') :
    (c.become state).Twins past past' (c'.become state) := by
  unfold Controller.become
  rw [h.state]
  exact (h.write _).map (f := fun c => { c with state }) (fun _ _ _ => rfl) (fun _ => rfl)
    fun _ => rfl

theorem Twins.entered (state : RunState) (h : c.Twins past past' c') :
    (c.entered state).Twins past past' (c'.entered state) := by
  unfold Controller.entered
  rw [h.state]
  split
  · exact h
  · exact (h.become state).announce _

theorem Twins.settle (h : c.Twins past past' c') : c.settle.Twins past past' c'.settle :=
  h.map (f := Controller.settle) (fun _ _ _ => rfl) (fun _ => rfl) fun _ => rfl

theorem Twins.reported (b : Block) (result : Int) (h : c.Twins past past' c') :
    (c.reported b result).Twins past past' (c'.reported b result) := by
  unfold Controller.reported
  rw [h.steps]
  exact (h.map (f := fun c' => { c' with steps := c.steps + 1, highlight := some b.head.id })
    (fun _ _ _ => rfl) (fun _ => rfl) fun _ => rfl).announce _

theorem Twins.parkedAt (b : Block) (h : c.Twins past past' c') :
    (c.parkedAt b).Twins past past' (c'.parkedAt b) := by
  have hclear {c c' : Controller} (h : c.Twins past past' c') :
      { c with pauseNext := false, released := false }.Twins past past'
        { c' with pauseNext := false, released := false } :=
    h.map (f := fun c => { c with pauseNext := false, released := false })
      (fun _ _ _ => rfl) (fun _ => rfl) fun _ => rfl
  unfold Controller.parkedAt
  rw [h.pausesAt]
  dsimp only
  split
  · exact (hclear (h.write _)).entered _
  · exact (hclear h).entered _

/-- **Twins mark down the same.** -/
theorem Twins.mark (control : Control) (h : c.Twins past past' c') :
    (c.mark control).Twins past past' (c'.mark control) := by
  cases control with
  | setBreakpoint id enabled =>
    obtain ⟨log, breakpoints, rfl, hsame, new, hnew, hnew'⟩ := h
    refine ⟨log, _, rfl, fun id' => ?_, new, hnew, hnew'⟩
    exact (contains_mark (.setBreakpoint id enabled) { c with log, breakpoints } id').trans
      ((congrArg _ (hsame id')).trans (contains_mark (.setBreakpoint id enabled) c id').symm)
  | pause =>
    unfold Controller.mark
    dsimp only
    by_cases hstate : c.state = .running
    · rw [if_pos hstate, if_pos (h.state.trans hstate)]
      exact h.map (f := fun c => { c with pauseNext := true }) (fun _ _ _ => rfl) (fun _ => rfl)
        fun _ => rfl
    · rw [if_neg hstate, if_neg (by rwa [h.state])]
      exact h
  | halt =>
    unfold Controller.mark isRunning
    dsimp only
    rw [h.state]
    split
    · exact (h.write _).map
        (f := fun c => { c with halting := true, pauseNext := false, released := true })
        (fun _ _ _ => rfl) (fun _ => rfl) fun _ => rfl
    · exact h
  | resume => exact h
  | singleStep =>
    exact h.map (f := Controller.mark .singleStep) (fun _ _ _ => rfl) (fun _ => rfl) fun _ => rfl
  | ignoreBreakpoints ignore =>
    exact h.map (f := Controller.mark (.ignoreBreakpoints ignore)) (fun _ _ _ => rfl) (fun _ => rfl)
      fun _ => rfl
  | setSpeed speed =>
    exact h.map (f := Controller.mark (.setSpeed speed)) (fun _ _ _ => rfl) (fun _ => rfl)
      fun _ => rfl

theorem Twins.applied (control : Control) (h : c.Twins past past' c') :
    (c.applied control).Twins past past' (c'.applied control) := by
  unfold Controller.applied
  rw [h.state]
  split
  · exact (((h.mark control).become _).announce _).map (f := fun c => { c with released := true })
      (fun _ _ _ => rfl) (fun _ => rfl) fun _ => rfl
  · exact h.mark control

end Twins

end Controller

/-- Two turns that lead to the same, but for twins. -/
def Turn.Twins (past past' : List LogEntry) (t t' : Turn) : Prop :=
  t'.phase = t.phase ∧ t'.scene = t.scene ∧ t.controller.Twins past past' t'.controller

namespace Controller

section Turn

variable {past past' : List LogEntry} {c c' : Controller}

theorem Twins.close (h : c.Twins past past' c') (hq : c.Quiet) (state : RunState)
    (ending : RunEnding) (scene : Scene) :
    (c.close state ending scene).Twins past past' (c'.close state ending scene) := by
  rw [close_quiet hq, close_quiet (h.quiet hq)]
  exact ⟨rfl, rfl, (h.entered state).settle⟩

theorem Twins.closeHalted (h : c.Twins past past' c') (hq : c.Quiet) (scene : Scene) :
    (c.closeHalted scene).Twins past past' (c'.closeHalted scene) := by
  unfold Controller.closeHalted
  rw [h.steps]
  exact (h.write _).close (by exact hq) _ _ _

theorem Twins.closeRaised (h : c.Twins past past' c') (hq : c.Quiet) (e : Failure)
    (scene : Scene) :
    (c.closeRaised e.fault scene).Twins past past' (c'.closeRaised e.fault scene) := by
  rw [closeRaised_fault, closeRaised_fault]
  exact (h.map (f := fun c => { c with error := e.fault.error?.or c.error }) (fun _ _ _ => rfl)
    (fun _ => rfl) fun _ => rfl).close (by exact hq) _ _ _

theorem Twins.closeCompleted (h : c.Twins past past' c') (hq : c.Quiet) (n : Int)
    (scene : Scene) : (c.closeCompleted n scene).Twins past past' (c'.closeCompleted n scene) := by
  rw [closeCompleted_quiet hq, closeCompleted_quiet (h.quiet hq)]
  have hvalue := h.map (f := fun c => { c.settle with result := some n }) (fun _ _ _ => rfl)
    (fun _ => rfl) fun _ => rfl
  exact ⟨rfl, rfl, (hvalue.entered .completed).announce _⟩

theorem Twins.delay (h : c.Twins past past' c') (rest : Unit → Walk Int) (scene : Scene) :
    (c.delay rest scene).Twins past past' (c'.delay rest scene) := by
  unfold Controller.delay
  have hspeed : c'.speed = c.speed := by
    obtain ⟨log, breakpoints, rfl, -⟩ := h
    rfl
  rw [h.settings, hspeed]
  exact ⟨rfl, rfl, h.write _⟩

theorem Twins.report (h : c.Twins past past' c') (hq : c.Quiet) (s : Step)
    (rest : Unit → Walk Int) (scene : Scene) :
    (c.report s rest scene).Twins past past' (c'.report s rest scene) := by
  cases hhalting : c.halting with
  | true =>
    have hhalting' : c'.halting = true := h.halting.trans hhalting
    rw [Controller.report, Controller.report, if_pos hhalting, if_pos hhalting']
    exact h.closeHalted hq scene
  | false =>
    rw [report_quiet hq hhalting, report_quiet (h.quiet hq) (h.halting.trans hhalting)]
    dsimp only
    have hreported := h.reported (scene.now s.toSite) s.result
    have hpauseNext : c'.pauseNext = c.pauseNext := by
      obtain ⟨log, breakpoints, rfl, -⟩ := h
      rfl
    have hdue : ((c'.reported (scene.now s.toSite) s.result).pausesAt (scene.now s.toSite).head.id ||
        (c'.reported (scene.now s.toSite) s.result).pauseNext) =
          ((c.reported (scene.now s.toSite) s.result).pausesAt (scene.now s.toSite).head.id ||
            (c.reported (scene.now s.toSite) s.result).pauseNext) := by
      rw [hreported.pausesAt]
      exact congrArg _ hpauseNext
    rw [hdue]
    split
    · exact ⟨rfl, rfl, hreported.parkedAt _⟩
    · exact hreported.delay rest scene

/-- **Twins walk on alike.** -/
theorem Twins.advance (h : c.Twins past past' c') (hq : c.Quiet) (w : Walk Int) (scene : Scene) :
    (advance w scene c).Twins past past' (advance w scene c') := by
  induction w with
  | done n => exact h.closeCompleted hq n scene
  | fail e => exact h.closeRaised hq e scene
  | step s rest _ =>
    unfold Controller.advance
    rw [h.settings]
    exact h.report hq s rest _
  | wait rest _ => exact ⟨rfl, rfl, h⟩
  | look site next ih => exact ih _
  | consult kind next ih =>
    unfold Controller.advance
    rw [h.settings]
    exact ih _

theorem Twins.leavePause (h : c.Twins past past' c') (hq : c.Quiet) (rest : Unit → Walk Int)
    (scene : Scene) : (c.leavePause rest scene).Twins past past' (c'.leavePause rest scene) := by
  unfold Controller.leavePause
  rw [h.halting]
  split
  · exact h.closeHalted hq scene
  · exact h.delay rest scene

/-- **Twins take the same turns**, once the run has begun. -/
theorem Twins.turn (h : c.Twins past past' c') (hq : c.Quiet) {run : Run}
    (hbegun : run.phase ≠ .scheduled) (tree : Block) :
    (c.turn run tree).Twins past past' (c'.turn run tree) := by
  unfold Controller.turn
  dsimp only
  rw [h.halting, h.released]
  cases hphase : run.phase with
  | scheduled => exact absurd hphase hbegun
  | finished ending => exact ⟨rfl, rfl, h⟩
  | delayed rest =>
    cases run.cancelling with
    | true => exact h.close hq _ _ _
    | false =>
      dsimp only
      split
      · exact h.closeHalted hq _
      · exact h.advance hq _ _
  | parked rest =>
    cases run.cancelling with
    | true => exact h.close hq _ _ _
    | false =>
      dsimp only
      split
      · exact h.leavePause hq rest _
      · exact ⟨rfl, rfl, h⟩
  | waiting rest =>
    cases run.cancelling with
    | true => exact h.close hq _ _ _
    | false => exact h.advance hq _ _

end Turn

end Controller

end BlockCalculus
