import BlockCalculus.Controller.Run

/-!
# Observers

What becomes of a controller when it is asked for something and when its observers are told
something.

`mark_cases` says what marking a control down can do; what it preserves follows.

Observers may ask for controls in turn, and any of them may fail. What holds of a controller all the
same is proved once, for any property that marking down a control and leaving a pause preserve
(`apply_preserves`, `notify_preserves`, `enter_preserves`).

If observers are quiet, that is, if they neither ask for anything nor fail, then to tell them
something is to write it to the log, once for each of them (`notify_quiet`), and so each operation
has one outcome (`enter_quiet`, `apply_quiet`).
-/

namespace BlockCalculus

namespace Controller

/-! ## Marking down -/

/-- **What marking a control down can do.** To halt asks a run in progress to stop. Everything else
decides at most where a run pauses, and how fast it is. -/
theorem mark_cases (control : Control) (c : Controller) :
    (∃ pauseNext breakpoints ignoring speed,
        c.mark control = { c with pauseNext, breakpoints, ignoring, speed }) ∨
      control = .halt ∧ c.isRunning = true ∧
        c.mark control =
          { c.write (.note "Halt requested") with
            halting := true
            pauseNext := false
            released := true } := by
  cases control with
  | pause =>
    unfold mark
    dsimp only
    split
    · exact .inl ⟨true, _, _, _, rfl⟩
    · exact .inl ⟨_, _, _, _, rfl⟩
  | halt =>
    unfold mark
    dsimp only
    split
    · rename_i hrun
      exact .inr ⟨rfl, hrun, rfl⟩
    · exact .inl ⟨_, _, _, _, rfl⟩
  | _ => exact .inl ⟨_, _, _, _, rfl⟩

@[simp] theorem mark_state (control : Control) (c : Controller) :
    (c.mark control).state = c.state := by
  obtain ⟨_, _, _, _, h⟩ | ⟨-, -, h⟩ := mark_cases control c <;> rw [h]
  rfl

@[simp] theorem mark_settings (control : Control) (c : Controller) :
    (c.mark control).settings = c.settings := by
  obtain ⟨_, _, _, _, h⟩ | ⟨-, -, h⟩ := mark_cases control c <;> rw [h]
  rfl

/-! ## Whatever observers do -/

section Preserved

variable {P : Controller → Prop} {act : Control → Controller → Effect}

theorem carryOut_preserves (hact : ∀ control c, P c → P (act control c).1)
    (reactions : List Reaction) {c : Controller} (hc : P c) : P (carryOut act reactions c).1 := by
  induction reactions generalizing c with
  | nil => exact hc
  | cons reaction rest ih =>
    cases reaction with
    | fail f => exact hc
    | control control =>
      unfold carryOut Effect.andThen
      have h := hact control c hc
      split
      · rename_i c' heq
        rw [heq] at h
        exact ih h
      · rename_i c' f heq
        rw [heq] at h
        exact h

/-- What reactions and the telling itself preserve, telling observers preserves. -/
theorem tell_preserves (hact : ∀ control c, P c → P (act control c).1) (past : Tellings)
    {n : Notice} (hwrite : ∀ label c, P c → P (c.write (.told label n)))
    (observers : List Observer) {c : Controller} (hc : P c) :
    P (tell act past n observers c).1 := by
  induction observers generalizing c with
  | nil => exact hc
  | cons o rest ih =>
    unfold tell Effect.andThen
    have h := carryOut_preserves hact (o.react past n) (hwrite o.label c hc)
    split
    · rename_i c' heq
      rw [heq] at h
      exact ih h
    · rename_i c' f heq
      rw [heq] at h
      exact h

/-- A property of controllers that no control can break. -/
structure Stable (P : Controller → Prop) : Prop where
  mark : ∀ control c, P c → P (c.mark control)
  /-- A pause may end. -/
  leave : ∀ c, c.state = .paused → P c → P (c.become .running)
  tellRunning : ∀ label c, P c → P (c.write (.told label (.state .running)))
  release : ∀ c, P c → P { c with released := true }

/-- **What no control can break holds after any control**, whatever observers do about it. -/
theorem apply_preserves (hP : Stable P) (control : Control) {c : Controller} (hc : P c) :
    P (c.apply control).1 := by
  unfold apply
  split
  · rename_i hpaused
    have hmarked := hP.mark control c hc
    have hrunning : P ((c.mark control).become .running) :=
      hP.leave _ ((mark_state control c).trans hpaused.1) hmarked
    have htold : P (tell (fun control c => (c.mark control, none)) (c.mark control).tellings
        (.state .running) (c.mark control).settings.observers
        ((c.mark control).become .running)).1 :=
      tell_preserves hP.mark _ hP.tellRunning _ hrunning
    unfold release Effect.andThen
    dsimp only
    split
    · rename_i c' heq
      rw [heq] at htold
      exact hP.release c' htold
    · rename_i c' f heq
      rw [heq] at htold
      exact htold
  · exact hP.mark control c hc

theorem notify_preserves (hP : Stable P) {n : Notice}
    (hwrite : ∀ label c, P c → P (c.write (.told label n))) {c : Controller} (hc : P c) :
    P (c.notify n).1 :=
  tell_preserves (fun control _ h => apply_preserves hP control h) _ hwrite _ hc

theorem enter_preserves (hP : Stable P) {state : RunState}
    (hwrite : ∀ label c, P c → P (c.write (.told label (.state state)))) {c : Controller}
    (hbecome : P (c.become state)) (hc : P c) : P (c.enter state).1 := by
  unfold enter
  split
  · exact hc
  · exact notify_preserves hP hwrite hbecome

end Preserved

/-! ## Quiet observers -/

/-- The observers neither ask for anything nor fail. -/
def Quiet (c : Controller) : Prop :=
  ∀ o ∈ c.settings.observers, ∀ past n, o.react past n = []

/-- Writes to the log what every observer is told. -/
def announce (n : Notice) (c : Controller) : Controller :=
  { c with log := c.log ++ (c.settings.observers.map fun o => LogEntry.told o.label n).toArray }

theorem tell_quiet (act : Control → Controller → Effect) {past : Tellings} (n : Notice)
    {observers : List Observer} (hq : ∀ o ∈ observers, o.react past n = []) (c : Controller) :
    tell act past n observers c =
      ({ c with log := c.log ++ (observers.map fun o => LogEntry.told o.label n).toArray },
        none) := by
  induction observers generalizing c with
  | nil => simp [tell]
  | cons o rest ih =>
    rw [tell, hq o List.mem_cons_self, carryOut, Effect.andThen,
      ih fun o' ho' => hq o' (List.mem_cons_of_mem o ho')]
    simp [write]

theorem notify_quiet {c : Controller} (hq : c.Quiet) (n : Notice) :
    c.notify n = (c.announce n, none) :=
  tell_quiet _ n (fun o ho => hq o ho _ n) c

/-- The controller after it has taken on a state under quiet observers. -/
def entered (state : RunState) (c : Controller) : Controller :=
  if c.state = state then c else (c.become state).announce (.state state)

theorem enter_quiet {c : Controller} (hq : c.Quiet) (state : RunState) :
    c.enter state = (c.entered state, none) := by
  unfold enter entered
  split
  · rfl
  · have hbecome : (c.become state).Quiet := hq
    exact notify_quiet hbecome (.state state)

/-- The controller after a control was asked for under quiet observers. -/
def applied (control : Control) (c : Controller) : Controller :=
  if c.state = .paused ∧ (control = .resume ∨ control = .singleStep) then
    { ((c.mark control).become .running).announce (.state .running) with released := true }
  else c.mark control

theorem apply_quiet {c : Controller} (hq : c.Quiet) (control : Control) :
    c.apply control = (c.applied control, none) := by
  unfold apply applied
  dsimp only
  split
  · have hmarked (past : Tellings) :
        ∀ o ∈ (c.mark control).settings.observers, o.react past (.state .running) = [] := by
      intro o ho
      rw [mark_settings] at ho
      exact hq o ho _ _
    unfold release
    dsimp only
    rw [tell_quiet _ _ (hmarked _)]
    rfl
  · rfl

end Controller

end BlockCalculus
