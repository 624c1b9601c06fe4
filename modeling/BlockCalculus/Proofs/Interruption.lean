import BlockCalculus.Proofs.Halt

/-!
# Halting from inside a step

An observer may ask to halt while it is being told of a step. This step is then the last one. What
becomes of the run until its end depends on whether a pause is due after the step
(`Delivery.pauses`): nothing looks at the request to halt before the pause begins.

* `Session.Arises.delivered`: what holds when a turn comes to a step (`Session.delivery?`).
* `Controller.tell_halts`: a request to halt by an observer stands when all observers were told.
* `Session.haltedSince_of_asked`: then the next turn leaves the run halted, unless a pause holds it
  back (`Controller.paused_spec`).
* `Controller.closeRaised_spec`: an observer that fails at the step ends the run with that turn, in
  the state that the handler of its fault sets.
* `halt_at_step`: if no observer fails and no pause is due, the run goes from running to halted with
  its next turn, whatever else is called for. If one is due, the run is paused all the same, and the
  pause lasts until somebody ends it; only then is the run halted.

Observers may ask for anything and may fail.
-/

namespace BlockCalculus

/-! ## Steps on their way to the observers -/

/-- A step on its way to the observers: the controller by then, the step, what is left to walk after
it, and the scene. -/
structure Delivery where
  controller : Controller
  step : Step
  rest : Unit → Walk Int
  scene : Scene

namespace Delivery

/-- The block of the step as it is now. -/
def block (d : Delivery) : Block :=
  d.scene.now d.step.toSite

/-- What observers are told. -/
def notice (d : Delivery) : Notice :=
  .step (d.controller.steps + 1) d.block d.step.result

/-- What telling them comes to. -/
def told (d : Delivery) : Effect :=
  { d.controller with
    steps := d.controller.steps + 1
    highlight := some d.block.head.id }.notify d.notice

/-- Whether a pause is due once they were told: there is a breakpoint at the block that is not
ignored, or a pause at the next step was requested and nobody asked to halt since. -/
def pauses (d : Delivery) : Bool :=
  d.told.1.pausesAt d.block.head.id || d.told.1.pauseNext

/-- The turn that reports the step. -/
def turn (d : Delivery) : Turn :=
  d.controller.report d.step d.rest d.scene

end Delivery

namespace Controller

/-- The step that walking on comes to, unless the run has to wait, ends, or is stopped before. -/
def delivers? : Walk Int → Scene → Controller → Option Delivery
  | .done _, _, _ | .fail _, _, _ | .wait _, _, _ => none
  | .step s rest, scene, c =>
    if c.halting then none else some ⟨c, s, rest, scene.trace c.settings.options.trace s⟩
  | .look site next, scene, c => delivers? (next (scene.view site)) scene c
  | .consult kind next, scene, c => delivers? (next (c.settings.catalog.lookup? kind)) scene c

/-- The step that a turn of a run comes to. -/
def delivery? (run : Run) (tree : Block) (c : Controller) : Option Delivery :=
  let scene := run.scene tree
  match run.phase, run.cancelling with
  | .scheduled, false =>
    let root := scene.now run.root
    match c.prepare run.speed root with
    | (c, none) =>
      delivers? (Site.walk c.settings.options { run.root with block := root } run.inputs) scene c
    | (_, some _) => none
  | .delayed rest, false => if c.halting then none else delivers? (rest ()) scene c
  | .waiting rest, false => delivers? (rest ()) scene c
  | _, _ => none

end Controller

/-- The step that the next turn of a session comes to. -/
def Session.delivery? (s : Session) : Option Delivery :=
  s.controller.delivery? s.run s.tree

namespace Controller

theorem advance_of_delivers? {w : Walk Int} {scene : Scene} {c : Controller} {d : Delivery}
    (h : delivers? w scene c = some d) :
    advance w scene c = d.turn ∧ d.controller = c ∧ c.halting = false := by
  induction w with
  | done n => cases h
  | fail e => cases h
  | wait rest _ => cases h
  | step s rest _ =>
    unfold delivers? at h
    split at h
    · cases h
    · rename_i hhalting
      cases h
      exact ⟨rfl, rfl, Bool.eq_false_iff.mpr hhalting⟩
  | look site next ih => exact ih _ h
  | consult kind next ih => exact ih _ h

/-! ## A run that is not paused is running -/

/-- A pause is over only because the run is to stop, or because it goes on. -/
def Freed (c : Controller) : Prop :=
  c.released = true → c.halting = true ∨ c.state = .running

theorem release_state (c : Controller) : c.release.1.state = .running := by
  have htold : (tell (fun control c => (c.mark control, none)) c.tellings (.state .running)
      c.settings.observers (c.become .running)).1.state = .running :=
    tell_preserves (P := fun c => c.state = .running)
      (fun control c h => (mark_state control c).trans h) _ (fun _ _ h => h) _ rfl
  unfold release Effect.andThen
  dsimp only
  split
  · rename_i c' heq
    rw [heq] at htold
    exact htold
  · rename_i c' f heq
    rw [heq] at htold
    exact htold

theorem Freed.apply {c : Controller} (h : c.Freed) (control : Control) :
    (c.apply control).1.Freed := by
  unfold Controller.apply
  split
  · exact fun _ => .inr (release_state _)
  · obtain ⟨_, _, _, _, heq⟩ | ⟨-, -, heq⟩ := mark_cases control c
    · rw [heq]
      exact h
    · rw [heq]
      exact fun _ => .inl rfl

theorem Freed.notify {c : Controller} (h : c.Freed) (n : Notice) : (c.notify n).1.Freed :=
  tell_preserves (fun control _ h => h.apply control) _ (fun _ _ h => h) _ h

theorem Freed.enter {c : Controller} (h : c.Freed) {state : RunState}
    (hbecome : (c.become state).Freed) : (c.enter state).1.Freed := by
  unfold Controller.enter
  split
  · exact h
  · exact hbecome.notify _

end Controller

/-- What a controller shows of a run that has begun: in a delay it is running, and so it is after a
pause, unless the run is to stop. -/
def Phase.Steady (c : Controller) : Phase → Prop
  | .scheduled | .finished _ => True
  | .delayed _ | .waiting _ => c.state = .running
  | .parked _ => c.Freed

/-- A turn leads to a run that fits its controller. -/
def Turn.Steady (t : Turn) : Prop :=
  t.phase.Steady t.controller

namespace Controller

theorem stable_running : Stable fun c => c.state = .running :=
  stable_state (P := fun state => state = .running) fun _ => rfl

theorem closeRaised_steady (f : Fault) (scene : Scene) (c : Controller) :
    (c.closeRaised f scene).Steady := by
  obtain ⟨ending, hphase⟩ := closeRaised_phase f scene c
  rw [Turn.Steady, hphase]
  trivial

theorem leavePause_steady {c : Controller} (h : c.Freed) (hreleased : c.released = true)
    (rest : Unit → Walk Int) (scene : Scene) : (c.leavePause rest scene).Steady := by
  unfold leavePause
  split
  · trivial
  · rename_i hhalting
    exact (h hreleased).resolve_left hhalting

theorem park_steady (c : Controller) (b : Block) (rest : Unit → Walk Int) (scene : Scene) :
    (c.park b rest scene).Steady := by
  unfold park
  dsimp only
  generalize (if c.pausesAt b.head.id then _ else c) = c'
  have hfreed : ({ c' with pauseNext := false, released := false }.enter .paused).1.Freed :=
    Freed.enter Bool.noConfusion Bool.noConfusion
  split
  · exact closeRaised_steady _ scene _
  · rename_i c'' heq
    rw [heq] at hfreed
    split
    · rename_i hreleased
      exact leavePause_steady hfreed hreleased rest scene
    · exact hfreed

theorem report_steady {c : Controller} (h : c.state = .running) (s : Step)
    (rest : Unit → Walk Int) (scene : Scene) : (c.report s rest scene).Steady := by
  unfold report
  split
  · trivial
  · dsimp only
    have htold := notify_preserves stable_running
      (n := .step (c.steps + 1) (scene.now s.toSite) s.result) (fun _ _ h => h)
      (c := { c with steps := c.steps + 1, highlight := some (scene.now s.toSite).head.id }) h
    split
    · exact closeRaised_steady _ scene _
    · rename_i c' heq
      rw [heq] at htold
      split
      · exact park_steady _ _ rest scene
      · exact htold

theorem advance_steady {c : Controller} (h : c.state = .running) (w : Walk Int) (scene : Scene) :
    (advance w scene c).Steady := by
  induction w with
  | done n => trivial
  | fail e => exact closeRaised_steady e.fault scene c
  | step s rest _ => exact report_steady h s rest _
  | wait rest _ => exact h
  | look site next ih => exact ih _
  | consult kind next ih => exact ih _

/-- A run that begins is running, under the settings that there were. -/
theorem prepare_running {c : Controller} (h : ¬ c.isRunning = true) (speed : Option Speed)
    (root : Block) :
    (c.prepare speed root).1.state = .running ∧
      (c.prepare speed root).1.settings = c.settings := by
  obtain ⟨begun, heq, -, hrunning, hsettings, -⟩ := prepare_eq h speed root
  rw [heq]
  exact notify_preserves (stable_running.and (stable_settings c.settings)) (fun _ _ h => h)
    ⟨hrunning, hsettings⟩

theorem start_steady (c : Controller) (run : Run) (tree : Block) : (c.start run tree).Steady := by
  by_cases hrun : c.isRunning = true
  · rw [start_of_isRunning hrun]
    trivial
  · unfold start begin
    dsimp only
    have hbegun := (prepare_running hrun run.speed ((run.scene tree).now run.root)).1
    split
    · trivial
    · rename_i c' heq
      rw [heq] at hbegun
      exact advance_steady hbegun _ _

theorem turn_steady {c : Controller} {run : Run} (h : run.phase.Steady c) (tree : Block) :
    (c.turn run tree).Steady := by
  unfold turn
  dsimp only
  split
  · trivial
  · trivial
  · exact start_steady c run tree
  · trivial
  · trivial
  · trivial
  · rename_i rest hphase _
    rw [hphase] at h
    split
    · trivial
    · exact advance_steady h _ _
  · rename_i rest hphase _
    rw [hphase] at h
    split
    · rename_i hreleased
      exact leavePause_steady h hreleased rest _
    · exact h
  · rename_i rest hphase _
    rw [hphase] at h
    exact advance_steady h _ _

end Controller

namespace Session

/-- **A run in a delay is running**, whatever happened before. -/
theorem Arises.steady {s : Session} (h : s.Arises) : s.run.phase.Steady s.controller := by
  induction h with
  | scheduled c tree h =>
    rw [h]
    trivial
  | turn h ih => exact Controller.turn_steady ih _
  | @call s h call ih =>
    have hlive := h.live
    rw [(s.phase_call call).1]
    have hrunning (hrun : s.controller.Underway) (hstate : s.controller.state = .running) :
        (s.call call).controller.state = .running :=
      call_preserves Controller.stable_running hrun.1 hstate call
    cases hphase : s.run.phase with
    | scheduled => trivial
    | finished ending => trivial
    | delayed rest =>
      rw [hphase] at ih hlive
      exact hrunning hlive ih
    | waiting rest =>
      rw [hphase] at ih hlive
      exact hrunning hlive ih
    | parked rest =>
      rw [hphase] at ih hlive
      exact call_keeps (P := Controller.Freed) (fun control _ h => h.apply control) hlive.1 ih call
  | @cancel s h ih =>
    show s.run.cancel.phase.Steady s.controller
    rwa [Run.phase_cancel]

end Session

/-! ## What holds when a turn comes to a step -/

/-- A run is under way, running and not asked to halt, when it comes to a step. -/
structure Delivery.Fits (settings : Settings) (d : Delivery) : Prop where
  underway : d.controller.Underway
  running : d.controller.state = .running
  settings : d.controller.settings = settings
  unasked : d.controller.halting = false

theorem Controller.fits_of_delivers? {w : Walk Int} {scene : Scene} {c : Controller} {d : Delivery}
    (h : delivers? w scene c = some d) (hunderway : c.Underway) (hrunning : c.state = .running) :
    advance w scene c = d.turn ∧ d.Fits c.settings := by
  obtain ⟨hturn, rfl, hhalting⟩ := advance_of_delivers? h
  exact ⟨hturn, hunderway, hrunning, rfl, hhalting⟩

theorem Controller.turn_of_delivery? {run : Run} {tree : Block} {c : Controller} {d : Delivery}
    (hlive : run.phase.Live c) (hsteady : run.phase.Steady c)
    (h : c.delivery? run tree = some d) :
    c.turn run tree = d.turn ∧ d.Fits c.settings ∧ run.cancelling = false := by
  unfold delivery? at h
  unfold turn
  cases hcancel : run.cancelling with
  | true =>
    rw [hcancel] at h
    cases hphase : run.phase <;> rw [hphase] at h <;> cases h
  | false =>
    rw [hcancel] at h
    cases hphase : run.phase with
    | finished ending => rw [hphase] at h; cases h
    | parked rest => rw [hphase] at h; cases h
    | scheduled =>
      rw [hphase] at h
      dsimp only at h ⊢
      unfold start begin
      dsimp only
      by_cases hrun : c.isRunning = true
      · rw [prepare_of_isRunning hrun] at h
        cases h
      · have hunderway := prepare_underway hrun run.speed ((run.scene tree).now run.root)
        obtain ⟨hrunning, hsettings⟩ := prepare_running hrun run.speed
          ((run.scene tree).now run.root)
        generalize c.prepare run.speed ((run.scene tree).now run.root) = e at *
        obtain ⟨c', fault⟩ := e
        cases fault with
        | some f => cases h
        | none =>
          obtain ⟨hturn, hfits⟩ := fits_of_delivers? h hunderway hrunning
          rw [hsettings] at hfits
          exact ⟨hturn, hfits, rfl⟩
    | delayed rest =>
      rw [hphase] at h hlive hsteady
      dsimp only at h ⊢
      split at h
      · cases h
      · rename_i hhalting
        rw [if_neg hhalting]
        obtain ⟨hturn, hfits⟩ := fits_of_delivers? h hlive hsteady
        exact ⟨hturn, hfits, rfl⟩
    | waiting rest =>
      rw [hphase] at h hlive hsteady
      obtain ⟨hturn, hfits⟩ := fits_of_delivers? h hlive hsteady
      exact ⟨hturn, hfits, rfl⟩

/-- **When a turn comes to a step, its run is under way, running and not asked to halt**, and the
turn reports the step. -/
theorem Session.Arises.delivered {s : Session} (hs : s.Arises) {d : Delivery}
    (hd : s.delivery? = some d) :
    s.controller.turn s.run s.tree = d.turn ∧ d.Fits s.controller.settings ∧
      s.run.cancelling = false :=
  Controller.turn_of_delivery? hs.live hs.steady hd

/-! ## A request to halt among the reactions -/

/-- What goes well as a whole goes well in its parts. -/
theorem Effect.andThen_of_ok {e : Effect} {next : Controller → Effect}
    (h : (e.andThen next).2 = none) : e.2 = none ∧ e.andThen next = next e.1 := by
  obtain ⟨c, fault⟩ := e
  cases fault with
  | none => exact ⟨rfl, rfl⟩
  | some f => cases h

namespace Controller

theorem stopping_halt {c : Controller} (h : c.isRunning = true) : (c.apply .halt).1.Stopping := by
  unfold apply mark
  dsimp only
  rw [if_neg (by simp), if_pos h]
  exact ⟨rfl, rfl⟩

theorem carryOut_halts {reactions : List Reaction} (hasks : .control .halt ∈ reactions)
    {c : Controller} (hrun : c.isRunning = true) (hok : (carryOut apply reactions c).2 = none) :
    (carryOut apply reactions c).1.Stopping := by
  induction reactions generalizing c with
  | nil => cases hasks
  | cons reaction rest ih =>
    cases reaction with
    | fail f => cases hok
    | control control =>
      have hrest := (Effect.andThen_of_ok hok).2
      rw [carryOut, hrest]
      rcases List.mem_cons.mp hasks with hhalt | hmem
      · cases hhalt
        exact carryOut_preserves (fun control _ => apply_preserves stable_stopping control) rest
          (stopping_halt hrun)
      · rw [carryOut, hrest] at hok
        exact ih hmem (apply_preserves stable_isRunning control hrun) hok

/-- **A request to halt by an observer stands when all observers were told**, if none of them
failed. -/
theorem tell_halts {past : Tellings} {n : Notice} {observers : List Observer}
    (hasks : ∃ o ∈ observers, .control .halt ∈ o.react past n) {c : Controller}
    (hrun : c.isRunning = true) (hok : (tell apply past n observers c).2 = none) :
    (tell apply past n observers c).1.Stopping := by
  induction observers generalizing c with
  | nil =>
    obtain ⟨o, ho, -⟩ := hasks
    cases ho
  | cons o rest ih =>
    obtain ⟨hfirst, hrest⟩ := Effect.andThen_of_ok hok
    have hwritten : (c.write (.told o.label n)).isRunning = true := hrun
    rw [tell, hrest]
    obtain ⟨asker, hmem, hhalt⟩ := hasks
    rcases List.mem_cons.mp hmem with rfl | hmem
    · exact tell_preserves (fun control _ => apply_preserves stable_stopping control) past
        (fun _ _ h => h) rest (carryOut_halts hhalt hwritten hfirst)
    · rw [tell, hrest] at hok
      have hrunning := carryOut_preserves (P := fun c => c.isRunning = true)
        (fun control _ => apply_preserves stable_isRunning control) (o.react past n) hwritten
      exact ih ⟨asker, hmem, hhalt⟩ hrunning hok

end Controller

/-- Once observers were told of a step, the run is still running. Telling them fails by the first of
them that fails, and if none does, a request to halt among their reactions stands. -/
theorem Delivery.Fits.told {settings : Settings} {d : Delivery} (h : d.Fits settings) :
    d.told.1.Underway ∧ d.told.1.state = .running ∧ d.told.1.settings = settings ∧
      d.told.2 = d.controller.fault? d.notice ∧
      ((∃ o ∈ settings.observers, .control .halt ∈ o.react d.controller.tellings d.notice) →
        d.told.2 = none → d.told.1.Stopping) := by
  obtain ⟨hunderway, hrunning, rfl, -⟩ := h
  let c : Controller :=
    { d.controller with
      steps := d.controller.steps + 1
      highlight := some d.block.head.id }
  have hc : c.Underway ∧ c.state = .running ∧ c.settings = d.controller.settings :=
    ⟨hunderway, hrunning, rfl⟩
  obtain ⟨hunder, hstate, hsettings⟩ := Controller.notify_preserves (n := d.notice)
    (Controller.stable_underway.and
      (Controller.stable_running.and (Controller.stable_settings d.controller.settings)))
    (fun _ _ h => h) hc
  have hnot : c.state ≠ .paused := by
    rw [hc.2.1]
    exact RunState.noConfusion
  exact ⟨hunder, hstate, hsettings, Controller.notify_fault hnot _,
    fun hasks hok => Controller.tell_halts hasks hunderway.1 hok⟩

/-- A step that is reported is followed by a pause, by a delay, or by the end of the run, if telling
observers of it failed. -/
theorem Delivery.turn_eq {d : Delivery} (h : d.controller.halting = false) :
    d.turn = d.told.2.elim
      (if d.pauses then d.told.1.park d.block d.rest d.scene else d.told.1.delay d.rest d.scene)
      (fun f => d.told.1.closeRaised f d.scene) := by
  unfold turn Controller.report pauses told notice block
  rw [if_neg (by simp [h])]
  dsimp only
  generalize Controller.notify _ _ = e
  obtain ⟨c, fault⟩ := e
  cases fault <;> rfl

/-! ## Pauses of a run that is to stop -/

namespace Controller

/-- Since a controller was as it was, an entry was written to its log. -/
def Wrote (before : Controller) (e : LogEntry) (c : Controller) : Prop :=
  ∃ new, c.log.toList = before.log.toList ++ new ∧ e ∈ new

theorem Wrote.write {before c : Controller} {e : LogEntry} (h : before.Wrote e c)
    (e' : LogEntry) : before.Wrote e (c.write e') := by
  obtain ⟨new, hlog, he⟩ := h
  refine ⟨new ++ [e'], ?_, List.mem_append_left _ he⟩
  rw [← List.append_assoc, ← hlog]
  exact Array.toList_push

theorem stable_wrote (before : Controller) (e : LogEntry) : Stable (before.Wrote e) where
  mark control c h := by
    obtain ⟨_, _, _, _, heq⟩ | ⟨-, -, heq⟩ := mark_cases control c
    · rw [heq]
      exact h
    · rw [heq]
      exact h.write (.note "Halt requested")
  leave c _ h := h.write (.note ("Run state " ++ c.state.name ++ " -> " ++ _))
  tellRunning _ _ h := h.write _
  release _ h := h

theorem Calm.wrote {before c : Controller} (h : before.Calm c) (e : LogEntry) :
    before.Wrote e (c.write e) := by
  obtain ⟨new, hlog, -⟩ := h
  refine ⟨new ++ [e], ?_, List.mem_append_right _ (List.mem_singleton_self e)⟩
  rw [← List.append_assoc, ← hlog]
  exact Array.toList_push

/-- Whatever observers do about it, the first of them was told. -/
theorem Calm.tell_wrote {before c : Controller} (h : before.Calm c) (n : Notice) (o : Observer)
    (past : Tellings) (rest : List Observer) :
    before.Wrote (.told o.label n) (tell apply past n (o :: rest) c).1 := by
  have hact (control : Control) (c : Controller) (hc : before.Wrote (.told o.label n) c) :
      before.Wrote (.told o.label n) (c.apply control).1 :=
    apply_preserves (stable_wrote before _) control hc
  have hfirst := carryOut_preserves hact (o.react past n) (h.wrote (.told o.label n))
  unfold tell Effect.andThen
  split
  · rename_i c' heq
    rw [heq] at hfirst
    exact tell_preserves hact past (fun _ _ h => h.write _) rest hfirst
  · rename_i c' f heq
    rw [heq] at hfirst
    exact hfirst

theorem Wrote.not_calm {before c : Controller} {e : LogEntry} (h : before.Wrote e c)
    (he : e.tellsProgress = true) : ¬ before.Calm c := by
  rintro ⟨new, hlog, hnew⟩
  obtain ⟨new', hlog', hmem⟩ := h
  obtain rfl := List.append_cancel_left (hlog.symm.trans hlog')
  exact absurd (he.symm.trans (hnew e hmem)) Bool.noConfusion

theorem Wrote.broken {before c : Controller} {e : LogEntry} (h : before.Wrote e c) (f : Fault) :
    before.Wrote e (c.broken f) := by
  unfold Controller.broken
  split
  · exact h.write _
  · exact h

theorem Wrote.close {before c : Controller} {e : LogEntry} (h : before.Wrote e c)
    (state : RunState) (ending : RunEnding) (scene : Scene) :
    before.Wrote e (c.close state ending scene).controller :=
  enter_preserves (stable_wrote before e) (fun _ _ h => h.write _) (h.write (.note _)) h

theorem Wrote.closeRaised {before c : Controller} {e : LogEntry} (h : before.Wrote e c)
    (f : Fault) (scene : Scene) : before.Wrote e (c.closeRaised f scene).controller := by
  rw [closeRaised_eq]
  cases f.lastState? with
  | none => exact h
  | some state => exact (h.broken f).close state _ scene

/-- The controller once a pause began at a block, and how that failed if it did. -/
def paused (b : Block) (c : Controller) : Effect :=
  let noted :=
    if c.pausesAt b.head.id then
      c.write (.note ("Breakpoint hit at " ++ b.head.label ++ " (" ++ b.head.id ++ ")"))
    else c
  { noted with pauseNext := false, released := false }.enter .paused

theorem park_eq (c : Controller) (b : Block) (rest : Unit → Walk Int) (scene : Scene) :
    c.park b rest scene = (c.paused b).2.elim
      (if (c.paused b).1.released then (c.paused b).1.leavePause rest scene
        else ⟨.parked rest, (c.paused b).1, scene⟩)
      (fun f => (c.paused b).1.closeRaised f scene) := by
  unfold park paused
  dsimp only
  generalize Controller.enter _ _ = e
  obtain ⟨c', fault⟩ := e
  cases fault <;> rfl

/-- A run that was asked to halt is under way, and observers are told of no progress. It may be held
back by a pause. -/
def Doomed (before c : Controller) : Prop :=
  c.Underway ∧ c.halting = true ∧ before.Calm c ∧ c.settings = before.settings

theorem stable_halting : Stable fun c => c.halting = true where
  mark control c h := by
    obtain ⟨_, _, _, _, heq⟩ | ⟨-, -, heq⟩ := mark_cases control c
    · rw [heq]
      exact h
    · rw [heq]
  leave _ _ h := h
  tellRunning _ _ h := h
  release _ h := h

theorem stable_doomed (before : Controller) : Stable before.Doomed :=
  stable_underway.and (stable_halting.and ((stable_calm before).and (stable_settings _)))

theorem Doomed.asked {before c : Controller} (h : before.Doomed c) (hreleased : c.released = true) :
    before.Asked c :=
  ⟨h.1, ⟨h.2.1, hreleased⟩, h.2.2⟩

section Paused

variable {c : Controller}

/-- A pause begins by taking on the state, after a note on the breakpoint if there is one. -/
theorem paused_eq (hrunning : c.state = .running) (b : Block) :
    ∃ begun, c.paused b = begun.notify (.state .paused) ∧ begun.state = .paused ∧
      begun.released = false ∧ begun.halting = c.halting ∧ begun.settings = c.settings ∧
      (begun.result = c.result ∧ begun.error = c.error) ∧ c.Calm begun ∧
      begun.tellings = c.tellings := by
  unfold paused
  dsimp only
  generalize hnoted : (if c.pausesAt b.head.id then _ else c) = noted
  have hsame : noted.state = c.state ∧ noted.halting = c.halting ∧ noted.settings = c.settings ∧
      (noted.result = c.result ∧ noted.error = c.error) ∧ c.Calm noted ∧
      noted.tellings = c.tellings := by
    subst hnoted
    split
    · exact ⟨rfl, rfl, rfl, ⟨rfl, rfl⟩, (Calm.refl c).write rfl, tellings_note _ c⟩
    · exact ⟨rfl, rfl, rfl, ⟨rfl, rfl⟩, Calm.refl c, rfl⟩
  obtain ⟨hstate, hhalting, hsettings, houtcome, hcalm, htold⟩ := hsame
  have hnot : noted.state ≠ .paused := by
    rw [hstate, hrunning]
    exact RunState.noConfusion
  unfold enter
  rw [if_neg (by exact hnot)]
  have hlog : c.Calm { noted with pauseNext := false, released := false } := hcalm
  exact ⟨_, rfl, rfl, rfl, hhalting, hsettings, houtcome,
    hlog.write (e := .note ("Run state " ++ noted.state.name ++ " -> " ++ _)) rfl,
    (tellings_note _ _).trans htold⟩

/-- **A pause begins even if the run is to stop**, and observers are told so. -/
theorem paused_spec (hunderway : c.Underway) (hrunning : c.state = .running)
    (hhalting : c.halting = true) (hsome : c.settings.observers ≠ []) (b : Block) :
    (c.paused b).1.Underway ∧ (c.paused b).1.halting = true ∧
      ∃ label, c.Wrote (.told label (.state .paused)) (c.paused b).1 := by
  obtain ⟨begun, heq, hstate, -, hstop, hsettings, ⟨hresult, herror⟩, hcalm, -⟩ :=
    paused_eq hrunning b
  have hbegun : begun.Underway ∧ begun.halting = true := by
    refine ⟨⟨?_, hresult.trans hunderway.2.1, herror.trans hunderway.2.2⟩, hstop.trans hhalting⟩
    rw [isRunning, hstate]
    rfl
  rw [heq]
  obtain ⟨hunder, hstops⟩ := notify_preserves (n := .state .paused)
    (stable_underway.and stable_halting) (fun _ _ h => h) hbegun
  refine ⟨hunder, hstops, ?_⟩
  obtain ⟨o, rest, hobservers⟩ := List.exists_cons_of_ne_nil hsome
  refine ⟨o.label, ?_⟩
  rw [notify, hsettings, hobservers]
  exact hcalm.tell_wrote _ o _ rest

/-- If no observer does anything about the pause, it holds the run back. -/
theorem paused_of_indifferent (hrunning : c.state = .running)
    (hq : ∀ o ∈ c.settings.observers, o.react c.tellings (.state .paused) = []) (b : Block) :
    (c.paused b).2 = none ∧ (c.paused b).1.state = .paused ∧ (c.paused b).1.released = false := by
  obtain ⟨begun, heq, hstate, hreleased, -, hsettings, -, -, htold⟩ := paused_eq hrunning b
  rw [heq, notify, tell_quiet _ _ (by rwa [hsettings, htold])]
  exact ⟨rfl, hstate, hreleased⟩

end Paused

end Controller

/-! ## The step after which a run is halted -/

/-- A controller takes on a state that is no pause, whatever observers do about it. -/
theorem Controller.enter_state {state : RunState} (h : state ≠ .paused) (c : Controller) :
    (c.enter state).1.state = state := by
  unfold enter
  split
  · assumption
  · exact notify_preserves (stable_state (P := fun s => s = state) fun heq => absurd heq.symm h)
      (fun _ _ h => h) rfl

namespace Fault

variable {f : Fault}

theorem eq_of_lastState? {state : RunState} (h : f.lastState? = some state) :
    state = .halted ∨ state = .errored := by
  unfold lastState? at h
  split at h
  · exact .inl (Option.some.inj h).symm
  · exact .inl (Option.some.inj h).symm
  · cases h
  · exact .inr (Option.some.inj h).symm

theorem lastState?_eq_none_iff :
    f.lastState? = none ↔ ∃ cause message, f = .quit cause message := by
  constructor
  · intro h
    unfold lastState? at h
    split at h
    · cases h
    · cases h
    · exact ⟨_, _, rfl⟩
    · cases h
  · rintro ⟨cause, message, rfl⟩
    rfl

end Fault

namespace Controller

/-- A fault that breaks an evaluation off changes nothing about the run but its error. -/
theorem broken_spec (f : Fault) (c : Controller) :
    (c.broken f).state = c.state ∧ (c.broken f).result = c.result ∧
      (c.broken f).error = f.error?.or c.error ∧ c.Calm (c.broken f) ∧
      ∀ n, (c.broken f).fault? n = c.fault? n := by
  unfold broken
  split
  · exact ⟨rfl, rfl, rfl, (Calm.refl c).write (e := .note _) rfl, fault?_note _ c⟩
  · exact ⟨rfl, rfl, rfl, Calm.refl c, fun _ => rfl⟩

/-- **How a run that was running ends by a fault.** It ends as the fault says, or with the fault of
the first observer that fails when it is told the last state. -/
theorem closeRaised_spec {c : Controller} (hunder : c.Underway) (hrunning : c.state = .running)
    (f : Fault) (scene : Scene) :
    let t := c.closeRaised f scene
    t.phase = .finished
        ((f.lastState?.bind fun state => c.fault? (.state state)).elim f.ending .failed) ∧
      t.controller.state = f.lastState?.getD .running ∧
      (t.controller.result = none ∧ t.controller.error = f.error?) ∧ c.Calm t.controller := by
  obtain ⟨-, hresult, herror⟩ := hunder
  rw [closeRaised_eq]
  cases hlast : f.lastState? with
  | none =>
    obtain ⟨cause, message, rfl⟩ := Fault.lastState?_eq_none_iff.mp hlast
    exact ⟨rfl, hrunning, ⟨hresult, herror⟩, Calm.refl c⟩
  | some state =>
    obtain ⟨hstate, hresult', herror', hcalm, hfault⟩ := c.broken_spec f
    obtain ⟨hnew, hpaused⟩ : (c.broken f).state ≠ state ∧ state ≠ .paused := by
      rw [hstate, hrunning]
      obtain rfl | rfl := Fault.eq_of_lastState? hlast <;> decide
    obtain ⟨hphase, hlast', ⟨hvalue, hkept⟩, hquiet⟩ := close_spec hnew hpaused f.ending scene
    rw [hfault] at hphase
    rw [hresult', hresult] at hvalue
    rw [herror', herror, Option.or_none] at hkept
    exact ⟨hphase, hlast', ⟨hvalue, hkept⟩, hcalm.trans hquiet⟩

end Controller

/-- A fault has broken the evaluation of a run off, and `last` was the controller then. The run is
over as the fault says, or, if an observer fails when it is told the last state, with the fault of
the first that does. There is no value, and an evaluation error is kept. -/
structure Session.EndedBy (f : Fault) (last : Controller) (s : Session) : Prop where
  phase : s.run.phase =
    .finished ((f.lastState?.bind fun state => last.fault? (.state state)).elim f.ending .failed)
  state : s.controller.state = f.lastState?.getD .running
  result : s.controller.result = none
  error : s.controller.error = f.error?

/-- Since a controller was as it was, observers were told of no step, no value and no pause, and the
run is over, in the halted state, without a value and without an error. It ended as halted, or, if
an observer fails when it is told so, `last` being the controller then, with the fault of the first
that does. -/
structure Session.HaltedSince (before last : Controller) (s : Session) : Prop where
  phase : s.run.phase = .finished ((last.fault? (.state .halted)).elim .halted .failed)
  state : s.controller.state = .halted
  result : s.controller.result = none
  error : s.controller.error = none
  calm : before.Calm s.controller

namespace Session

variable {before : Controller} {s : Session}

/-- The turn after a run was asked to halt leaves it halted. -/
theorem haltedSince_of_asked (h : before.Asked s.controller)
    (hsuspended : s.run.phase.isSuspended = true) (hcancel : s.run.cancelling = false) :
    (s.act .turn).HaltedSince before s.controller := by
  have hturn : s.controller.turn s.run s.tree = s.controller.closeHalted (s.run.scene s.tree) :=
    Controller.turn_of_asked h hsuspended hcancel _
  have hclosed := Controller.closeHalted_spec h (s.run.scene s.tree)
  dsimp only at hclosed
  rw [← hturn] at hclosed
  obtain ⟨hphase, hstate, ⟨hresult, herror⟩, hcalm⟩ := hclosed
  exact ⟨hphase, hstate, hresult, herror, hcalm⟩

/-- Calls leave a doomed run doomed, and where it is. -/
theorem doomed_afterCalls (h : before.Doomed s.controller) (calls : List Call) :
    before.Doomed (s.afterCalls calls).controller ∧
      (s.afterCalls calls).run.phase = s.run.phase ∧
      (s.afterCalls calls).run.cancelling = s.run.cancelling :=
  afterCalls_preserves (Controller.stable_doomed before) (fun _ h => h.1.1) h calls

theorem running_afterCalls (h : s.controller.state = .running) (calls : List Call) :
    (s.afterCalls calls).controller.state = .running := by
  refine (afterCalls_preserves Controller.stable_running (fun c hc => ?_) h calls).1
  rw [Controller.isRunning, hc]
  rfl

end Session

namespace Delivery

variable {settings : Settings} {d : Delivery}

/-- If no pause is due, a step at which an observer asks to halt is followed by a delay, from which
the run does not go on. -/
theorem Fits.delays (h : d.Fits settings)
    (hasks : ∃ o ∈ settings.observers, .control .halt ∈ o.react d.controller.tellings d.notice)
    (hok : d.controller.fault? d.notice = none) (hpauses : d.pauses = false) :
    d.turn.phase = .delayed d.rest ∧ d.turn.controller.state = .running ∧
      d.told.1.Calm d.turn.controller ∧ d.turn.controller.Asked d.turn.controller := by
  obtain ⟨hunderway, hrunning, -, hfault, hstops⟩ := h.told
  have htold : d.told.2 = none := hfault.trans hok
  have hturn : d.turn = d.told.1.delay d.rest d.scene := by
    rw [turn_eq h.unasked, htold, hpauses]
    rfl
  rw [hturn]
  exact ⟨rfl, hrunning, (Controller.Calm.refl _).write rfl,
    hunderway, hstops hasks htold, Controller.Calm.refl _, rfl⟩

/-- If a pause is due, a step at which an observer asks to halt is followed by that pause. The run
is over by the end of the turn, or the pause holds it back. -/
theorem Fits.parks (h : d.Fits settings)
    (hasks : ∃ o ∈ settings.observers, .control .halt ∈ o.react d.controller.tellings d.notice)
    (hok : d.controller.fault? d.notice = none) (hpauses : d.pauses = true) :
    ¬ d.told.1.Calm d.turn.controller ∧
      ((∀ o ∈ settings.observers, o.react d.told.1.tellings (.state .paused) = []) →
        d.turn.phase.isSuspended = true ∧ d.turn.controller.state = .paused) ∧
      (d.turn.phase.isSuspended = true → d.turn.phase = .parked d.rest ∧
        d.turn.controller.Doomed d.turn.controller) := by
  obtain ⟨hunderway, hrunning, hsettings, hfault, hstops⟩ := h.told
  have htold : d.told.2 = none := hfault.trans hok
  have hturn : d.turn = d.told.1.park d.block d.rest d.scene := by
    rw [turn_eq h.unasked, htold, hpauses]
    rfl
  have hsome : d.told.1.settings.observers ≠ [] := by
    obtain ⟨o, ho, -⟩ := hasks
    rw [hsettings]
    exact List.ne_nil_of_mem ho
  obtain ⟨hunder, hhalting, label, hwrote⟩ :=
    Controller.paused_spec hunderway hrunning (hstops hasks htold).1 hsome d.block
  have hindifferent := Controller.paused_of_indifferent (b := d.block) hrunning
  rw [hsettings] at hindifferent
  rw [hturn, Controller.park_eq]
  generalize d.told.1.paused d.block = e at *
  obtain ⟨c, fault⟩ := e
  cases fault with
  | some f =>
    -- An observer fails when it is told of the pause.
    refine ⟨(hwrote.closeRaised f d.scene).not_calm rfl, fun hq => ?_, fun hsuspended => ?_⟩
    · cases (hindifferent hq).1
    · obtain ⟨ending, hphase⟩ := c.closeRaised_phase f d.scene
      rw [Option.elim, hphase] at hsuspended
      cases hsuspended
  | none =>
    cases hreleased : c.released with
    | true =>
      -- An observer ends the pause at once.
      have hleave : c.leavePause d.rest d.scene = c.closeHalted d.scene := if_pos hhalting
      simp only [Option.elim, if_true, hleave]
      refine ⟨((hwrote.write _).close _ _ _).not_calm rfl, fun hq => ?_, fun hsuspended => ?_⟩
      · exact absurd (hreleased.symm.trans (hindifferent hq).2.2) Bool.noConfusion
      · cases hsuspended
    | false =>
      simp only [Option.elim]
      exact ⟨hwrote.not_calm rfl, fun hq => ⟨rfl, (hindifferent hq).2.1⟩, fun _ =>
        ⟨rfl, hunder, hhalting, Controller.Calm.refl c, rfl⟩⟩

end Delivery

/-- **A request to halt from inside a step stops the run, but not before a pause that is due.** Let
the next turn of a run come to a step, and let an observer ask to halt when it is told of the step.

If an observer fails when it is told of the step, the run is over with that turn, as the fault says;
in particular it is halted if the fault is that the run is called off. If none fails and no pause is
due, the run stays running until its next turn, whatever is called for, and that turn leaves it
halted; observers are told of no further step, of no value and of no pause. But if a pause is due,
observers are told of it. Unless one of them does something about it, the run is paused then. As
long as the pause holds it back it makes no headway; once somebody ends the pause, the next turn
leaves it halted. -/
theorem halt_at_step {s : Session} (hs : s.Arises) {d : Delivery} (hd : s.delivery? = some d)
    (hasks : ∃ o ∈ s.controller.settings.observers,
      .control .halt ∈ o.react d.controller.tellings d.notice) :
    let fault? := d.controller.fault? d.notice
    let t := s.act .turn
    d.controller.state = .running ∧
      (∀ f, fault? = some f → d.told.1.Calm t.controller ∧ t.EndedBy f d.told.1) ∧
      (∀ message, fault? = some (.halted message) → t.HaltedSince d.told.1 d.told.1) ∧
      (fault? = none → d.pauses = false →
        d.told.1.Calm t.controller ∧ ∀ calls,
          let pending := t.afterCalls calls
          pending.controller.state = .running ∧
            (pending.act .turn).HaltedSince t.controller pending.controller) ∧
      (fault? = none → d.pauses = true →
        ¬ d.told.1.Calm t.controller ∧
          ((∀ o ∈ s.controller.settings.observers,
              o.react d.told.1.tellings (.state .paused) = []) →
            t.run.phase.isSuspended = true ∧ t.controller.state = .paused) ∧
          (t.run.phase.isSuspended = true → ∀ calls,
            let pending := t.afterCalls calls
            (pending.controller.released = false → pending.act .turn = pending) ∧
              (pending.controller.released = true →
                (pending.act .turn).HaltedSince t.controller pending.controller))) := by
  obtain ⟨hturn, hfits, hcancel⟩ := hs.delivered hd
  intro fault? t
  have hcontroller : t.controller = d.turn.controller := congrArg Turn.controller hturn
  have hphase : t.run.phase = d.turn.phase := congrArg Turn.phase hturn
  have hcancel' : t.run.cancelling = false := hcancel
  clear_value t
  have hraised (f : Fault) (hfault : fault? = some f) :
      d.told.1.Calm t.controller ∧ t.EndedBy f d.told.1 := by
    obtain ⟨hunder, hrunning, -, htold, -⟩ := hfits.told
    have hclosed : d.turn = d.told.1.closeRaised f d.scene := by
      rw [Delivery.turn_eq hfits.unasked, htold, show d.controller.fault? d.notice = _ from hfault]
      rfl
    obtain ⟨hover, hstate, ⟨hresult, herror⟩, hcalm⟩ :=
      Controller.closeRaised_spec hunder hrunning f d.scene
    rw [← hclosed] at hover hstate hresult herror hcalm
    rw [← hcontroller] at hstate hresult herror hcalm
    exact ⟨hcalm, hphase.trans hover, hstate, hresult, herror⟩
  refine ⟨hfits.running, hraised, fun message hfault => ?_, fun hok hpauses => ?_,
    fun hok hpauses => ?_⟩
  · obtain ⟨hcalm, hended⟩ := hraised _ hfault
    exact ⟨hended.phase, hended.state, hended.result, hended.error, hcalm⟩
  · obtain ⟨hdelayed, hrunning, hcalm, hasked⟩ := hfits.delays hasks hok hpauses
    rw [← hcontroller] at hrunning hcalm hasked
    refine ⟨hcalm, fun calls => ⟨Session.running_afterCalls hrunning calls, ?_⟩⟩
    obtain ⟨hstill, hwhere, hgoes⟩ := Session.asked_afterCalls hasked calls
    refine Session.haltedSince_of_asked hstill ?_ (hgoes.trans hcancel')
    rw [hwhere, hphase, hdelayed]
    rfl
  · obtain ⟨hloud, hindifferent, hparks⟩ := hfits.parks hasks hok hpauses
    rw [← hcontroller, ← hphase] at hindifferent hparks
    rw [← hcontroller] at hloud
    refine ⟨hloud, hindifferent, fun hsuspended calls => ?_⟩
    obtain ⟨hparked, hdoomed⟩ := hparks hsuspended
    obtain ⟨hstill, hwhere, hgoes⟩ := Session.doomed_afterCalls hdoomed calls
    have hpending := hwhere.trans hparked
    refine ⟨Session.act_turn_of_parked (hgoes.trans hcancel') hpending, fun hreleased => ?_⟩
    refine Session.haltedSince_of_asked (hstill.asked hreleased) ?_ (hgoes.trans hcancel')
    rw [hpending]
    rfl

/-- An observer that asks to halt when it is told of the first step of a run. -/
def Observer.impatient : Observer where
  react
    | _, .step 1 _ _ => [.control .halt]
    | _, _ => []

/-- An observer asks to halt at the first step of a run, which is that of the base case. The run is
halted with its next turn, even if someone asks to single-step before. But with a breakpoint at the
base case it is paused, two more turns make no difference, and it takes somebody to go on for the
run to be halted. -/
theorem halt_at_step_plus :
    let c₀ : Controller := { settings := { observers := [.impatient] } }
    let s := Session.scheduled c₀ .plus [2, 1] none
    let s' := s.call (.control (.setBreakpoint "first" true))
    let t := s.act .turn
    let t' := s'.act .turn
    let stepped := t.call (.control .singleStep)
    let resumed := t'.call (.control .resume)
    (s.Arises ∧ s'.Arises) ∧ s.delivery?.map Delivery.pauses = some false ∧
      s'.delivery?.map Delivery.pauses = some true ∧
      (stepped.act .turn).HaltedSince t.controller stepped.controller ∧
      t'.controller.state = .paused ∧ (t'.act .turn).act .turn = t' ∧
      (resumed.act .turn).HaltedSince t'.controller resumed.controller := by
  intro c₀ s s' t t' stepped resumed
  have hs : s.Arises := .scheduled c₀ .plus rfl
  have hs' : s'.Arises := hs.call _
  have hpauses : s.delivery?.map Delivery.pauses = some false := by decide +kernel
  have hpauses' : s'.delivery?.map Delivery.pauses = some true := by decide +kernel
  have hsteps : s.delivery?.map (fun d => d.controller.steps) = some 0 := by decide +kernel
  have hsteps' : s'.delivery?.map (fun d => d.controller.steps) = some 0 := by decide +kernel
  obtain ⟨d, hd, hno⟩ := Option.map_eq_some_iff.mp hpauses
  obtain ⟨d', hd', hyes⟩ := Option.map_eq_some_iff.mp hpauses'
  rw [hd] at hsteps
  rw [hd'] at hsteps'
  -- The observer asks to halt at the first step and does not fail.
  have hreacts {d : Delivery} (hsteps : d.controller.steps = 0)
      (hsettings : d.controller.settings = c₀.settings) :
      (∃ o ∈ c₀.settings.observers, .control .halt ∈ o.react d.controller.tellings d.notice) ∧
        d.controller.fault? d.notice = none := by
    unfold Controller.fault? Delivery.notice
    rw [hsteps, hsettings]
    exact ⟨⟨.impatient, List.mem_singleton_self _, List.mem_singleton_self _⟩, rfl⟩
  obtain ⟨hasks, hok⟩ := hreacts (Option.some.inj hsteps) (hs.delivered hd).2.1.settings
  obtain ⟨hasks', hok'⟩ := hreacts (Option.some.inj hsteps') (hs'.delivered hd').2.1.settings
  obtain ⟨-, -, -, hdelayed, -⟩ := halt_at_step hs hd hasks
  obtain ⟨-, -, -, -, hparked⟩ := halt_at_step hs' hd' hasks'
  obtain ⟨-, hindifferent, hheld⟩ := hparked hok' hyes
  obtain ⟨hsuspended, hpaused⟩ := hindifferent fun o ho => by
    rw [List.mem_singleton.mp ho]
    rfl
  have hstuck : t'.act .turn = t' := (hheld hsuspended []).1 (by decide +kernel)
  exact ⟨⟨hs, hs'⟩, hpauses, hpauses', ((hdelayed hok hno).2 [.control .singleStep]).2, hpaused,
    by rw [hstuck, hstuck], (hheld hsuspended [.control .resume]).2 (by decide +kernel)⟩

end BlockCalculus
