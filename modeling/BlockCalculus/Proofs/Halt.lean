import BlockCalculus.Proofs.Session

/-!
# Halting is final

A run that is asked to halt while it is delayed or paused is over at its next turn. Until then
anything may be asked of its controller, another run may be tried, and the tree may be edited, in
any order. Observers may ask for controls in turn, and may fail.

Each half of the argument is a property that no control can break (`Controller.Stable`).

* `Session.Arises.live`: while a run is delayed, paused or waiting, its controller is running and
  has neither a value nor an error.
* `Session.asked_afterCalls`: once the run was asked to halt it stays asked, nothing holds it back,
  and observers are told of no step, no value and no pause.
* `closeHalted_spec`: then the next turn ends the run.

`halt_is_final` puts these together. The run ends as halted unless an observer fails when it is told
so, and then it ends with that fault: `halted_run_fails` shows one.
-/

namespace BlockCalculus

/-! ## What others do -/

/-- Something that others do to a session between the turns of its run. -/
inductive Call where
  /-- Someone asks the controller for something. -/
  | control (control : Control)
  /-- Someone starts another run under the controller, on a tree. -/
  | start (run : Run) (tree : Block)
  /-- Someone edits the tree. -/
  | edit (tree : Block)

namespace Session

/-- The session after a call. -/
def call (s : Session) : Call → Session
  | .control control => { s with controller := (s.controller.apply control).1 }
  | .start run tree => { s with controller := (s.controller.start run tree).controller }
  | .edit tree => { s with run := s.run.edited s.tree tree, tree }

/-- The session after some calls, in order. -/
def afterCalls (s : Session) (calls : List Call) : Session :=
  calls.foldl call s

/-- The sessions that come about: a run begins under any controller, it has its turns, and between
them there are calls, and it may be cancelled. -/
inductive Arises : Session → Prop where
  | scheduled (c : Controller) {run : Run} (tree : Block) (h : run.phase = .scheduled) :
    Arises ⟨c, run, tree⟩
  | turn {s : Session} (h : Arises s) : Arises (s.act .turn)
  | call {s : Session} (h : Arises s) (call : Call) : Arises (s.call call)
  | cancel {s : Session} (h : Arises s) : Arises { s with run := s.run.cancel }

end Session

/-- Whether a run is in a delay or in a pause. -/
def Phase.isSuspended : Phase → Bool
  | .delayed _ | .parked _ => true
  | _ => false

theorem Phase.isSuspended_iff {phase : Phase} :
    phase.isSuspended = true ↔ ∃ rest, phase = .delayed rest ∨ phase = .parked rest := by
  cases phase <;> simp [isSuspended]

/-- Whether an entry of the log tells of a run that goes on: of a step, a value or a pause. -/
def LogEntry.tellsProgress : LogEntry → Bool
  | .told _ (.step _ _ _) | .told _ (.complete _) | .told _ (.state .paused) => true
  | _ => false

/-- How an observer fails by a reaction, if it does. -/
def Reaction.fault? : Reaction → Option Fault
  | .control _ => none
  | .fail f => some f

namespace Controller

/-- How the first observer fails that fails when it is told something now. -/
def fault? (c : Controller) (n : Notice) : Option Fault :=
  c.settings.observers.findSome? fun o => (o.react c.tellings n).findSome? Reaction.fault?

/-- A note tells observers nothing. -/
theorem tellings_note (text : String) (c : Controller) :
    (c.write (.note text)).tellings = c.tellings := by
  simp [tellings, write, LogEntry.telling?]

/-! ## What no control can break -/

theorem Stable.and {P Q : Controller → Prop} (hP : Stable P) (hQ : Stable Q) :
    Stable fun c => P c ∧ Q c where
  mark control c h := ⟨hP.mark control c h.1, hQ.mark control c h.2⟩
  leave c hpaused h := ⟨hP.leave c hpaused h.1, hQ.leave c hpaused h.2⟩
  tellRunning label c h := ⟨hP.tellRunning label c h.1, hQ.tellRunning label c h.2⟩
  release c h := ⟨hP.release c h.1, hQ.release c h.2⟩

/-- A property of the state that leaving a pause keeps. -/
theorem stable_state {P : RunState → Prop} (hP : P .paused → P .running) :
    Stable fun c => P c.state where
  mark control c h := by rwa [mark_state]
  leave c hpaused h := hP (hpaused ▸ h)
  tellRunning _ _ h := h
  release _ h := h

/-- No control begins a pause. -/
theorem stable_not_paused : Stable fun c => c.state ≠ .paused :=
  stable_state (P := fun state => state ≠ .paused) fun hne => absurd rfl hne

theorem stable_settings (settings : Settings) : Stable fun c => c.settings = settings where
  mark control c h := by rwa [mark_settings]
  leave _ _ h := h
  tellRunning _ _ h := h
  release _ h := h

/-- A run is in progress and has got no value and no error. -/
def Underway (c : Controller) : Prop :=
  c.isRunning = true ∧ c.result = none ∧ c.error = none

theorem stable_isRunning : Stable fun c => c.isRunning = true :=
  stable_state (P := fun state => (state == .running || state == .paused) = true) fun _ => rfl

theorem stable_outcome (result : Option Int) (error : Option EvalError) :
    Stable fun c => c.result = result ∧ c.error = error where
  mark control c h := by
    obtain ⟨_, _, _, _, heq⟩ | ⟨-, -, heq⟩ := mark_cases control c <;> rw [heq] <;> exact h
  leave _ _ h := h
  tellRunning _ _ h := h
  release _ h := h

theorem stable_underway : Stable Underway :=
  stable_isRunning.and (stable_outcome none none)

/-- The run was asked to halt, and no pause holds it back. -/
def Stopping (c : Controller) : Prop :=
  c.halting = true ∧ c.released = true

theorem stable_stopping : Stable Stopping where
  mark control c h := by
    obtain ⟨_, _, _, _, heq⟩ | ⟨-, -, heq⟩ := mark_cases control c
    · rw [heq]
      exact h
    · rw [heq]
      exact ⟨rfl, rfl⟩
  leave _ _ h := h
  tellRunning _ _ h := h
  release _ h := ⟨h.1, rfl⟩

/-- Since a controller was as it was, its observers were told of no progress. -/
def Calm (before c : Controller) : Prop :=
  ∃ new, c.log.toList = before.log.toList ++ new ∧ ∀ e ∈ new, e.tellsProgress = false

theorem Calm.refl (c : Controller) : c.Calm c :=
  ⟨[], (List.append_nil _).symm, fun _ he => absurd he List.not_mem_nil⟩

theorem Calm.write {before c : Controller} (h : before.Calm c) {e : LogEntry}
    (he : e.tellsProgress = false) : before.Calm (c.write e) := by
  obtain ⟨new, hlog, hnew⟩ := h
  refine ⟨new ++ [e], ?_, ?_⟩
  · rw [← List.append_assoc, ← hlog]
    exact Array.toList_push
  · intro e' he'
    obtain hmem | hmem := List.mem_append.mp he'
    · exact hnew e' hmem
    · rwa [List.mem_singleton.mp hmem]

theorem Calm.trans {before c c' : Controller} (h : before.Calm c) (h' : c.Calm c') :
    before.Calm c' := by
  obtain ⟨new, hlog, hnew⟩ := h
  obtain ⟨more, hlog', hmore⟩ := h'
  refine ⟨new ++ more, by rw [hlog', hlog, List.append_assoc], fun e he => ?_⟩
  obtain hmem | hmem := List.mem_append.mp he
  · exact hnew e hmem
  · exact hmore e hmem

theorem stable_calm (before : Controller) : Stable before.Calm where
  mark control c h := by
    obtain ⟨_, _, _, _, heq⟩ | ⟨-, -, heq⟩ := mark_cases control c
    · rw [heq]
      exact h
    · rw [heq]
      exact h.write (e := .note "Halt requested") rfl
  leave c _ h := h.write (e := .note ("Run state " ++ c.state.name ++ " -> " ++ _)) rfl
  tellRunning _ _ h := h.write rfl
  release _ h := h

end Controller

/-! ## While a run is under way -/

/-- Unless a run is yet to begin or over, it is under way. -/
def Phase.Live (c : Controller) : Phase → Prop
  | .scheduled | .finished _ => True
  | .delayed _ | .parked _ | .waiting _ => c.Underway

/-- A turn leads to a run that is under way or over. -/
def Turn.Live (t : Turn) : Prop :=
  t.phase.Live t.controller

namespace Controller

theorem closeRaised_live (f : Fault) (scene : Scene) (c : Controller) :
    (c.closeRaised f scene).Live := by
  obtain ⟨ending, hphase⟩ := closeRaised_phase f scene c
  rw [Turn.Live, hphase]
  trivial

theorem underway_pause {c : Controller} (h : c.Underway) : (c.enter .paused).1.Underway :=
  enter_preserves stable_underway (fun _ _ h => h) ⟨rfl, h.2⟩ h

theorem leavePause_live {c : Controller} (h : c.Underway) (rest : Unit → Walk Int)
    (scene : Scene) : (c.leavePause rest scene).Live := by
  unfold leavePause
  split
  · trivial
  · exact h

theorem park_live {c : Controller} (h : c.Underway) (b : Block) (rest : Unit → Walk Int)
    (scene : Scene) : (c.park b rest scene).Live := by
  unfold park
  dsimp only
  -- A note on the breakpoint, if it is written, changes nothing.
  generalize hc' : (if c.pausesAt b.head.id then _ else c) = c'
  have h' : { c' with pauseNext := false, released := false }.Underway := by
    subst hc'
    split <;> exact h
  have hparked := underway_pause h'
  split
  · exact closeRaised_live _ scene _
  · rename_i c'' heq
    rw [heq] at hparked
    split
    · exact leavePause_live hparked rest scene
    · exact hparked

theorem report_live {c : Controller} (h : c.Underway) (s : Step) (rest : Unit → Walk Int)
    (scene : Scene) : (c.report s rest scene).Live := by
  unfold report
  split
  · trivial
  · dsimp only
    have htold := notify_preserves stable_underway
      (n := .step (c.steps + 1) (scene.now s.toSite) s.result) (fun _ _ h => h)
      (c := { c with steps := c.steps + 1, highlight := some (scene.now s.toSite).head.id }) h
    split
    · exact closeRaised_live _ scene _
    · rename_i c' heq
      rw [heq] at htold
      split
      · exact park_live htold _ rest scene
      · exact htold

theorem advance_live {c : Controller} (h : c.Underway) (w : Walk Int) (scene : Scene) :
    (advance w scene c).Live := by
  induction w with
  | done n => trivial
  | fail e => exact closeRaised_live e.fault scene c
  | step s rest _ => exact report_live h s rest _
  | wait rest _ => exact h
  | look site next ih => exact ih _
  | consult kind next ih => exact ih _

theorem prepare_of_isRunning {c : Controller} (h : c.isRunning = true) (speed : Option Speed)
    (root : Block) : c.prepare speed root = (c, some .alreadyRunning) :=
  if_pos h

/-- A run begins by taking on the running state, under the settings that there were. -/
theorem prepare_eq {c : Controller} (h : ¬ c.isRunning = true) (speed : Option Speed)
    (root : Block) :
    ∃ begun : Controller, c.prepare speed root = begun.notify (.state .running) ∧ begun.Underway ∧
      begun.state = .running ∧ begun.settings = c.settings ∧ begun.tellings = c.tellings := by
  have hstate : c.state ≠ .running := by
    intro heq
    exact h (by rw [isRunning, heq]; rfl)
  unfold prepare enter
  rw [if_neg h, if_neg (by exact hstate)]
  exact ⟨_, rfl, ⟨rfl, rfl, rfl⟩, rfl, rfl, tellings_note _ _⟩

theorem prepare_underway {c : Controller} (h : ¬ c.isRunning = true) (speed : Option Speed)
    (root : Block) : (c.prepare speed root).1.Underway := by
  obtain ⟨begun, heq, hunderway, -⟩ := prepare_eq h speed root
  rw [heq]
  exact notify_preserves stable_underway (fun _ _ h => h) hunderway

/-- Another run does not begin while one is in progress. -/
theorem start_of_isRunning {c : Controller} (h : c.isRunning = true) (run : Run) (tree : Block) :
    c.start run tree = ⟨.finished (.failed .alreadyRunning), c, run.scene tree⟩ := by
  unfold start begin
  dsimp only
  rw [prepare_of_isRunning h]

theorem start_live (c : Controller) (run : Run) (tree : Block) : (c.start run tree).Live := by
  by_cases hrun : c.isRunning = true
  · rw [start_of_isRunning hrun]
    trivial
  · unfold start begin
    dsimp only
    have hbegun := prepare_underway hrun run.speed ((run.scene tree).now run.root)
    split
    · trivial
    · rename_i c' heq
      rw [heq] at hbegun
      exact advance_live hbegun _ _

/-- **A turn keeps a run under way, or ends it.** -/
theorem turn_live {c : Controller} {run : Run} (h : run.phase.Live c) (tree : Block) :
    (c.turn run tree).Live := by
  unfold turn
  dsimp only
  split
  · trivial
  · trivial
  · exact start_live c run tree
  · trivial
  · trivial
  · trivial
  · rename_i rest hphase _
    rw [hphase] at h
    split
    · trivial
    · exact advance_live h _ _
  · rename_i rest hphase _
    rw [hphase] at h
    split
    · exact leavePause_live h rest _
    · exact h
  · rename_i rest hphase _
    rw [hphase] at h
    exact advance_live h _ _

end Controller

theorem Run.phase_edited (before after : Block) (run : Run) :
    (run.edited before after).phase = run.phase ∧
      (run.edited before after).cancelling = run.cancelling := by
  unfold Run.edited
  split <;> exact ⟨rfl, rfl⟩

theorem Run.phase_cancel (run : Run) : run.cancel.phase = run.phase := by
  unfold Run.cancel
  split <;> rfl

/-- What controls keep, calls keep while a run is in progress. -/
theorem Session.call_keeps {P : Controller → Prop}
    (hP : ∀ control c, P c → P (Controller.apply control c).1) {s : Session}
    (hrun : s.controller.isRunning = true) (h : P s.controller) (call : Call) :
    P (s.call call).controller := by
  cases call with
  | control control => exact hP control _ h
  | start run tree =>
    show P (s.controller.start run tree).controller
    rw [Controller.start_of_isRunning hrun]
    exact h
  | edit tree => exact h

/-- What no control can break, no call can break while a run is in progress. -/
theorem Session.call_preserves {P : Controller → Prop} (hP : Controller.Stable P) {s : Session}
    (hrun : s.controller.isRunning = true) (h : P s.controller) (call : Call) :
    P (s.call call).controller :=
  call_keeps (fun control _ => Controller.apply_preserves hP control) hrun h call

theorem Session.phase_call (s : Session) (call : Call) :
    (s.call call).run.phase = s.run.phase ∧ (s.call call).run.cancelling = s.run.cancelling := by
  cases call with
  | control control => exact ⟨rfl, rfl⟩
  | start run tree => exact ⟨rfl, rfl⟩
  | edit tree => exact Run.phase_edited _ _ _

/-- **Calls leave a run where it is**, and keep what no control can break if it has the controller
running. -/
theorem Session.afterCalls_preserves {P : Controller → Prop} (hP : Controller.Stable P)
    (hrun : ∀ c, P c → c.isRunning = true) {s : Session} (h : P s.controller)
    (calls : List Call) :
    P (s.afterCalls calls).controller ∧
      (s.afterCalls calls).run.phase = s.run.phase ∧
      (s.afterCalls calls).run.cancelling = s.run.cancelling := by
  induction calls generalizing s with
  | nil => exact ⟨h, rfl, rfl⟩
  | cons call rest ih =>
    obtain ⟨hkept, hphase, hcancelling⟩ :=
      ih (s := s.call call) (call_preserves hP (hrun _ h) h call)
    have hcall := s.phase_call call
    exact ⟨hkept, hphase.trans hcall.1, hcancelling.trans hcall.2⟩

/-- **A run that is delayed, paused or waiting is under way**, whatever happened before. -/
theorem Session.Arises.live {s : Session} (h : s.Arises) : s.run.phase.Live s.controller := by
  induction h with
  | scheduled c tree h =>
    rw [h]
    trivial
  | turn h ih => exact Controller.turn_live ih _
  | @call s h call ih =>
    rw [(s.phase_call call).1]
    -- Other runs are kept out only while this one is under way, so the phase decides.
    cases hphase : s.run.phase with
    | scheduled => trivial
    | finished ending => trivial
    | delayed rest =>
      rw [hphase] at ih
      exact call_preserves Controller.stable_underway ih.1 ih call
    | parked rest =>
      rw [hphase] at ih
      exact call_preserves Controller.stable_underway ih.1 ih call
    | waiting rest =>
      rw [hphase] at ih
      exact call_preserves Controller.stable_underway ih.1 ih call
  | @cancel s h ih =>
    show s.run.cancel.phase.Live s.controller
    rwa [Run.phase_cancel]

theorem Session.Arises.underway {s : Session} (h : s.Arises)
    (hsuspended : s.run.phase.isSuspended = true) : s.controller.Underway := by
  have hlive := h.live
  obtain ⟨rest, hphase | hphase⟩ := Phase.isSuspended_iff.mp hsuspended <;> rwa [hphase] at hlive

/-! ## Once a run was asked to halt -/

namespace Controller

/-- The controller is as it is once its run was asked to halt, and until that is over. -/
def Asked (before c : Controller) : Prop :=
  c.Underway ∧ c.Stopping ∧ before.Calm c ∧ c.settings = before.settings

theorem stable_asked (before : Controller) : Stable before.Asked :=
  stable_underway.and (stable_stopping.and ((stable_calm before).and (stable_settings _)))

theorem asked_halt {c : Controller} (h : c.Underway) : c.Asked (c.apply .halt).1 := by
  have heq : (c.apply .halt).1 =
      { c.write (.note "Halt requested") with
        halting := true, pauseNext := false, released := true } := by
    unfold apply mark
    dsimp only
    rw [if_neg (by simp), if_pos h.1]
  rw [heq]
  exact ⟨h, ⟨rfl, rfl⟩, (Calm.refl c).write (e := .note "Halt requested") rfl, rfl⟩

theorem apply_of_not_paused {c : Controller} (h : c.state ≠ .paused) (control : Control) :
    c.apply control = (c.mark control, none) :=
  if_neg fun hpaused => h hpaused.1

/-- Reactions fail, unless during a pause, by what is a failure in itself. -/
theorem carryOut_fault (reactions : List Reaction) {c : Controller} (h : c.state ≠ .paused) :
    (carryOut apply reactions c).2 = reactions.findSome? Reaction.fault? := by
  induction reactions generalizing c with
  | nil => rfl
  | cons reaction rest ih =>
    cases reaction with
    | fail f => rfl
    | control control =>
      rw [carryOut, apply_of_not_paused h, Effect.andThen]
      exact ih (by rwa [mark_state])

theorem tell_fault (past : Tellings) (n : Notice) (observers : List Observer) {c : Controller}
    (h : c.state ≠ .paused) :
    (tell apply past n observers c).2 =
      observers.findSome? fun o => (o.react past n).findSome? Reaction.fault? := by
  induction observers generalizing c with
  | nil => rfl
  | cons o rest ih =>
    have hwritten : (c.write (.told o.label n)).state ≠ .paused := h
    have hstate : (carryOut apply (o.react past n) (c.write (.told o.label n))).1.state ≠
        .paused :=
      carryOut_preserves (P := fun c => c.state ≠ .paused)
        (fun control _ => apply_preserves stable_not_paused control) (o.react past n) hwritten
    have hfault := carryOut_fault (o.react past n) hwritten
    rw [tell, List.findSome?_cons, ← hfault]
    generalize carryOut apply (o.react past n) (c.write (.told o.label n)) = e at hstate
    obtain ⟨c', fault⟩ := e
    cases fault with
    | none => exact ih hstate
    | some f => rfl

/-- Telling observers fails, unless during a pause, by the first of them that fails. -/
theorem notify_fault {c : Controller} (h : c.state ≠ .paused) (n : Notice) :
    (c.notify n).2 = c.fault? n :=
  tell_fault _ n _ h

theorem fault?_note (text : String) (c : Controller) (n : Notice) :
    (c.write (.note text)).fault? n = c.fault? n := by
  unfold fault?
  rw [tellings_note]
  rfl

/-- What taking on a state that is no pause fails by. -/
theorem become_notify_fault {state : RunState} (h : state ≠ .paused) (c : Controller) :
    ((c.become state).notify (.state state)).2 = c.fault? (.state state) := by
  rw [notify_fault (by exact h)]
  exact fault?_note _ c _

/-- **A run ends in a state**, or with the fault of the first observer that fails when it is told
so. Its value and its error stay, and observers are told of no progress. -/
theorem close_spec {c : Controller} {state : RunState} (hnew : c.state ≠ state)
    (hpaused : state ≠ .paused) (ending : RunEnding) (scene : Scene) :
    let t := c.close state ending scene
    t.phase = .finished ((c.fault? (.state state)).elim ending .failed) ∧
      t.controller.state = state ∧
      (t.controller.result = c.result ∧ t.controller.error = c.error) ∧ c.Calm t.controller := by
  -- No control leads out of the last state, so what holds when it is taken on holds in the end.
  have hstable : Stable fun c' => c'.state = state ∧
      (c'.result = c.result ∧ c'.error = c.error) ∧ c.Calm c' :=
    (stable_state (P := fun s => s = state) fun heq => absurd heq.symm hpaused).and
      ((stable_outcome _ _).and (stable_calm c))
  have hbecome : (c.become state).state = state ∧
      ((c.become state).result = c.result ∧ (c.become state).error = c.error) ∧
      c.Calm (c.become state) :=
    ⟨rfl, ⟨rfl, rfl⟩, (Calm.refl c).write (by rfl)⟩
  have hquietly (label : String) :
      (LogEntry.told label (.state state)).tellsProgress = false := by
    cases state with
    | paused => exact absurd rfl hpaused
    | _ => rfl
  have htold := notify_preserves hstable (n := .state state)
    (fun label _ hc => ⟨hc.1, hc.2.1, hc.2.2.write (hquietly label)⟩) hbecome
  have hclose : c.close state ending scene =
      ⟨.finished (((c.become state).notify (.state state)).2.elim ending .failed),
        ((c.become state).notify (.state state)).1.settle, scene⟩ := by
    unfold close enter
    dsimp only
    rw [if_neg hnew]
  dsimp only
  rw [hclose, become_notify_fault hpaused]
  exact ⟨rfl, htold⟩

/-- **A run that was asked to halt ends.** It ends as halted, or with the fault of the first
observer that fails when it is told so. -/
theorem closeHalted_spec {before c : Controller} (h : before.Asked c) (scene : Scene) :
    let t := c.closeHalted scene
    t.phase = .finished ((c.fault? (.state .halted)).elim .halted .failed) ∧
      t.controller.state = .halted ∧
      (t.controller.result = none ∧ t.controller.error = none) ∧ before.Calm t.controller := by
  obtain ⟨⟨hrun, hresult, herror⟩, -, hcalm, -⟩ := h
  let noted := c.write (.note ("Run halted after " ++ toString c.steps ++ " steps"))
  have hstate : noted.state ≠ .halted := by
    intro heq
    rw [isRunning, show c.state = .halted from heq] at hrun
    exact absurd hrun (by decide)
  obtain ⟨hphase, hhalted, houtcome, hquiet⟩ :=
    close_spec hstate (by decide) .halted scene
  rw [fault?_note] at hphase
  exact ⟨hphase, hhalted, ⟨houtcome.1.trans hresult, houtcome.2.trans herror⟩,
    (hcalm.write (by rfl)).trans hquiet⟩

/-- The turn after a run was asked to halt is its last. -/
theorem turn_of_asked {before c : Controller} (h : before.Asked c) {run : Run}
    (hsuspended : run.phase.isSuspended = true) (hcancel : run.cancelling = false) (tree : Block) :
    c.turn run tree = c.closeHalted (run.scene tree) := by
  obtain ⟨-, ⟨hhalting, hreleased⟩, -, -⟩ := h
  unfold turn
  rw [hcancel]
  dsimp only
  obtain ⟨rest, hdelayed | hparked⟩ := Phase.isSuspended_iff.mp hsuspended
  · rw [hdelayed]
    exact if_pos hhalting
  · rw [hparked]
    dsimp only
    rw [if_pos hreleased, leavePause, if_pos hhalting]

end Controller

/-- Calls leave a run asked to halt, and where it is. -/
theorem Session.asked_afterCalls {before : Controller} {s : Session}
    (h : before.Asked s.controller) (calls : List Call) :
    before.Asked (s.afterCalls calls).controller ∧
      (s.afterCalls calls).run.phase = s.run.phase ∧
      (s.afterCalls calls).run.cancelling = s.run.cancelling :=
  afterCalls_preserves (Controller.stable_asked before) (fun _ h => h.1.1) h calls

theorem Session.Arises.asked_of_halt {s : Session} (hs : s.Arises)
    (hsuspended : s.run.phase.isSuspended = true) (calls : List Call) :
    let pending := (s.call (.control .halt)).afterCalls calls
    s.controller.Asked pending.controller ∧ pending.run.phase = s.run.phase ∧
      pending.run.cancelling = s.run.cancelling := by
  have hhalt : s.controller.Asked (s.call (.control .halt)).controller :=
    Controller.asked_halt (hs.underway hsuspended)
  exact asked_afterCalls hhalt calls

/-- The turn after a run was asked to halt, and after any calls, ends it. -/
theorem Session.Arises.ends_of_halt {s : Session} (hs : s.Arises)
    (hsuspended : s.run.phase.isSuspended = true) (hcancel : s.run.cancelling = false)
    (calls : List Call) :
    let pending := (s.call (.control .halt)).afterCalls calls
    let ended := pending.act .turn
    ended.run.phase =
        .finished ((pending.controller.fault? (.state .halted)).elim .halted .failed) ∧
      ended.controller.state = .halted ∧
      (ended.controller.result = none ∧ ended.controller.error = none) ∧
      s.controller.Calm ended.controller := by
  obtain ⟨hasked, hphase, hcancelling⟩ := hs.asked_of_halt hsuspended calls
  generalize (s.call (.control .halt)).afterCalls calls = pending at hasked hphase hcancelling
  have hturn : pending.controller.turn pending.run pending.tree =
      pending.controller.closeHalted (pending.run.scene pending.tree) :=
    Controller.turn_of_asked hasked (hphase ▸ hsuspended) (hcancelling.trans hcancel) _
  have hclosed := Controller.closeHalted_spec hasked (pending.run.scene pending.tree)
  dsimp only at hclosed
  rw [← hturn] at hclosed
  exact hclosed

/-! ## Finality -/

/-- **Halting is final.** Let a run be delayed or paused, and let it not be cancelled. Once it is
asked to halt, whatever is called for until its next turn, no other run begins, no pause begins, and
observers are told of no step, no value and no pause. The turn ends the run without a value and
without an error, in the halted state. The run ends as halted, or, if an observer fails when it is
told so, with the fault of the first that does. -/
theorem halt_is_final {s : Session} (hs : s.Arises) (hsuspended : s.run.phase.isSuspended = true)
    (hcancel : s.run.cancelling = false) (calls : List Call) :
    let pending := (s.call (.control .halt)).afterCalls calls
    let ended := pending.act .turn
    s.controller.isRunning = true ∧
      (∀ run tree, (pending.controller.start run tree).phase =
        .finished (.failed .alreadyRunning)) ∧
      (∀ call, pending.controller.state ≠ .paused →
        (pending.call call).controller.state ≠ .paused) ∧
      (∃ new, ended.controller.log.toList = s.controller.log.toList ++ new ∧
        ∀ e ∈ new, e.tellsProgress = false) ∧
      ended.controller.state = .halted ∧
      ended.controller.result = none ∧ ended.controller.error = none ∧
      ended.run.phase =
        .finished ((pending.controller.fault? (.state .halted)).elim .halted .failed) := by
  obtain ⟨⟨⟨hrunning, -⟩, -⟩, -⟩ := hs.asked_of_halt hsuspended calls
  obtain ⟨hend, hstate, ⟨hresult, herror⟩, hcalm⟩ := hs.ends_of_halt hsuspended hcancel calls
  intro pending ended
  refine ⟨(hs.underway hsuspended).1, fun run tree => ?_, fun call hpaused => ?_, hcalm, hstate,
    hresult, herror, hend⟩
  · rw [Controller.start_of_isRunning hrunning]
  · exact Session.call_preserves Controller.stable_not_paused hrunning hpaused call

/-- A run that pauses after its first step is asked to halt, to go on, to pause at the next step and
to halt again, and another one is tried. -/
theorem halt_is_final_plus :
    let c₀ : Controller := { settings := { observers := [{ label := "watch" }] } }
    let s := ((Session.scheduled c₀ .plus [2, 1] none).call (.control .singleStep)).act .turn
    let calls : List Call :=
      [.control .resume, .control .singleStep, .start { root := ⟨[], .plus⟩, inputs := [] } .plus,
        .control .pause, .control .halt]
    let pending := (s.call (.control .halt)).afterCalls calls
    let ended := pending.act .turn
    s.Arises ∧ s.run.phase.isSuspended = true ∧ s.run.cancelling = false ∧
      s.controller.state = .paused ∧ ended.controller.state = .halted ∧
      ended.run.phase = .finished .halted := by
  intro c₀ s calls
  have hs : s.Arises := ((Session.Arises.scheduled c₀ .plus rfl).call _).turn
  have hsuspended : s.run.phase.isSuspended = true := by decide +kernel
  obtain ⟨-, -, -, -, hstate, -, -, hend⟩ := halt_is_final hs hsuspended rfl calls
  have hfault : ((s.call (.control .halt)).afterCalls calls).controller.fault? (.state .halted) =
      none := Option.isNone_iff_eq_none.mp (by decide +kernel)
  rw [hfault, Option.elim_none] at hend
  exact ⟨hs, hsuspended, rfl, by decide +kernel, hstate, hend⟩

/-- An observer that fails when it is told that a run was halted. -/
def Observer.stubborn : Observer where
  react
    | _, .state .halted => [.fail (.raised "Objection" "not now")]
    | _, _ => []

/-- **A halted run may fail.** In the first delay of a run someone asks to halt, and the next turn
ends the run with the fault of an observer that will not have it. -/
theorem halted_run_fails :
    let c₀ : Controller := { settings := { observers := [.stubborn] } }
    let s := (Session.scheduled c₀ .plus [2, 1] none).act .turn
    s.Arises ∧ s.run.phase.isSuspended = true ∧ s.run.cancelling = false ∧
      s.controller.isRunning = true ∧
      ∃ f, f.message = "not now" ∧
        ((s.call (.control .halt)).act .turn).run.phase = .finished (.failed f) := by
  intro c₀ s
  have hs : s.Arises := (Session.Arises.scheduled c₀ .plus rfl).turn
  have hsuspended : s.run.phase.isSuspended = true := by decide +kernel
  have hcancel : s.run.cancelling = false := rfl
  have hwords : ((s.call (.control .halt)).controller.fault? (.state .halted)).map Fault.message =
      some "not now" := by decide +kernel
  obtain ⟨f, hfault, hmessage⟩ := Option.map_eq_some_iff.mp hwords
  have hend := (hs.ends_of_halt hsuspended hcancel []).1
  rw [Session.afterCalls, List.foldl_nil, hfault, Option.elim_some] at hend
  exact ⟨hs, hsuspended, hcancel, (hs.underway hsuspended).1, f, hmessage, hend⟩

end BlockCalculus
