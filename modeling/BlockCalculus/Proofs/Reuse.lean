import BlockCalculus.Proofs.History
import BlockCalculus.Proofs.Interruption

/-!
# A controller after a run

Whichever way a run ends, its controller is free for another run afterwards, even if observers fail
when they are told of something. There are two exceptions. If an observer fails when it is told that
a run begins, the run is over, but the controller is left running; and so it is if an observer asks
for the whole program to end when it is told of a step or of a pause (`Delivery.Quits`). Then no run
is under way, and none begins any more (`Stage.Seized`).

* `Controller.turn_isRunning`: whether a controller is running after the last turn of a run.
* `Stage.exclusive_after`: whatever observers do, at most one run is under way, and while one is,
  the controller is running.
* `Stage.Seized.after`: nothing that happens on a stage frees a controller that no run has.
-/

namespace BlockCalculus

/-- The fault by which reporting a step breaks the evaluation off: that of telling observers of the
step, or else that of telling them of a pause that follows. -/
def Delivery.breach? (d : Delivery) : Option Fault :=
  d.told.2.or (if d.pauses then (d.told.1.paused d.block).2 else none)

/-- An observer asks for the program to end while a step is reported. -/
def Delivery.Quits (d : Delivery) : Prop :=
  ∃ cause message, d.breach? = some (.quit cause message)

/-! ## Endings free the controller -/

/-- Unless a run goes on after a turn, its controller is running exactly if there is a reason. -/
def Turn.Frees (reason : Prop) (t : Turn) : Prop :=
  t.phase.isUnderway = false → (t.controller.isRunning = true ↔ reason)

/-- A run that goes on leaves nothing to show. -/
theorem Turn.frees_of_isUnderway {reason : Prop} {t : Turn} (h : t.phase.isUnderway = true) :
    t.Frees reason := by
  intro hover
  exact absurd (h.symm.trans hover) Bool.noConfusion

namespace Controller

variable {c : Controller}

theorem isRunning_of_state {state : RunState} (h : c.state = state)
    (hrunning : state ≠ .running) (hpaused : state ≠ .paused) : c.isRunning = false := by
  rw [isRunning, h, Bool.or_eq_false_iff]
  exact ⟨beq_false_of_ne hrunning, beq_false_of_ne hpaused⟩

theorem close_frees {reason : Prop} (hnot : ¬ reason) {state : RunState}
    (hrunning : state ≠ .running) (hpaused : state ≠ .paused) (ending : RunEnding) (scene : Scene) :
    (c.close state ending scene).Frees reason := by
  have hstate : (c.close state ending scene).controller.state = state := enter_state hpaused c
  intro _
  exact iff_of_false (Bool.eq_false_iff.mp (isRunning_of_state hstate hrunning hpaused)) hnot

theorem closeHalted_frees {reason : Prop} (hnot : ¬ reason) (scene : Scene) :
    (c.closeHalted scene).Frees reason :=
  close_frees hnot (by decide) (by decide) _ _

/-- **A fault that breaks an evaluation off frees the controller**, unless the program is to end. -/
theorem closeRaised_frees (h : c.isRunning = true) (f : Fault) (scene : Scene) :
    (c.closeRaised f scene).Frees (∃ cause message, f = .quit cause message) := by
  rw [closeRaised_eq]
  cases hlast : f.lastState? with
  | none => exact fun _ => iff_of_true h (Fault.lastState?_eq_none_iff.mp hlast)
  | some state =>
    have hnot : ¬ ∃ cause message, f = .quit cause message := by
      rw [← Fault.lastState?_eq_none_iff, hlast]
      exact Option.some_ne_none state
    obtain rfl | rfl := Fault.eq_of_lastState? hlast
    · exact close_frees hnot (by decide) (by decide) _ _
    · exact close_frees hnot (by decide) (by decide) _ _

theorem closeCompleted_frees {reason : Prop} (hnot : ¬ reason) (n : Int) (scene : Scene) :
    (c.closeCompleted n scene).Frees reason := by
  have hpaused : RunState.completed ≠ .paused := by decide
  have hstate : (c.closeCompleted n scene).controller.state = .completed := by
    have hentered := enter_state hpaused { c.settle with result := some n }
    unfold closeCompleted Effect.andThen
    dsimp only
    generalize enter _ _ = e at hentered
    obtain ⟨c', fault⟩ := e
    cases fault with
    | none =>
      exact notify_preserves (stable_state (P := fun s => s = .completed) fun heq =>
        absurd heq.symm hpaused) (fun _ _ h => h) hentered
    | some f => exact hentered
  exact fun _ =>
    iff_of_false (Bool.eq_false_iff.mp (isRunning_of_state hstate (by decide) hpaused)) hnot

theorem leavePause_frees {reason : Prop} (hnot : ¬ reason) (rest : Unit → Walk Int)
    (scene : Scene) : (c.leavePause rest scene).Frees reason := by
  unfold leavePause
  split
  · exact closeHalted_frees hnot scene
  · exact Turn.frees_of_isUnderway rfl

theorem isRunning_paused (h : c.isRunning = true) (b : Block) :
    (c.paused b).1.isRunning = true := by
  unfold paused
  refine enter_preserves stable_isRunning (fun _ _ h => h) rfl ?_
  split <;> exact h

theorem park_frees (h : c.isRunning = true) (b : Block) (rest : Unit → Walk Int) (scene : Scene) :
    (c.park b rest scene).Frees (∃ cause message, (c.paused b).2 = some (.quit cause message)) := by
  have hrunning := isRunning_paused h b
  rw [park_eq]
  cases (c.paused b).2 with
  | some f =>
    simp only [Option.some.injEq]
    exact closeRaised_frees hrunning f scene
  | none =>
    have hnot : ¬ ∃ cause message, none = some (Fault.quit cause message) := by simp
    show (if (c.paused b).1.released then _ else _ : Turn).Frees _
    split
    · exact leavePause_frees hnot rest scene
    · exact Turn.frees_of_isUnderway rfl

end Controller

/-- **A step that is reported frees the controller if it ends the run**, unless an observer asks for
the program to end. -/
theorem Delivery.turn_frees {d : Delivery} (h : d.controller.isRunning = true)
    (hhalting : d.controller.halting = false) : d.turn.Frees d.Quits := by
  have hrunning : d.told.1.isRunning = true :=
    Controller.notify_preserves Controller.stable_isRunning (fun _ _ h => h) (by exact h)
  rw [turn_eq hhalting]
  unfold Quits breach?
  cases d.told.2 with
  | some f =>
    simp only [Option.some_or, Option.some.injEq]
    exact Controller.closeRaised_frees hrunning f d.scene
  | none =>
    rw [Option.none_or]
    cases d.pauses with
    | true => exact Controller.park_frees hrunning d.block d.rest d.scene
    | false => exact Turn.frees_of_isUnderway rfl

namespace Controller

variable {c : Controller}

/-- **However walking on ends a run, it frees the controller**, unless an observer asks for the
program to end at the step that it comes to. -/
theorem advance_frees (h : c.isRunning = true) (w : Walk Int) (scene : Scene) :
    (advance w scene c).Frees (∃ d, delivers? w scene c = some d ∧ d.Quits) := by
  induction w with
  | done n => exact closeCompleted_frees (by simp [delivers?]) n scene
  | fail e =>
    rw [advance, closeRaised_fault]
    exact close_frees (by simp [delivers?]) (by decide) (by decide) _ _
  | step s rest _ =>
    cases hhalting : c.halting with
    | true =>
      rw [advance, report, if_pos hhalting]
      exact closeHalted_frees (by simp [delivers?, hhalting]) _
    | false =>
      let d : Delivery := ⟨c, s, rest, scene.trace c.settings.options.trace s⟩
      have hdelivers : (∃ d', delivers? (.step s rest) scene c = some d' ∧ d'.Quits) ↔ d.Quits := by
        simp [delivers?, hhalting, d]
      rw [hdelivers]
      exact Delivery.turn_frees (d := d) h hhalting
  | wait rest _ => exact Turn.frees_of_isUnderway rfl
  | look site next ih => exact ih _
  | consult kind next ih => exact ih _

/-! ## Whether a controller is running after a run -/

/-- A run begins unless one is in progress, and fails to if an observer does when it is told. -/
theorem prepare_fault (h : ¬ c.isRunning = true) (speed : Option Speed) (root : Block) :
    (c.prepare speed root).2 = c.fault? (.state .running) := by
  obtain ⟨begun, heq, -, hrunning, hsettings, htold⟩ := prepare_eq h speed root
  have hnot : begun.state ≠ .paused := by
    rw [hrunning]
    exact RunState.noConfusion
  rw [heq, notify_fault hnot, fault?, hsettings, htold]
  rfl

/-- The first turn of a run that ends with it frees the controller, unless an observer fails when it
is told that the run begins, or asks for the program to end at the first step. -/
theorem start_frees (hidle : ¬ c.isRunning = true) {run : Run} (hphase : run.phase = .scheduled)
    (hcancel : run.cancelling = false) (tree : Block) :
    (c.start run tree).Frees ((c.fault? (.state .running)).isSome = true ∨
      ∃ d, c.delivery? run tree = some d ∧ d.Quits) := by
  have hbegun := (prepare_underway hidle run.speed ((run.scene tree).now run.root)).1
  rw [← prepare_fault hidle run.speed ((run.scene tree).now run.root)]
  unfold start begin delivery?
  rw [hphase, hcancel]
  dsimp only
  generalize c.prepare run.speed ((run.scene tree).now run.root) = e at *
  obtain ⟨c', fault⟩ := e
  cases fault with
  | some f => exact fun _ => iff_of_true hbegun (.inl rfl)
  | none =>
    rw [Option.isSome_none, or_iff_right Bool.false_ne_true]
    exact advance_frees hbegun _ _

/-- However a turn of a run that has begun ends it, it frees the controller, unless an observer asks
for the program to end at the step that the turn comes to. -/
theorem turn_frees (h : c.isRunning = true) {run : Run} (hunder : run.phase.isUnderway = true)
    (tree : Block) :
    (c.turn run tree).Frees (∃ d, c.delivery? run tree = some d ∧ d.Quits) := by
  unfold turn delivery?
  cases hphase : run.phase with
  | scheduled | finished _ =>
    rw [hphase] at hunder
    exact absurd hunder Bool.noConfusion
  | delayed rest =>
    cases run.cancelling with
    | true => exact close_frees (by simp) (by decide) (by decide) _ _
    | false =>
      dsimp only
      cases c.halting with
      | true => exact closeHalted_frees (by simp) _
      | false => exact advance_frees h _ _
  | parked rest =>
    cases run.cancelling with
    | true => exact close_frees (by simp) (by decide) (by decide) _ _
    | false =>
      dsimp only
      split
      · exact leavePause_frees (by simp) rest _
      · exact Turn.frees_of_isUnderway rfl
  | waiting rest =>
    cases run.cancelling with
    | true => exact close_frees (by simp) (by decide) (by decide) _ _
    | false => exact advance_frees h _ _

/-- A run that has begun is under way, or it begins now and no other one is in progress. -/
theorem isBegun_cases {run : Run} (h : run.isBegun c = true) :
    run.phase.isUnderway = true ∨
      run.phase = .scheduled ∧ run.cancelling = false ∧ ¬ c.isRunning = true := by
  unfold Run.isBegun at h
  cases hphase : run.phase with
  | scheduled =>
    rw [hphase, Bool.and_eq_true, Bool.not_eq_true', Bool.not_eq_true'] at h
    exact .inr ⟨rfl, h.1, Bool.eq_false_iff.mp h.2⟩
  | _ =>
    rw [hphase] at h
    exact .inl h

/-- **A controller is free after a run, unless an observer failed when it was told that the run
begins, or asked for the program to end.** -/
theorem turn_isRunning {run : Run} {tree : Block} (hlive : run.phase.isUnderway = true → c.Underway)
    (hbegun : run.isBegun c = true) (hover : (c.turn run tree).phase.isUnderway = false) :
    (c.turn run tree).controller.isRunning = true ↔
      run.phase = .scheduled ∧ (c.fault? (.state .running)).isSome = true ∨
        ∃ d, c.delivery? run tree = some d ∧ d.Quits := by
  obtain hunder | ⟨hphase, hcancel, hidle⟩ := isBegun_cases hbegun
  · have hnot : ¬ (run.phase = .scheduled ∧ (c.fault? (.state .running)).isSome = true) := by
      intro hstart
      rw [hstart.1] at hunder
      exact Bool.noConfusion hunder
    rw [or_iff_right hnot]
    exact turn_frees (hlive hunder).1 hunder tree hover
  · have hturn : c.turn run tree = c.start run tree := by
      rw [turn, hphase, hcancel]
    rw [hturn] at hover ⊢
    rw [and_iff_right hphase]
    exact start_frees hidle hphase hcancel tree hover

/-- A run that does not begin with its turn is not under way after it. -/
theorem isUnderway_turn_of_not_isBegun {run : Run} (h : run.isBegun c = false)
    (tree : Block) : (c.turn run tree).phase.isUnderway = false := by
  unfold Run.isBegun at h
  cases hphase : run.phase with
  | scheduled =>
    rw [hphase, Bool.and_eq_false_iff, Bool.not_eq_false', Bool.not_eq_false'] at h
    unfold turn
    rw [hphase]
    cases hcancel : run.cancelling with
    | true => rfl
    | false =>
      have hrunning : c.isRunning = true := h.resolve_left (by simp [hcancel])
      dsimp only
      rw [start_of_isRunning hrunning]
      rfl
  | finished ending =>
    unfold turn
    rw [hphase]
    rfl
  | _ =>
    rw [hphase] at h
    exact absurd h Bool.noConfusion

end Controller

theorem Phase.live_iff {c : Controller} {phase : Phase} :
    phase.Live c ↔ (phase.isUnderway = true → c.Underway) := by
  cases phase <;> simp [Live, isUnderway]

/-! ## One run at most -/

namespace Stage

variable {s : Stage}

/-- A run has begun and is not over. -/
def UnderwayAt (s : Stage) (index : Nat) : Prop :=
  ∃ phase, s.phases[index]? = some phase ∧ phase.isUnderway = true

/-- At most one run is under way, and while one is, so is the controller. -/
structure Exclusive (s : Stage) : Prop where
  live : ∀ i, s.UnderwayAt i → s.controller.Underway
  only : ∀ i j, s.UnderwayAt i → s.UnderwayAt j → i = j

theorem underwayAt_start (root : Site) (tree : Block) (inputs : List Int) (speed : Option Speed)
    {i : Nat} (h : (s.cue (.start root tree inputs speed)).UnderwayAt i) : s.UnderwayAt i := by
  obtain ⟨phase, hphase, hunder⟩ := h
  have hphases : (s.cue (.start root tree inputs speed)).phases = s.phases ++ [.scheduled] := by
    simp [cue, phases]
  rw [hphases] at hphase
  by_cases hlt : i < s.phases.length
  · rw [List.getElem?_append_left hlt] at hphase
    exact ⟨phase, hphase, hunder⟩
  · rw [List.getElem?_append_right (Nat.le_of_not_lt hlt)] at hphase
    obtain rfl := List.mem_singleton.mp (List.mem_of_getElem? hphase)
    exact absurd hunder Bool.noConfusion

/-- After a turn, the run that had it may be under way, and others if they were before. -/
theorem underwayAt_turn {index : Nat} {run : Run} {tree : Block}
    (hget : s.runs[index]? = some (run, tree)) {i : Nat}
    (h : (s.cue (.turn index)).UnderwayAt i) :
    i = index ∧ (s.controller.turn run tree).phase.isUnderway = true ∨
      i ≠ index ∧ s.UnderwayAt i := by
  obtain ⟨phase, hphase, hunder⟩ := h
  rw [phases_turn hget] at hphase
  by_cases hi : index = i
  · subst hi
    rw [List.getElem?_set] at hphase
    obtain ⟨-, rfl⟩ : _ ∧ (s.controller.turn run tree).phase = phase := by simpa using hphase
    exact .inl ⟨rfl, hunder⟩
  · rw [List.getElem?_set_ne hi] at hphase
    exact .inr ⟨Ne.symm hi, phase, hphase, hunder⟩

theorem underwayAt_congr {s' : Stage} (hphases : s'.phases = s.phases) {i : Nat} :
    s'.UnderwayAt i ↔ s.UnderwayAt i := by
  unfold UnderwayAt
  rw [hphases]

theorem phases_edit (index : Nat) (tree : Block) : (s.cue (.edit index tree)).phases = s.phases :=
  phases_modify index (fun e => (Run.phase_edited e.2 tree e.1).1) s.runs

theorem phases_cancel (index : Nat) : (s.cue (.cancel index)).phases = s.phases :=
  phases_modify index (fun e => Run.phase_cancel e.1) s.runs

/-- Runs stay apart as long as none begins and the controller is under way if it was. -/
theorem Exclusive.mono {s' : Stage} (h : s.Exclusive)
    (hbefore : ∀ i, s'.UnderwayAt i → s.UnderwayAt i)
    (hlive : s.controller.Underway → s'.controller.Underway) : s'.Exclusive :=
  ⟨fun i hi => hlive (h.live i (hbefore i hi)),
    fun i j hi hj => h.only i j (hbefore i hi) (hbefore j hj)⟩

/-- While a run has a turn, or begins with it, no other one is under way. -/
theorem Exclusive.alone (h : s.Exclusive) {index : Nat} {run : Run} {tree : Block}
    (hget : s.runs[index]? = some (run, tree)) (hbegun : run.isBegun s.controller = true) {i : Nat}
    (hi : i ≠ index) : ¬ s.UnderwayAt i := by
  intro hunder
  obtain hrun | ⟨-, -, hidle⟩ := Controller.isBegun_cases hbegun
  · exact hi (h.only i index hunder ⟨run.phase, by simp [phases, hget], hrun⟩)
  · exact hidle (h.live i hunder).1

/-- The turn of a run keeps the runs apart. If the run has begun no other one is under way, and
otherwise its turn changes nothing. -/
theorem Exclusive.turn (h : s.Exclusive) (index : Nat) : (s.cue (.turn index)).Exclusive := by
  cases hget : s.runs[index]? with
  | none =>
    have hcue : s.cue (.turn index) = s := by simp [cue, hget]
    rwa [hcue]
  | some e =>
    obtain ⟨run, tree⟩ := e
    have hcontroller : (s.cue (.turn index)).controller =
        (s.controller.turn run tree).controller := congrArg controller (cue_turn hget)
    cases hbegun : run.isBegun s.controller with
    | true =>
      have hindex {i : Nat} (hi : (s.cue (.turn index)).UnderwayAt i) :
          i = index ∧ (s.controller.turn run tree).phase.isUnderway = true :=
        (underwayAt_turn hget hi).resolve_right fun hother => h.alone hget hbegun hother.1 hother.2
      refine ⟨fun i hi => ?_, fun i j hi hj => (hindex hi).1.trans (hindex hj).1.symm⟩
      have hlive : run.phase.Live s.controller := Phase.live_iff.mpr fun hrun =>
        h.live index ⟨run.phase, by simp [phases, hget], hrun⟩
      rw [hcontroller]
      exact Phase.live_iff.mp (Controller.turn_live hlive tree) (hindex hi).2
    | false =>
      have hsame : (s.cue (.turn index)).controller = s.controller :=
        hcontroller.trans (Controller.turn_of_not_isBegun hbegun tree)
      have hover := Controller.isUnderway_turn_of_not_isBegun hbegun tree
      have hbefore {i : Nat} (hi : (s.cue (.turn index)).UnderwayAt i) : s.UnderwayAt i := by
        obtain ⟨-, hunder⟩ | ⟨-, hunder⟩ := underwayAt_turn hget hi
        · exact absurd (hunder.symm.trans hover) Bool.noConfusion
        · exact hunder
      exact h.mono (fun _ => hbefore) fun hunderway => hsame ▸ hunderway

theorem Exclusive.cue (h : s.Exclusive) (cue : Cue) : (s.cue cue).Exclusive := by
  cases cue with
  | ask control =>
    exact h.mono (fun _ hi => hi) (Controller.apply_preserves Controller.stable_underway control)
  | start root tree inputs speed =>
    exact h.mono (fun _ => underwayAt_start root tree inputs speed) id
  | turn index => exact h.turn index
  | edit index tree => exact h.mono (fun _ => (underwayAt_congr (phases_edit index tree)).mp) id
  | cancel index => exact h.mono (fun _ => (underwayAt_congr (phases_cancel index)).mp) id

/-- **Whatever happens on a stage, and whatever observers do, at most one run is under way.** -/
theorem exclusive_after (c₀ : Controller) (cues : List Cue) :
    (Stage.after ⟨c₀, []⟩ cues).Exclusive := by
  have hstart : Exclusive ⟨c₀, []⟩ := by
    refine ⟨fun i hi => ?_, fun i j hi _ => ?_⟩ <;>
    · obtain ⟨phase, hphase, -⟩ := hi
      cases hphase
  have hrun (s : Stage) (h : s.Exclusive) : (s.after cues).Exclusive := by
    induction cues generalizing s with
    | nil => exact h
    | cons cue rest ih => exact ih _ (h.cue cue)
  exact hrun _ hstart

/-! ## A controller that no run has -/

/-- The controller is running, but no run is under way. -/
def Seized (s : Stage) : Prop :=
  s.controller.isRunning = true ∧ ∀ i, ¬ s.UnderwayAt i

theorem Seized.cue (h : s.Seized) (cue : Cue) : (s.cue cue).Seized := by
  obtain ⟨hrunning, hnone⟩ := h
  cases cue with
  | ask control =>
    exact ⟨Controller.apply_preserves Controller.stable_isRunning control hrunning, hnone⟩
  | start root tree inputs speed =>
    exact ⟨hrunning, fun i hi => hnone i (underwayAt_start root tree inputs speed hi)⟩
  | turn index =>
    cases hget : s.runs[index]? with
    | none =>
      have hcue : s.cue (.turn index) = s := by simp [Stage.cue, hget]
      rw [hcue]
      exact ⟨hrunning, hnone⟩
    | some e =>
      obtain ⟨run, tree⟩ := e
      have hover : run.phase.isUnderway = false := Bool.eq_false_iff.mpr fun hunder =>
        hnone index ⟨run.phase, by simp [phases, hget], hunder⟩
      obtain ⟨hsame, -, hdone⟩ := Controller.turn_of_other hrunning hover tree
      refine ⟨?_, fun i hi => ?_⟩
      · rw [cue_turn hget]
        dsimp only
        rw [hsame]
        exact hrunning
      · obtain ⟨-, hunder⟩ | ⟨-, hunder⟩ := underwayAt_turn hget hi
        · exact absurd (hunder.symm.trans hdone) Bool.noConfusion
        · exact hnone i hunder
  | edit index tree =>
    exact ⟨hrunning, fun i hi => hnone i ((underwayAt_congr (phases_edit index tree)).mp hi)⟩
  | cancel index =>
    exact ⟨hrunning, fun i hi => hnone i ((underwayAt_congr (phases_cancel index)).mp hi)⟩

/-- **Nothing frees a controller that no run has.** -/
theorem Seized.after (h : s.Seized) (cues : List Cue) : (s.after cues).Seized := by
  induction cues generalizing s with
  | nil => exact h
  | cons cue rest ih => exact ih (h.cue cue)

/-- A controller that no run has after a turn that ended one stays like that. -/
theorem Exclusive.seized (h : s.Exclusive) {index : Nat} {run : Run} {tree : Block}
    (hget : s.runs[index]? = some (run, tree)) (hbegun : run.isBegun s.controller = true)
    (hover : (s.controller.turn run tree).phase.isUnderway = false)
    (hrunning : (s.cue (.turn index)).controller.isRunning = true) :
    (s.cue (.turn index)).Seized := by
  refine ⟨hrunning, fun i hi => ?_⟩
  obtain ⟨-, hunder⟩ | ⟨hne, hunder⟩ := underwayAt_turn hget hi
  · exact absurd (hunder.symm.trans hover) Bool.noConfusion
  · exact h.alone hget hbegun hne hunder

/-- A controller that is free stays free, whatever it is asked for. -/
theorem idle_after_asks (h : s.controller.isRunning = false) (controls : List Control) :
    (s.after (controls.map .ask)).controller.isRunning = false := by
  induction controls generalizing s with
  | nil => exact h
  | cons control rest ih =>
    have hstable : Controller.Stable fun c => c.isRunning = false :=
      Controller.stable_state (P := fun state => (state == .running || state == .paused) = false)
        fun hpaused => Bool.noConfusion hpaused
    exact ih (s := s.cue (.ask control)) (Controller.apply_preserves hstable control h)

end Stage

/-! ## Reuse -/

/-- **A controller is free after a run, with two exceptions.** Whatever happened under a controller,
let the turn of a run end it. Then the controller is running after the turn exactly if the run began
with this turn and an observer failed when it was told so, or if an observer asked for the whole
program to end when it was told of the step that the turn came to, or of a pause after it.

If the controller is not running, then whatever is asked of it, it takes the next run on, which
fails to begin only by an observer that fails when it is told so. But if it is running, it stays so
whatever happens, and refuses every run. -/
theorem free_after_run (c₀ : Controller) (cues : List Cue) {index : Nat} {run : Run}
    {tree : Block} :
    let s := Stage.after ⟨c₀, []⟩ cues
    s.runs[index]? = some (run, tree) → s.endsRun (.turn index) = true →
      let ended := s.cue (.turn index)
      (ended.controller.isRunning = true ↔
          run.phase = .scheduled ∧ (s.controller.fault? (.state .running)).isSome = true ∨
            ∃ d, s.controller.delivery? run tree = some d ∧ d.Quits) ∧
        (ended.controller.isRunning = false → ∀ (controls : List Control) speed root,
          let c := (ended.after (controls.map .ask)).controller
          (c.prepare speed root).1.state = .running ∧
            (c.prepare speed root).2 = c.fault? (.state .running)) ∧
        (ended.controller.isRunning = true → ∀ more,
          let c := (ended.after more).controller
          c.isRunning = true ∧
            ∀ (next : Run) (tree : Block), next.phase = .scheduled → next.cancelling = false →
              c.turn next tree =
                ⟨.finished (.failed .alreadyRunning), c, next.scene tree⟩) := by
  intro s hget hends ended
  simp only [Stage.endsRun, hget, Bool.and_eq_true, Bool.not_eq_true'] at hends
  obtain ⟨hbegun, hover⟩ := hends
  have hexclusive : s.Exclusive := Stage.exclusive_after c₀ cues
  have hcontroller : ended.controller = (s.controller.turn run tree).controller :=
    congrArg Stage.controller (Stage.cue_turn hget)
  refine ⟨?_, fun hidle controls speed root => ?_, fun hrunning more => ?_⟩
  · rw [hcontroller]
    refine Controller.turn_isRunning (fun hunder => ?_) hbegun hover
    exact hexclusive.live index ⟨run.phase, by simp [Stage.phases, hget], hunder⟩
  · have hfree := Bool.eq_false_iff.mp (Stage.idle_after_asks hidle controls)
    exact ⟨(Controller.prepare_running hfree speed root).1,
      Controller.prepare_fault hfree speed root⟩
  · have hseized := hexclusive.seized hget hbegun hover hrunning
    obtain ⟨hstill, -⟩ := hseized.after more
    refine ⟨hstill, fun next tree hphase hcancel => ?_⟩
    rw [Controller.turn, hphase, hcancel]
    exact Controller.start_of_isRunning hstill next tree

/-- An observer that fails when it is told that a run begins, but not the first time. -/
def Observer.surly : Observer where
  react
    | past, .state .running =>
      if past.isEmpty then [] else [.fail (.raised "Objection" "not again")]
    | _, _ => []

/-- A run is halted and an observer fails when it is told so: its controller takes on the next run.
But if an observer fails when it is told that the next run begins, asking to halt is of no use, and
every further run is refused. -/
theorem free_after_run_plus :
    let root : Site := ⟨[], .plus⟩
    let start : Cue := .start root .plus [2, 1] none
    let halted := [start, .turn 0, .ask .halt]
    let again := halted ++ [.turn 0, start]
    let s := Stage.after ⟨{ settings := { observers := [.stubborn] } }, []⟩ halted
    let s' := Stage.after ⟨{ settings := { observers := [.surly] } }, []⟩ again
    let next : Run := { root, inputs := [2, 1] }
    (s.endsRun (.turn 0) = true ∧ s'.endsRun (.turn 1) = true) ∧
      (s.cue (.turn 0)).controller.isRunning = false ∧
      (((s.cue (.turn 0)).after ([.halt].map .ask)).controller.prepare none .plus).1.state =
        .running ∧
      (s'.cue (.turn 1)).controller.isRunning = true ∧
      (((s'.cue (.turn 1)).after [.ask .halt, .turn 1]).controller.turn next .plus).phase =
        .finished (.failed .alreadyRunning) := by
  intro root start halted again s s' next
  have hends : s.endsRun (.turn 0) = true := by decide +kernel
  have hends' : s'.endsRun (.turn 1) = true := by decide +kernel
  have hidle : (s.cue (.turn 0)).controller.isRunning = false := by decide +kernel
  obtain ⟨⟨run, tree⟩, hget⟩ : ∃ e, s.runs[0]? = some e :=
    Option.isSome_iff_exists.mp (by decide +kernel)
  have hget' : s'.runs[1]? = some (next, .plus) := rfl
  have hfree (controls : List Control) :
      (((s.cue (.turn 0)).after (controls.map .ask)).controller.prepare none .plus).1.state =
        .running :=
    ((free_after_run _ halted hget hends).2.1 hidle controls none .plus).1
  obtain ⟨hrunning, -, hrefuses⟩ := free_after_run _ again hget' hends'
  have hseized : (s'.cue (.turn 1)).controller.isRunning = true :=
    hrunning.mpr (.inl ⟨rfl, by decide +kernel⟩)
  have hrefused := (hrefuses hseized [.ask .halt, .turn 1]).2 next .plus rfl rfl
  exact ⟨⟨hends, hends'⟩, hidle, hfree [.halt], hseized, congrArg Turn.phase hrefused⟩

end BlockCalculus
