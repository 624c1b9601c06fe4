import BlockCalculus.Proofs.Likeness

/-!
# Evaluation goes by the outline of a tree

Two trees of the same outline denote the same function, and evaluation depends on nothing else. They
may bear other ids, names, numbers of inputs, depths, flags, problems and notes, other minimums of
parameters and other rules of slots; one may be traced and the other not: they give the same integer
or fail with errors of the same class, and their steps agree, position by position
(`Block.evaluation_goes_by_outline`).

The walk that evaluates a tree does not look at notes, neither at earlier ones nor at those that it
leaves itself on blocks to which it comes back. To show that this loses nothing, `Walk.followLive`
follows a walk through the tree as it stands, where a look at a block shows all that is noted on it
by then. That too comes out alike.
-/

namespace BlockCalculus

/-! ## Trees as they stand -/

/-- Follows a walk through a tree as it stands: a look shows the block with all that is noted on it
by then. -/
def Walk.followLive (c : Catalog) (on : Bool) : Walk Int → Block → List Step → Stepped
  | done n, tree, taken => ⟨tree, taken.reverse, .ok n⟩
  | fail e, tree, taken => ⟨tree, taken.reverse, .error e.fault⟩
  | step s rest, tree, taken => followLive c on (rest ()) (trace on s tree) (s :: taken)
  | wait rest, tree, taken => followLive c on (rest ()) tree taken
  | look site next, tree, taken =>
    followLive c on (next ((tree.at? site.position).getD site.block)) tree taken
  | consult kind next, tree, taken => followLive c on (next (c.lookup? kind)) tree taken

namespace Block

/-- Evaluates a tree as it stands, step by step, with at most `levels` blocks under evaluation at
once. -/
def evaluateLiveWithin (levels : Nat) (c : Catalog) (options : EvalOptions) (tree : Block)
    (inputs : List Int) : Walk.Stepped :=
  (BlockCalculus.walk options.ceiling levels ⟨[], tree⟩ inputs).followLive c options.trace tree []

/-- A position leads to the same block of a tree and of its outline. -/
theorem at?_outline (p : Position) (b : Block) :
    b.outline.at? p = (b.at? p).map outline := by
  induction p generalizing b with
  | nil => simp
  | cons i rest ih =>
    obtain ⟨head, slots⟩ := b
    rw [at?, at?, outline, outlineAll_eq_map, List.getElem?_map]
    cases h : slots[i]? with
    | none => simp
    | some s =>
      obtain ⟨shape, occupant⟩ := s
      cases occupant with
      | none => simp
      | some d => simpa using ih d

/-- A position leads to blocks of the same outline in trees of the same outline. -/
theorem exists_at?_of_outline {b b' d' : Block} (h : b.outline = b'.outline) {p : Position}
    (hd' : b'.at? p = some d') : ∃ d, b.at? p = some d ∧ d.outline = d'.outline := by
  have hmap : (b.at? p).map outline = some d'.outline := by
    rw [← at?_outline, h, at?_outline, hd', Option.map_some]
  obtain ⟨d, hd, houtline⟩ := Option.map_eq_some_iff.mp hmap
  exact ⟨d, hd, houtline⟩

@[simp] theorem outline_trace (on : Bool) (s : Step) (b : Block) :
    (Walk.trace on s b).outline = b.outline := by
  cases on with
  | false => rfl
  | true =>
    show (s.record b).outline = b.outline
    rw [← outline_clearTrace, clearTrace_record, outline_clearTrace]

end Block

/-- **Looking at a tree as it stands makes no difference.** A walk that is followed through the tree
as it stands comes out as a walk does that matches it, keeps to a tree of the same outline, and
looks at what it came upon. -/
theorem Walk.Matches.followLive_like {c : Catalog} {w w' : Walk Int}
    (h : w.Matches c (Site.Alike []) (.like []) w') (on : Bool) {tree t : Block}
    (hw : w'.Along c tree) (ht : t.outline = tree.outline) (taken : List Step) :
    (w.followLive c on t taken).outcome.mapError Fault.sort =
        ((w'.ending c).mapError Failure.fault).mapError Fault.sort ∧
      (w.followLive c on t taken).steps.map (Step.seen []) =
        taken.reverse.map (Step.seen []) ++ (w'.steps c).map (Step.seen []) := by
  induction h generalizing t taken with
  | excused hexcuse => exact hexcuse.elim
  | done n => exact ⟨rfl, (List.append_nil _).symm⟩
  | fail hsort =>
    exact ⟨congrArg Except.error (Fault.sort_congr hsort), (List.append_nil _).symm⟩
  | @step s s' rest rest' hseen _ ih =>
    obtain ⟨hout, hsteps⟩ := ih hw.2 ((Block.outline_trace on s t).trans ht) (s :: taken)
    refine ⟨hout, hsteps.trans ?_⟩
    have hs : Step.seen [] s = Step.seen [] s' := hseen
    simp [Walk.steps, hs]
  | wait _ _ => exact hw.elim
  | @look site site' next next' hs _ ih =>
    -- The block that is there has the outline of the one that the other walk came upon.
    obtain ⟨b, hb, houtline⟩ := Block.exists_at?_of_outline ht hw.1
    have hplace : t.at? site.position = some b := by
      rw [hs.1]
      exact hb
    rw [Walk.followLive, hplace, Option.getD_some]
    exact ih b site'.block ⟨hs.1, houtline⟩ hw.2 ht taken
  | glance _ ih => exact ih _ hw ht taken
  | consult _ ih => exact ih hw ht taken

namespace Block

variable {b b' : Block}

/-- **A tree as it stands is evaluated as a tree of the same outline is**, traced or not. -/
theorem evaluateLiveWithin_like {c : Catalog} (hown : c.Ignores SameOutline) (hc : c.Prompt)
    (h : b.outline = b'.outline) (levels : Nat) {options options' : EvalOptions}
    (hceiling : options.ceiling = options'.ceiling) (inputs : List Int) :
    (b.evaluateLiveWithin levels c options inputs).outcome.mapError Fault.sort =
        (b'.evaluateSteppedWithin levels c options' none inputs).outcome.mapError Fault.sort ∧
      (b.evaluateLiveWithin levels c options inputs).steps.map (Step.seen []) =
        (b'.evaluateSteppedWithin levels c options' none inputs).steps.map (Step.seen []) := by
  have houtline : b.outline = b'.clearTrace.outline := by
    rw [outline_clearTrace, h]
  have hsites : Site.Alike [] ⟨[], b⟩ ⟨[], b'.clearTrace⟩ := ⟨rfl, houtline⟩
  have hmatch : (BlockCalculus.walk options.ceiling levels ⟨[], b⟩ inputs).Matches c
      (Site.Alike []) (.like []) (b'.walkWithin levels options' inputs) := by
    unfold walkWithin Site.walkWithin
    rw [← hceiling]
    exact walk_like hown [] options.ceiling levels hsites inputs
  have hlive := hmatch.followLive_like options.trace (walkWithin_along hc levels options' b' inputs)
    houtline []
  unfold evaluateSteppedWithin
  rw [Walk.followStepped_eq]
  exact hlive

/-- **Evaluation goes by the outline of a tree.** Trees of the same outline give the same integer,
or fail on errors of the same class, and their steps look the same, each traced or not. That is so
directly and with notes, step by step wherever it is called off, and if what is noted on the blocks
meanwhile can be seen. Rules of the catalogue's own, of which the standard one has none, have to go
by outlines too. -/
theorem evaluation_goes_by_outline (h : b.outline = b'.outline) {c : Catalog}
    (hown : c.Ignores SameOutline) (levels : Nat) (ceiling : Int) (on on' : Bool)
    (inputs : List Int) :
    let options : EvalOptions := { trace := on, ceiling }
    let options' : EvalOptions := { trace := on', ceiling }
    (∀ halt : Option (Nat × String),
      let run := b.evaluateSteppedWithin levels c options halt inputs
      let run' := b'.evaluateSteppedWithin levels c options' halt inputs
      run.outcome.mapError Fault.sort = run'.outcome.mapError Fault.sort ∧
        run.steps.map (Step.seen []) = run'.steps.map (Step.seen [])) ∧
    (let run := b.evaluateWithin levels c options inputs
      let run' := b'.evaluateWithin levels c options' inputs
      run.outcome.mapError Fault.sort = run'.outcome.mapError Fault.sort ∧
        run.steps = run'.steps) ∧
    (b.evaluateNotedWithin levels c options inputs).outcome.mapError Fault.sort =
      (b'.evaluateNotedWithin levels c options' inputs).outcome.mapError Fault.sort ∧
    (c.Prompt →
      let live := b.evaluateLiveWithin levels c options inputs
      let run' := b'.evaluateSteppedWithin levels c options' none inputs
      live.outcome.mapError Fault.sort = run'.outcome.mapError Fault.sort ∧
        live.steps.map (Step.seen []) = run'.steps.map (Step.seen [])) := by
  intro options options'
  have hceiling : options.ceiling = options'.ceiling := rfl
  have hdirect := evaluateWithin_like hown h levels hceiling inputs
  exact ⟨fun halt => evaluateSteppedWithin_like hown h levels hceiling halt inputs, hdirect,
    noted_like hdirect.1, fun hc => evaluateLiveWithin_like hown hc h levels hceiling inputs⟩

/-- A sum under other names, flagged, numbered and noted at random, with other rules of slots, is
still a sum. -/
theorem evaluation_goes_by_outline_disguised :
    let disguise (h : Head) : Head :=
      { h with
        id := "x", serial := 7, name := some "nothing", inputCount := -3, depth := 40,
        params := h.params.map fun p => { p with minimum := 99 },
        collapsed := true, immutable := true, breakpoint := true, problems := [.missing "f"],
        lastInput := some [5, 5, 5], lastOutput := some 0 }
    let disguised : Block :=
      ⟨(plus.mapHeads disguise).head, (plus.mapHeads disguise).slots.map fun s =>
        { s with shape := { name := s.shape.name, descriptor := 12, exact := some 9 } }⟩
    let run := disguised.evaluateSteppedWithin 325 .standard { trace := true } none [2, 1]
    let live := disguised.evaluateLiveWithin 325 .standard { trace := true } [2, 1]
    let run' := plus.evaluateSteppedWithin 325 .standard {} none [2, 1]
    disguised.outline = plus.outline ∧ run'.outcome = .ok 3 ∧
      run.outcome.mapError Fault.sort = .ok 3 ∧ live.outcome.mapError Fault.sort = .ok 3 ∧
      run.steps.map (Step.seen []) = run'.steps.map (Step.seen []) ∧
      live.steps.map (Step.seen []) = run'.steps.map (Step.seen []) := by
  intro disguise disguised run live run'
  have houtline : disguised.outline = plus.outline := rfl
  have hvalue : run'.outcome = .ok 3 := rfl
  obtain ⟨hrun, -, -, hlive⟩ :=
    evaluation_goes_by_outline houtline (Catalog.ignores_standard _) 325 100 true false [2, 1]
  have hlive := hlive Catalog.prompt_standard
  refine ⟨houtline, hvalue, (hrun none).1.trans ?_, hlive.1.trans ?_, (hrun none).2, hlive.2⟩ <;>
    exact congrArg (Except.mapError Fault.sort) hvalue

end Block

end BlockCalculus
