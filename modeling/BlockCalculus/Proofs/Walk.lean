import BlockCalculus.Evaluation.Journal
import BlockCalculus.Proofs.Script
import BlockCalculus.Proofs.Tree

/-!
# Walks along a tree

The walk that evaluates a tree keeps to the tree: wherever it looks, and wherever it takes a step,
it is at a block of the tree, and it waits only where a rule does. `Walk.Along` says so, and
`walk_along` proves it for every catalogue whose rules never wait.

So the two ways to evaluate a tree come down to the steps of the walk and its ending:

* `evaluateWithin_outcome`, `evaluateStepped_eq`: what direct and stepped evaluation give.
* `noted_of_notable`, `noted_of_not_notable`: an evaluation with notes gives the same, unless an
  input or the value is too long to be written.
* `ending_walk_succ`, `ending_inSlot`: how a walk through the standard catalogue ends, by the rule
  of the kind and by what is in the slots.
-/

namespace BlockCalculus

namespace Walk

variable {α β : Type} {c : Catalog} {tree : Block}

/-- The walk never waits, and it looks and takes steps only at blocks of the tree, where these
are. -/
def Along (c : Catalog) (tree : Block) : Walk α → Prop
  | done _ => True
  | fail _ => True
  | step s rest => tree.at? s.position = some s.block ∧ Along c tree (rest ())
  | wait _ => False
  | look site next => tree.at? site.position = some site.block ∧ Along c tree (next site.block)
  | consult kind next => Along c tree (next (c.lookup? kind))

theorem Along.bind {w : Walk α} {next : α → Walk β} (hw : w.Along c tree)
    (hnext : ∀ a, w.ending c = .ok a → (next a).Along c tree) : (w.bind next).Along c tree := by
  induction w with
  | done a => exact hnext a rfl
  | fail e => trivial
  | step s rest ih => exact ⟨hw.1, ih () hw.2 hnext⟩
  | wait rest _ => exact hw.elim
  | look site go ih => exact ⟨hw.1, ih site.block hw.2 hnext⟩
  | consult kind go ih => exact ih (c.lookup? kind) hw hnext

/-! ## Following a walk -/

/-- Followed directly, a walk along a tree gives its ending. -/
theorem Along.follow_outcome {w : Walk Int} (hw : w.Along c tree) (on : Bool) (t : Block)
    (count : Nat) : (w.follow c on t count).outcome = (w.ending c).mapError Failure.fault := by
  induction w generalizing t count with
  | done n => rfl
  | fail e => rfl
  | step s rest ih => exact ih () hw.2 _ _
  | wait rest _ => exact hw.elim
  | look site go ih => exact ih site.block hw.2 _ _
  | consult kind go ih => exact ih (c.lookup? kind) hw _ _

/-- The tree after steps were taken on it. -/
def traced (on : Bool) (steps : List Step) (t : Block) : Block :=
  steps.foldl (fun t s => trace on s t) t

@[simp] theorem clearTrace_trace (on : Bool) (s : Step) (t : Block) :
    (trace on s t).clearTrace = t.clearTrace := by
  cases on with
  | false => rfl
  | true => exact Block.clearTrace_record s t

theorem clearTrace_traced (on : Bool) (steps : List Step) (t : Block) :
    (traced on steps t).clearTrace = t.clearTrace := by
  induction steps generalizing t with
  | nil => rfl
  | cons s rest ih => exact (ih _).trans (clearTrace_trace on s t)

/-- Followed step by step, and not called off, a walk gives its steps and its ending. -/
theorem followStepped_eq (w : Walk Int) (on : Bool) (t : Block) (taken : List Step) :
    w.followStepped c on none t taken =
      ⟨traced on (w.steps c) t, taken.reverse ++ w.steps c,
        (w.ending c).mapError Failure.fault⟩ := by
  induction w generalizing t taken with
  | done n => rw [steps, List.append_nil]; rfl
  | fail e => rw [steps, List.append_nil]; rfl
  | step s rest ih =>
    simp only [followStepped, steps, ending, ih]
    simp [traced]
  | wait rest ih => exact ih () t taken
  | look site go ih => exact ih site.block t taken
  | consult kind go ih => exact ih (c.lookup? kind) t taken

end Walk

/-! ## The rules keep to the tree -/

section Along

variable {c : Catalog} {tree : Block} {eval : Evaluator} {site : Site}

/-- Wherever the evaluator starts in the tree, its walk is along the tree. -/
def Evaluator.Along (c : Catalog) (tree : Block) (eval : Evaluator) : Prop :=
  ∀ site inputs, tree.at? site.position = some site.block → (eval site inputs).Along c tree

namespace Rule

theorem ending_occupant (c : Catalog) (site : Site) (slot : String) :
    (occupant site slot).ending c =
      match Slot.seek? slot site.block.slots with
      | some (i, d) => .ok ⟨site.position ++ [i], d⟩
      | none => .error (.error (.missingSlot site.block.head.kind slot site.block.head.id)) := by
  simp only [occupant, Walk.ending]
  cases Slot.seek? slot site.block.slots <;> rfl

theorem occupant_along (hs : tree.at? site.position = some site.block) (slot : String) :
    (occupant site slot).Along c tree := by
  refine ⟨hs, ?_⟩
  dsimp only
  split <;> trivial

/-- What an occupied slot holds is a block of the tree. -/
theorem at?_of_ending_occupant (hs : tree.at? site.position = some site.block) {slot : String}
    {found : Site} (h : (occupant site slot).ending c = .ok found) :
    tree.at? found.position = some found.block := by
  rw [ending_occupant] at h
  split at h
  · rename_i i d hseek
    cases h
    exact Block.at?_of_seek? hs hseek
  · cases h

theorem inSlot_along (hev : eval.Along c tree) (hs : tree.at? site.position = some site.block)
    (slot : String) (inputs : List Int) : (inSlot eval site slot inputs).Along c tree :=
  (occupant_along hs slot).bind fun _ h => hev _ _ (at?_of_ending_occupant hs h)

theorem parameter_along (b : Block) (name : String) : (parameter b name).Along c tree := by
  unfold parameter
  split <;> trivial

theorem parts_along (hev : eval.Along c tree) (hs : tree.at? site.position = some site.block)
    (inputs : List Int) (count first : Nat) :
    (parts eval site inputs count first).Along c tree := by
  induction count generalizing first with
  | zero => trivial
  | succ count ih =>
    refine (inSlot_along hev hs _ inputs).bind fun y _ => ?_
    exact (ih (first + 1)).bind fun ys _ => trivial

theorem search_along (hev : eval.Along c tree) {f : Site}
    (hf : tree.at? f.position = some f.block) {exhausted : Walk Int}
    (hex : exhausted.Along c tree) (inputs : List Int) (count first : Nat) :
    (search eval f inputs exhausted count first).Along c tree := by
  induction count generalizing first with
  | zero => exact hex
  | succ count ih =>
    refine (hev f _ hf).bind fun y _ => ?_
    split
    · trivial
    · exact ih (first + 1)

theorem perform_along (hev : eval.Along c tree) (hs : tree.at? site.position = some site.block)
    {script : Script} (hscript : script.Uses (· ≠ .wait) fun _ => True) :
    (perform eval site script).Along c tree := by
  induction script with
  | give n => trivial
  | fail e => trivial
  | wait rest _ => exact absurd rfl hscript.1
  | look next ih => exact ⟨hs, ih _ (hscript _)⟩
  | evaluate slot inputs next ih =>
    cases slot with
    | none => exact (hev site inputs hs).bind fun n _ => ih n (hscript.2 n trivial)
    | some slot =>
      exact (inSlot_along hev hs slot inputs).bind fun n _ => ih n (hscript.2 n trivial)

/-- A rule that does not wait keeps to the tree, if the evaluator does. -/
theorem apply_along {rule : Rule} (hr : rule.Uses (· ≠ .wait) fun _ => True)
    (hev : eval.Along c tree) (hs : tree.at? site.position = some site.block) (ceiling : Int)
    (inputs : List Int) :
    (rule.apply ceiling eval site inputs).Along c tree := by
  match rule with
  | .ofKind .zero => trivial
  | .ofKind .successor =>
    show (successor site.block inputs).Along c tree
    unfold successor
    split <;> trivial
  | .ofKind .projection =>
    show (projection site.block inputs).Along c tree
    unfold projection
    split
    · trivial
    · refine (parameter_along _ _).bind fun i _ => ?_
      split <;> trivial
  | .ofKind .composition =>
    refine (parameter_along _ _).bind fun m _ => ?_
    refine (parts_along hev hs inputs _ _).bind fun ys _ => ?_
    exact inSlot_along hev hs "f" ys
  | .ofKind .primitiveRecursion =>
    show (primitiveRecursion eval site inputs).Along c tree
    unfold primitiveRecursion
    split
    · trivial
    · split
      · exact inSlot_along hev hs _ _
      · exact (hev site _ hs).bind fun z _ => inSlot_along hev hs _ _
  | .ofKind .minimization =>
    refine (occupant_along hs "f").bind fun f hf => ?_
    have hex : Walk.Along c tree
        (.look site fun b => .fail (.error (.nonConvergence ceiling b.head.id)) : Walk Int) :=
      ⟨hs, trivial⟩
    exact search_along hev (at?_of_ending_occupant hs hf) hex inputs _ _
  | .ofKind .custom =>
    show (custom eval site inputs).Along c tree
    unfold custom
    split
    · rename_i i d hseek
      exact hev _ _ (Block.at?_of_seek? hs hseek)
    · trivial
  | .own script => exact perform_along hev hs (hr _ inputs fun _ _ => trivial)

end Rule

/-- **Evaluation keeps to the tree**, from whichever block it starts. -/
theorem walk_along (hc : c.Prompt) (tree : Block) (ceiling : Int) (levels : Nat) :
    (walk ceiling levels).Along c tree := by
  induction levels with
  | zero => exact fun _ _ _ => trivial
  | succ levels ih =>
    intro site inputs hs
    unfold walk
    refine ⟨hs, ?_⟩
    dsimp only [Walk.Along]
    split
    · trivial
    · rename_i entry hentry
      refine (Rule.apply_along (hc _ entry hentry) ih hs ceiling inputs).bind fun r _ => ?_
      exact ⟨hs, trivial⟩

end Along

/-! ## How rules end -/

theorem Rule.ending_inSlot (c : Catalog) (eval : Evaluator) (site : Site) (slot : String)
    (inputs : List Int) :
    (inSlot eval site slot inputs).ending c =
      match Slot.seek? slot site.block.slots with
      | some (i, d) => (eval ⟨site.position ++ [i], d⟩ inputs).ending c
      | none => .error (.error (.missingSlot site.block.head.kind slot site.block.head.id)) := by
  rw [inSlot, Walk.ending_bind, ending_occupant]
  cases Slot.seek? slot site.block.slots <;> rfl

/-- A block ends as the rule of its entry does; the step that it reports makes no difference. -/
theorem ending_walk_of_lookup? {c : Catalog} {site : Site} {entry : Entry}
    (h : c.lookup? site.block.head.kind = some entry) (ceiling : Int) (levels : Nat)
    (inputs : List Int) :
    (walk ceiling (levels + 1) site inputs).ending c =
      (entry.rule.apply ceiling (walk ceiling levels) site inputs).ending c := by
  simp only [walk, Walk.ending, h, Walk.ending_bind]
  split
  · rename_i r h
    exact h.symm
  · rename_i e h
    exact h.symm

/-- In the standard catalogue, a block ends as the rule of its kind does. -/
theorem ending_walk_succ (ceiling : Int) (levels : Nat) (site : Site) (inputs : List Int) :
    (walk ceiling (levels + 1) site inputs).ending .standard =
      (Rule.apply ceiling (.ofKind site.block.head.kind) (walk ceiling levels) site
        inputs).ending .standard := by
  rw [ending_walk_of_lookup? (Catalog.lookup?_standard _), Catalog.rule_entryOf]

/-! ## Limits of an evaluation -/

/-- The error says that a limit was reached: a search found nothing among its candidates, or too
many blocks were under evaluation at once. -/
def EvalError.IsLimit (e : EvalError) : Prop :=
  e.code = .nonConvergence ∨ e.code = .recursionLimit

/-- The failures of an evaluation that reached a limit, if its searches go up to a ceiling. -/
def Failure.IsLimit (ceiling : Int) (failure : Failure) : Prop :=
  failure = .error .recursionLimit ∨ ∃ id, failure = .error (.nonConvergence ceiling id)

/-- An evaluation ran into one of its bounds: too many blocks were under evaluation at once, or a
search was exhausted. -/
def MeetsBound (outcome : Except Fault Int) : Prop :=
  ∃ e, outcome = .error (.evaluation e) ∧ e.IsLimit

/-- An evaluation failed on a number that is too long to be written, and its ceiling is one. -/
def LosesCeiling (ceiling : Int) (outcome : Except Fault Int) : Prop :=
  Text.isWritable ceiling = false ∧ outcome = .error .unwritable

/-- At a limit, an evaluation says so, unless it cannot write its ceiling. -/
theorem Failure.IsLimit.outcome {ceiling : Int} {failure : Failure} (h : failure.IsLimit ceiling) :
    MeetsBound (.error failure.fault) ∨ LosesCeiling ceiling (.error failure.fault) := by
  obtain rfl | ⟨id, rfl⟩ := h
  · exact .inl ⟨.recursionLimit, rfl, .inr rfl⟩
  · cases hw : Text.isWritable ceiling with
    | true => exact .inl ⟨.nonConvergence ceiling id, congrArg _ (fault_of_isTellable hw), .inl rfl⟩
    | false =>
      refine .inr ⟨hw, congrArg _ (fault_of_not_isTellable ?_)⟩
      exact fun h => Bool.false_ne_true (hw.symm.trans h)

/-! ## Evaluating a tree -/

namespace Block

variable {c : Catalog}

/-- The walk that evaluates a tree keeps to the tree without its notes, however far it may
descend. -/
theorem walkWithin_along (hc : c.Prompt) (levels : Nat) (options : EvalOptions) (tree : Block)
    (inputs : List Int) : (tree.walkWithin levels options inputs).Along c tree.clearTrace :=
  walk_along hc _ _ _ _ _ (at?_nil _)

/-- The walk that evaluates a tree keeps to the tree without its notes. -/
theorem walk_along_clearTrace (hc : c.Prompt) (options : EvalOptions) (tree : Block)
    (inputs : List Int) : (tree.walk options inputs).Along c tree.clearTrace :=
  walkWithin_along hc _ options tree inputs

/-- Direct evaluation gives the ending of the walk, however far that may descend. -/
theorem evaluateWithin_outcome (hc : c.Prompt) (levels : Nat) (options : EvalOptions)
    (tree : Block) (inputs : List Int) :
    (tree.evaluateWithin levels c options inputs).outcome =
      ((tree.walkWithin levels options inputs).ending c).mapError Failure.fault :=
  (walkWithin_along hc levels options tree inputs).follow_outcome _ _ _

/-- Direct evaluation gives the ending of the walk. -/
theorem evaluate_outcome (hc : c.Prompt) (options : EvalOptions) (tree : Block)
    (inputs : List Int) :
    (tree.evaluate c options inputs).outcome =
      ((tree.walk options inputs).ending c).mapError Failure.fault :=
  evaluateWithin_outcome hc _ options tree inputs

/-- Stepped evaluation gives the steps of the walk and its ending. -/
theorem evaluateStepped_eq (c : Catalog) (options : EvalOptions) (tree : Block)
    (inputs : List Int) :
    tree.evaluateStepped c options none inputs =
      ⟨Walk.traced options.trace ((tree.walk options inputs).steps c) tree,
        (tree.walk options inputs).steps c,
        ((tree.walk options inputs).ending c).mapError Failure.fault⟩ :=
  Walk.followStepped_eq _ _ _ _

/-- The inputs of an evaluation, and its value if it has one, can be written. -/
def Notable (inputs : List Int) (outcome : Except Fault Int) : Prop :=
  (∀ x ∈ inputs, Text.isWritable x = true) ∧
    ∀ n, outcome = .ok n → Text.isWritable n = true

/-- Notes leave an evaluation as it is, if it can be noted. -/
theorem noted_of_notable {tree : Block} {inputs : List Int} {evaluation : Unit → Evaluated}
    (h : Notable inputs (evaluation ()).outcome) :
    (tree.noted inputs evaluation).outcome = (evaluation ()).outcome := by
  unfold noted
  rw [if_pos (List.all_eq_true.mpr h.1)]
  dsimp only
  cases hr : (evaluation ()).outcome with
  | error f => rfl
  | ok n => dsimp only; rw [if_pos (h.2 n hr)]

/-- An evaluation that cannot be noted is lost on its notes. -/
theorem noted_of_not_notable {tree : Block} {inputs : List Int} {evaluation : Unit → Evaluated}
    (h : ¬ Notable inputs (evaluation ()).outcome) :
    (tree.noted inputs evaluation).outcome = .error .unwritable := by
  unfold noted
  split
  · rename_i hin
    dsimp only
    cases hr : (evaluation ()).outcome with
    | error f =>
      refine absurd ⟨List.all_eq_true.mp hin, fun n hn => ?_⟩ h
      rw [hr] at hn
      cases hn
    | ok n =>
      dsimp only
      rw [if_neg]
      intro hn
      refine h ⟨List.all_eq_true.mp hin, fun m hm => ?_⟩
      rw [hr] at hm
      cases hm
      exact hn
  · rfl

/-- An evaluation with notes gives what the evaluation gives, if that can be noted. -/
theorem evaluateNoted_of_notable {options : EvalOptions} {tree : Block} {inputs : List Int}
    (h : Notable inputs (tree.evaluate c options inputs).outcome) :
    (tree.evaluateNoted c options inputs).outcome = (tree.evaluate c options inputs).outcome :=
  noted_of_notable h

/-- An evaluation that cannot be noted fails on its notes. -/
theorem evaluateNoted_of_not_notable {options : EvalOptions} {tree : Block} {inputs : List Int}
    (h : ¬ Notable inputs (tree.evaluate c options inputs).outcome) :
    (tree.evaluateNoted c options inputs).outcome = .error .unwritable :=
  noted_of_not_notable h

section Noted

variable {options : EvalOptions} {tree : Block} {inputs : List Int} {r : Int}

/-- With notes, what evaluation gives is lost if it cannot be written. -/
theorem evaluateNoted_of_evaluate_eq_ok
    (h : (tree.evaluate c options inputs).outcome = .ok r) :
    (Notable inputs (.ok r) → (tree.evaluateNoted c options inputs).outcome = .ok r) ∧
      (¬ Notable inputs (.ok r) →
        (tree.evaluateNoted c options inputs).outcome = .error .unwritable) := by
  constructor
  · intro hn
    rw [← h] at hn
    rw [evaluateNoted_of_notable hn, h]
  · intro hn
    rw [← h] at hn
    exact evaluateNoted_of_not_notable hn

theorem evaluate_eq_ok_of_evaluateNoted
    (h : (tree.evaluateNoted c options inputs).outcome = .ok r) :
    (tree.evaluate c options inputs).outcome = .ok r := by
  by_cases hn : Notable inputs (tree.evaluate c options inputs).outcome
  · rwa [evaluateNoted_of_notable hn] at h
  · rw [evaluateNoted_of_not_notable hn] at h
    cases h

/-- An evaluation that failed fails with notes too, on what it failed on or on its notes. -/
theorem evaluateNoted_of_evaluate_eq_error {f : Fault}
    (h : (tree.evaluate c options inputs).outcome = .error f) :
    ((∀ x ∈ inputs, Text.isWritable x = true) →
        (tree.evaluateNoted c options inputs).outcome = .error f) ∧
      (¬ (∀ x ∈ inputs, Text.isWritable x = true) →
        (tree.evaluateNoted c options inputs).outcome = .error .unwritable) := by
  have hiff : Notable inputs (tree.evaluate c options inputs).outcome ↔
      ∀ x ∈ inputs, Text.isWritable x = true := by
    rw [h]
    exact ⟨fun hn => hn.1, fun hin => ⟨hin, fun n hn => by cases hn⟩⟩
  exact ⟨fun hin => (evaluateNoted_of_notable (hiff.mpr hin)).trans h,
    fun hin => evaluateNoted_of_not_notable (mt hiff.mp hin)⟩

end Noted

end Block

end BlockCalculus
