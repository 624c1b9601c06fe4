import BlockCalculus.Proofs.Walk

/-!
# Stepped and direct evaluation

Direct and stepped evaluation follow the same walk. Stepped evaluation shows its steps, and can be
called off after any of them; direct evaluation shows only how many there were, and refuses to wait.

* `Walk.follow_eq`: a walk that is not refused comes out the same both ways.
* `Walk.followStepped_halt`: a walk that is called off takes the first steps of the whole walk.
* `steps_walk_of_ending`: the last step of a walk that ends with a value is where it began.
* `evaluateStepped_refines_evaluate`: the three together, for evaluations of a tree.
-/

namespace BlockCalculus

namespace Walk

variable {c : Catalog}

/-- Followed directly, a walk is refused because it waits, or gives its steps and its ending. -/
theorem follow_cases (w : Walk Int) (on : Bool) (t : Block) (count : Nat) :
    (w.follow c on t count).outcome = .error .suspended ∨
      w.follow c on t count =
        ⟨traced on (w.steps c) t, count + (w.steps c).length,
          (w.ending c).mapError Failure.fault⟩ := by
  induction w generalizing t count with
  | done n => exact .inr rfl
  | fail e => exact .inr rfl
  | step s rest ih =>
    refine (ih () (trace on s t) (count + 1)).imp id fun h => ?_
    rw [follow, h, steps, List.length_cons]
    refine congrArg (Evaluated.mk _ · _) ?_
    omega
  | wait rest _ => exact .inl rfl
  | look site go ih => exact ih site.block t count
  | consult kind go ih => exact ih (c.lookup? kind) t count

/-- Followed directly and not refused, a walk gives what it gives step by step. -/
theorem follow_eq {w : Walk Int} {on : Bool} {t : Block}
    (h : (w.follow c on t 0).outcome ≠ .error .suspended) :
    w.follow c on t 0 =
      ⟨(w.followStepped c on none t []).tree, (w.followStepped c on none t []).steps.length,
        (w.followStepped c on none t []).outcome⟩ := by
  rw [(follow_cases w on t 0).resolve_left h, followStepped_eq]
  simp

/-- Called off after its `k`-th step, of which some may have been taken before, a walk has taken
the steps up to there; if there are fewer, it comes to its ending. -/
theorem followStepped_halt (w : Walk Int) (on : Bool) (k : Nat) (message : String) (t : Block)
    (taken : List Step) (hk : taken.length < k) :
    w.followStepped c on (some (k, message)) t taken =
      ⟨traced on ((w.steps c).take (k - taken.length)) t,
        taken.reverse ++ (w.steps c).take (k - taken.length),
        if k ≤ taken.length + (w.steps c).length then .error (.halted message)
        else (w.ending c).mapError Failure.fault⟩ := by
  induction w generalizing t taken with
  | done n =>
    rw [if_neg (by simpa [steps] using hk)]
    simp [followStepped, steps, traced, ending]
    rfl
  | fail e =>
    rw [if_neg (by simpa [steps] using hk)]
    simp [followStepped, steps, traced, ending]
    rfl
  | step s rest ih =>
    rw [followStepped]
    by_cases hlast : taken.length + 1 = k
    · have hone : k - taken.length = 1 := by omega
      rw [if_pos hlast, hone, if_pos (by rw [steps, List.length_cons]; omega)]
      simp [steps, traced]
    · -- One more step is taken now, and one fewer is left to take.
      have htake : k - taken.length = (k - (s :: taken).length) + 1 := by
        rw [List.length_cons]
        omega
      have hlen : (s :: taken).length + ((rest ()).steps c).length =
          taken.length + ((step s rest).steps c).length := by
        rw [steps, List.length_cons, List.length_cons]
        omega
      rw [if_neg hlast, ih () _ _ (by rw [List.length_cons]; omega), hlen, htake]
      simp [steps, ending, traced]
  | wait rest ih => exact ih () t taken hk
  | look site go ih => exact ih site.block t taken hk
  | consult kind go ih => exact ih (c.lookup? kind) t taken hk

end Walk

section Levels

variable {c : Catalog} {ceiling : Int} {levels : Nat} {site : Site} {inputs : List Int}

/-- A block takes the steps of the rule of its entry, and one of its own if the rule gave a
value. -/
theorem steps_walk_of_lookup? {entry : Entry} (h : c.lookup? site.block.head.kind = some entry) :
    (walk ceiling (levels + 1) site inputs).steps c =
      (entry.rule.apply ceiling (walk ceiling levels) site inputs).steps c ++
        match (entry.rule.apply ceiling (walk ceiling levels) site inputs).ending c with
        | .ok r => [⟨site, inputs, r⟩]
        | .error _ => [] := by
  simp only [walk, Walk.steps, h, Walk.steps_bind]
  cases (entry.rule.apply ceiling (walk ceiling levels) site inputs).ending c <;> rfl

/-- The last step of an evaluation that gives a value is that of the block evaluated, and has that
value. -/
theorem steps_walk_of_ending {n : Int} (h : (walk ceiling levels site inputs).ending c = .ok n) :
    ∃ earlier, (walk ceiling levels site inputs).steps c = earlier ++ [⟨site, inputs, n⟩] := by
  cases levels with
  | zero => cases h
  | succ levels =>
    cases hentry : c.lookup? site.block.head.kind with
    | none =>
      simp only [walk, Walk.ending, hentry] at h
      cases h
    | some entry =>
      rw [ending_walk_of_lookup? hentry] at h
      rw [steps_walk_of_lookup? hentry, h]
      exact ⟨_, rfl⟩

end Levels

namespace Block

/-- Notes leave the tree as the evaluation does, if it can be noted. -/
theorem tree_noted_of_notable {tree : Block} {inputs : List Int} {evaluation : Unit → Evaluated}
    (h : Notable inputs (evaluation ()).outcome) :
    (tree.noted inputs evaluation).tree = (evaluation ()).tree := by
  unfold noted
  rw [if_pos (List.all_eq_true.mpr h.1)]
  dsimp only
  cases hr : (evaluation ()).outcome with
  | error f => rfl
  | ok n => dsimp only; rw [if_pos (h.2 n hr)]

/-- Direct evaluation is not refused if no rule of the catalogue waits. -/
theorem evaluateWithin_ne_suspended {c : Catalog} (hc : c.Prompt) (levels : Nat)
    (options : EvalOptions) (tree : Block) (inputs : List Int) :
    (tree.evaluateWithin levels c options inputs).outcome ≠ .error .suspended := by
  rw [evaluateWithin_outcome hc]
  cases (tree.walkWithin levels options inputs).ending c with
  | ok n => exact nofun
  | error failure => exact fun h => failure.fault_ne_suspended (Except.error.inj h)

/-- **Stepped evaluation refines direct evaluation, and calling it off cuts it short.** Unless
direct evaluation is refused for waiting, which no catalogue without waiting rules brings about,
both ways leave the same tree and come out the same, with notes too if inputs and value can be
written. If a value comes out, the last step is that of the root with this value. Called off at the
`k`-th step, an evaluation has taken the first `k` steps, or all if there are fewer: then it comes
out as if nobody had meant to call it off. -/
theorem evaluateStepped_refines_evaluate (levels : Nat) (c : Catalog) (options : EvalOptions)
    (tree : Block) (inputs : List Int) :
    let stepped := tree.evaluateSteppedWithin levels c options none inputs
    let direct := tree.evaluateWithin levels c options inputs
    let noted := tree.evaluateNotedWithin levels c options inputs
    (c.Prompt → direct.outcome ≠ .error .suspended) ∧
    (direct.outcome ≠ .error .suspended →
      direct = ⟨stepped.tree, stepped.steps.length, stepped.outcome⟩ ∧
        (Notable inputs stepped.outcome →
          noted.tree = stepped.tree ∧ noted.outcome = stepped.outcome)) ∧
    (∀ n, stepped.outcome = .ok n →
      ∃ earlier, stepped.steps = earlier ++ [⟨⟨[], tree.clearTrace⟩, inputs, n⟩]) ∧
    ∀ k message, 1 ≤ k →
      tree.evaluateSteppedWithin levels c options (some (k, message)) inputs =
        ⟨Walk.traced options.trace (stepped.steps.take k) tree, stepped.steps.take k,
          if k ≤ stepped.steps.length then .error (.halted message) else stepped.outcome⟩ := by
  intro stepped direct noted
  have hstepped : stepped = ⟨_, _, _⟩ := Walk.followStepped_eq _ _ _ _
  refine ⟨fun hc => evaluateWithin_ne_suspended hc _ _ _ _, fun hdirect => ?_, fun n hn => ?_,
    fun k message hk => ?_⟩
  · have heq : direct = ⟨stepped.tree, stepped.steps.length, stepped.outcome⟩ :=
      Walk.follow_eq hdirect
    refine ⟨heq, fun hn => ?_⟩
    have hnotable : Notable inputs direct.outcome := by
      rw [heq]
      exact hn
    exact ⟨(tree_noted_of_notable hnotable).trans (congrArg Evaluated.tree heq),
      (noted_of_notable hnotable).trans (congrArg Evaluated.outcome heq)⟩
  · rw [hstepped] at hn ⊢
    cases hend : (tree.walkWithin levels options inputs).ending c with
    | error e => rw [hend] at hn; cases hn
    | ok m =>
      rw [hend] at hn
      cases hn
      exact steps_walk_of_ending hend
  · rw [hstepped]
    have h := Walk.followStepped_halt (c := c) (tree.walkWithin levels options inputs)
      options.trace k message tree [] hk
    simp only [List.length_nil, Nat.zero_add, Nat.sub_zero, List.reverse_nil, List.nil_append] at h
    exact h

/-- Two and one make three in six steps. Called off at the third step, the evaluation has taken
three; called off at the seventh, it comes to its end. -/
theorem evaluateStepped_refines_evaluate_plus :
    let options : EvalOptions := { trace := true }
    let run (halt : Option (Nat × String)) :=
      plus.evaluateSteppedWithin evaluationLimit .standard options halt [2, 1]
    let stepped := run none
    let halted (k : Nat) := run (some (k, "Stop"))
    stepped.outcome = .ok 3 ∧ stepped.steps.length = 6 ∧
      (plus.evaluate .standard options [2, 1]).tree = stepped.tree ∧
      (plus.evaluateNoted .standard options [2, 1]).outcome = .ok 3 ∧
      (∃ earlier, stepped.steps = earlier ++ [⟨⟨[], plus.clearTrace⟩, [2, 1], 3⟩]) ∧
      (halted 3).steps = stepped.steps.take 3 ∧ (halted 3).outcome = .error (.halted "Stop") ∧
      (halted 7).steps = stepped.steps.take 7 ∧ (halted 7).outcome = .ok 3 := by
  intro options run stepped halted
  have hvalue : stepped.outcome = .ok 3 := rfl
  have hlen : stepped.steps.length = 6 := rfl
  have hnotable : Notable [2, 1] stepped.outcome := by
    rw [hvalue]
    exact ⟨by decide +kernel, fun n hn => by cases hn; decide +kernel⟩
  obtain ⟨hprompt, hdirect, hlast, hhalt⟩ := evaluateStepped_refines_evaluate evaluationLimit
    .standard options plus [2, 1]
  obtain ⟨heq, hnoted⟩ := hdirect (hprompt Catalog.prompt_standard)
  have hthree : halted 3 = ⟨_, stepped.steps.take 3, .error (.halted "Stop")⟩ :=
    (hhalt 3 "Stop" (by decide)).trans (congrArg _ (if_pos (hlen ▸ by decide)))
  have hseven : halted 7 = ⟨_, stepped.steps.take 7, stepped.outcome⟩ :=
    (hhalt 7 "Stop" (by decide)).trans (congrArg _ (if_neg (hlen ▸ by decide)))
  exact ⟨hvalue, hlen, congrArg Evaluated.tree heq, (hnoted hnotable).2.trans hvalue,
    hlast 3 hvalue, congrArg Walk.Stepped.steps hthree, congrArg Walk.Stepped.outcome hthree,
    congrArg Walk.Stepped.steps hseven, (congrArg Walk.Stepped.outcome hseven).trans hvalue⟩

/-- A rule that waits tells the two ways apart: direct evaluation refuses what stepped evaluation
brings to an end. -/
theorem evaluate_refuses_to_wait :
    let slow : Rule := .own fun _ _ => .wait fun _ => .give 7
    let c : Catalog := { entries := [{ Catalog.zero with rule := slow }] }
    let tree : Block := ⟨{ kind := .zero, id := "slow" }, []⟩
    (tree.evaluateStepped c {} none []).outcome = .ok 7 ∧
      (tree.evaluate c {} []).outcome = .error .suspended ∧
      (tree.evaluateNoted c {} []).outcome = .error .suspended :=
  ⟨rfl, rfl, rfl⟩

end Block

end BlockCalculus
