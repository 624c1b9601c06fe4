import BlockCalculus.Proofs.Matching
import BlockCalculus.Proofs.Walk

/-!
# Bounds of an evaluation

Two bounds are put on an evaluation: how many blocks may be under evaluation at once, and how many
candidates a search may try. An evaluation that does not run into one of them does not depend on
them: with wider bounds it takes the same steps and ends in the same way.

Which failures count as running into a bound is a parameter of `walk_bounds`, which says so of
walks. If a search that is exhausted does not count as such, the ceiling has to stay the same.
`Block.wider_bounds_change_nothing` says it of evaluations of a tree, whichever way it is evaluated.
There is one exception: the error of an exhausted search tells its ceiling, so a ceiling that is too
long to be written makes it fail in another way.
-/

namespace BlockCalculus

attribute [ext] Evaluated Walk.Stepped

/-- Failures and steps are seen as they are, and only running into a bound is excused. -/
def Regard.unlessBound (IsBound : Failure → Prop) : Regard Failure Step :=
  ⟨IsBound, id, id, id⟩

section Walks

variable {c : Catalog} {IsBound : Failure → Prop}

theorem Comparison.pairs_unlessBound : (matching c Eq (.unlessBound IsBound)).Pairs :=
  pairs_eq fun _ => .fail rfl

theorem eq_of_mapError_id {ε α : Type} {r r' : Except ε α} (h : r.mapError id = r'.mapError id) :
    r = r' := by
  have hid (r : Except ε α) : r.mapError id = r := by cases r <;> rfl
  rw [← hid r, h, hid]

/-- The first walk runs into a bound, or the second one takes the same steps and ends in the same
way. -/
theorem Walk.Matches.eq_unlessBound {α : Type} {w w' : Walk α}
    (h : w.Matches c Eq (.unlessBound IsBound) w') :
    (∃ e, w.ending c = .error e ∧ IsBound e) ∨
      w.ending c = w'.ending c ∧ w.steps c = w'.steps c := by
  refine h.ending_steps.imp id fun ⟨hend, hsteps⟩ => ⟨?_, ?_⟩
  · exact eq_of_mapError_id hend
  · exact (List.map_id _).symm.trans (hsteps.trans (List.map_id _))

/-- Steps that are the same leave the same trees. -/
theorem Walk.trace_congr {on : Bool} {s s' : Step} {t t' : Block}
    (hs : (Regard.unlessBound IsBound).first s = (Regard.unlessBound IsBound).second s')
    (ht : t = t') : trace on s t = trace on s' t' := by
  obtain rfl : s = s' := hs
  rw [ht]

/-- Followed directly, the first walk runs into a bound, or the second one leaves the same. -/
theorem Walk.Matches.follow_unlessBound {w w' : Walk Int}
    (h : w.Matches c Eq (.unlessBound IsBound) w') (on : Bool) (t : Block) (count : Nat) :
    (Regard.unlessBound IsBound).Excused (w.follow c on t count).outcome ∨
      w'.follow c on t count = w.follow c on t count := by
  refine (h.follow trace_congr (congrArg (id ∘ Failure.fault)) (rfl : t = t) count).imp id
    fun ⟨htree, hsteps, hout⟩ => ?_
  exact Evaluated.ext htree.symm hsteps.symm (eq_of_mapError_id hout.symm)

/-- Followed step by step, the first walk runs into a bound, or the second one leaves the same. -/
theorem Walk.Matches.followStepped_unlessBound {w w' : Walk Int}
    (h : w.Matches c Eq (.unlessBound IsBound) w') (on : Bool) (halt : Option (Nat × String))
    (t : Block) :
    (Regard.unlessBound IsBound).Excused (w.followStepped c on halt t []).outcome ∨
      w'.followStepped c on halt t [] = w.followStepped c on halt t [] := by
  refine (h.followStepped trace_congr (congrArg (id ∘ Failure.fault)) halt (rfl : t = t) rfl).imp
    id fun ⟨htree, hsteps, hout⟩ => ?_
  have hsame : (w'.followStepped c on halt t []).steps = (w.followStepped c on halt t []).steps :=
    (List.map_id _).symm.trans (hsteps.symm.trans (List.map_id _))
  exact Stepped.ext htree.symm hsame (eq_of_mapError_id hout.symm)

/-- **Wider bounds change nothing unless a bound was met.** More levels are wider, and so are more
candidates if an exhausted search counts as meeting a bound. -/
theorem walk_bounds (c : Catalog) (IsBound : Failure → Prop)
    (hlevels : IsBound (.error .recursionLimit)) {ceiling ceiling' : Int}
    (hceiling : ceiling = ceiling' ∨
      ceiling ≤ ceiling' ∧ ∀ id, IsBound (.error (.nonConvergence ceiling id)))
    (levels extra : Nat) (site : Site) (inputs : List Int) :
    (walk ceiling levels site inputs).Matches c Eq (.unlessBound IsBound)
      (walk ceiling' (levels + extra) site inputs) := by
  refine walk_related extra Comparison.pairs_unlessBound ?_ ?_ ?_ levels site site inputs rfl
  · rintro site _ inputs r rfl
    exact .step rfl (.done r)
  · exact fun _ _ _ _ => .excused hlevels
  · intro levels
    obtain rfl | ⟨hle, hbound⟩ := hceiling
    · exact Rule.extends_self Comparison.pairs_unlessBound _ _
    · exact ⟨Int.toNat_le_toNat hle, fun _ _ _ _ _ => .glance fun _ => .excused (hbound _)⟩

end Walks

/-! ## Evaluations of a tree -/

namespace Block

variable {levels levels' : Nat} {options : EvalOptions} {ceiling' : Int}

/-- The walk that evaluates a tree within some bounds matches the one within wider bounds. -/
theorem walkWithin_bounds (hlevels : levels ≤ levels') (hceiling : options.ceiling ≤ ceiling')
    (c : Catalog) (tree : Block) (inputs : List Int) :
    (tree.walkWithin levels options inputs).Matches c Eq
      (.unlessBound (Failure.IsLimit options.ceiling))
      (tree.walkWithin levels' { options with ceiling := ceiling' } inputs) := by
  obtain ⟨extra, rfl⟩ := Nat.exists_eq_add_of_le hlevels
  exact walk_bounds c _ (.inl rfl) (.inr ⟨hceiling, fun id => .inr ⟨id, rfl⟩⟩) levels extra _ inputs

/-- Notes on an evaluation go by what is left of it. -/
theorem noted_congr {tree : Block} {inputs : List Int} {evaluation evaluation' : Unit → Evaluated}
    (h : (∀ x ∈ inputs, Text.isWritable x = true) → evaluation () = evaluation' ()) :
    tree.noted inputs evaluation = tree.noted inputs evaluation' := by
  unfold noted
  split
  · rename_i hin
    rw [h (List.all_eq_true.mp hin)]
  · rfl

/-- An evaluation that fails does so with notes, if the inputs can be written. -/
theorem noted_of_error {tree : Block} {inputs : List Int} {evaluation : Unit → Evaluated}
    (hin : ∀ x ∈ inputs, Text.isWritable x = true) {f : Fault}
    (h : (evaluation ()).outcome = .error f) :
    (tree.noted inputs evaluation).outcome = .error f := by
  have hnotable : Notable inputs (evaluation ()).outcome := by
    refine ⟨hin, fun n hn => ?_⟩
    rw [h] at hn
    cases hn
  exact (noted_of_notable hnotable).trans h

/-- **Evaluation is monotone in its bounds.** Let a tree be evaluated with at most `levels` blocks
under evaluation at once and searches below a ceiling, directly, with notes, or step by step, and
perhaps called off at some step. Unless that runs into one of the two bounds, it comes out the same
with more levels and a higher ceiling: the same steps, the same notes, the same value or the same
error, and the same tree in the end. A ceiling that is too long to be written makes an exception: it
may be that a search was exhausted and the error could not be put into words. -/
theorem wider_bounds_change_nothing (hlevels : levels ≤ levels')
    (hceiling : options.ceiling ≤ ceiling') (c : Catalog) (tree : Block) (inputs : List Int) :
    let wide : EvalOptions := { options with ceiling := ceiling' }
    let stepped := fun halt => tree.evaluateSteppedWithin levels c options halt inputs
    let direct := tree.evaluateWithin levels c options inputs
    let noted := tree.evaluateNotedWithin levels c options inputs
    (∀ halt, ¬ MeetsBound (stepped halt).outcome →
      ¬ LosesCeiling options.ceiling (stepped halt).outcome →
        tree.evaluateSteppedWithin levels' c wide halt inputs = stepped halt) ∧
      (¬ MeetsBound direct.outcome → ¬ LosesCeiling options.ceiling direct.outcome →
        tree.evaluateWithin levels' c wide inputs = direct) ∧
      (¬ MeetsBound noted.outcome → ¬ LosesCeiling options.ceiling noted.outcome →
        tree.evaluateNotedWithin levels' c wide inputs = noted) := by
  intro wide stepped direct noted
  have hmatch := walkWithin_bounds hlevels hceiling c tree inputs
  have hnot {outcome : Except Fault Int} (hmeets : ¬ MeetsBound outcome)
      (hloses : ¬ LosesCeiling options.ceiling outcome) :
      ¬ (Regard.unlessBound (Failure.IsLimit options.ceiling)).Excused outcome := by
    rintro ⟨failure, rfl, hbound⟩
    exact hbound.outcome.elim hmeets hloses
  have hdirect (hmeets : ¬ MeetsBound direct.outcome)
      (hloses : ¬ LosesCeiling options.ceiling direct.outcome) :
      tree.evaluateWithin levels' c wide inputs = direct :=
    (hmatch.follow_unlessBound options.trace tree 0).resolve_left (hnot hmeets hloses)
  refine ⟨fun halt hmeets hloses => ?_, hdirect, fun hmeets hloses => noted_congr fun hin => ?_⟩
  · exact (hmatch.followStepped_unlessBound options.trace halt tree).resolve_left
      (hnot hmeets hloses)
  · refine hdirect (fun ⟨e, he, hcode⟩ => hmeets ⟨e, ?_, hcode⟩) fun ⟨hw, he⟩ => hloses ⟨hw, ?_⟩
    · exact noted_of_error hin he
    · exact noted_of_error hin he

/-- A search that needs two levels and one candidate gets along with just these. With less it runs
into a bound, one or the other; with more it comes out the same. Below a ceiling that is too long to
be written it is not said to be exhausted. -/
theorem wider_bounds_change_nothing_search :
    let index : Block := ⟨{ kind := .projection, id := "index", params := [⟨"i", 2, 1⟩] }, []⟩
    let search : Block :=
      ⟨{ kind := .minimization, id := "search" }, [⟨{ name := "f" }, some index⟩]⟩
    let options (ceiling : Int) : EvalOptions := { trace := true, ceiling }
    let stepped (levels : Nat) (ceiling : Int) :=
      search.evaluateSteppedWithin levels .standard (options ceiling) none [5]
    MeetsBound (stepped 1 100).outcome ∧ MeetsBound (stepped 325 0).outcome ∧
      (∃ n, Nat.pow 10 Text.digitLimit = n + 1 ∧
        LosesCeiling (.negSucc n) (stepped 325 (.negSucc n)).outcome) ∧
      (stepped 2 1).outcome = .ok 0 ∧ (stepped 2 1).steps.length = 2 ∧
      stepped 325 100 = stepped 2 1 ∧
      search.evaluateWithin 325 .standard (options 100) [5] =
        search.evaluateWithin 2 .standard (options 1) [5] ∧
      search.evaluateNotedWithin 325 .standard (options 100) [5] =
        search.evaluateNotedWithin 2 .standard (options 1) [5] := by
  intro index search options stepped
  have hvalue : (stepped 2 1).outcome = .ok 0 := rfl
  have hdirect : (search.evaluateWithin 2 .standard (options 1) [5]).outcome = .ok 0 := rfl
  have hnoted : (search.evaluateNotedWithin 2 .standard (options 1) [5]).outcome = .ok 0 := by
    refine (noted_of_notable ⟨by decide +kernel, fun n hn => ?_⟩).trans hdirect
    cases hdirect.symm.trans hn
    decide +kernel
  have hmeets {o : Except Fault Int} (ho : o = .ok 0) : ¬ MeetsBound o := by
    rintro ⟨e, he, -⟩
    rw [ho] at he
    cases he
  have hloses {o : Except Fault Int} (ho : o = .ok 0) : ¬ LosesCeiling 1 o := by
    rintro ⟨-, he⟩
    rw [ho] at he
    cases he
  have hlevels : 2 ≤ 325 := by decide
  have hceiling : (options 1).ceiling ≤ 100 := by decide
  obtain ⟨hsame, hsame', hsame''⟩ :=
    wider_bounds_change_nothing hlevels hceiling .standard search [5]
  have hzero : Text.isWritable 0 = true := by decide +kernel
  have hexhausted : (stepped 325 0).outcome =
      .error (Failure.error (.nonConvergence 0 "search")).fault := rfl
  obtain ⟨n, hn⟩ := Text.exists_pow_digitLimit
  have hlong : Text.isWritable (.negSucc n) = false := Text.isWritable_eq_false (Nat.le_of_eq hn)
  have hlost : (stepped 325 (.negSucc n)).outcome =
      .error (Failure.error (.nonConvergence (.negSucc n) "search")).fault := rfl
  rw [Failure.fault_of_isTellable (e := .nonConvergence 0 "search") hzero] at hexhausted
  rw [Failure.fault_of_not_isTellable (e := .nonConvergence (.negSucc n) "search")
    (Bool.eq_false_iff.mp hlong)] at hlost
  exact ⟨⟨_, rfl, .inr rfl⟩, ⟨_, hexhausted, .inl rfl⟩, ⟨n, hn, hlong, hlost⟩, hvalue, rfl,
    hsame none (hmeets hvalue) (hloses hvalue), hsame' (hmeets hdirect) (hloses hdirect),
    hsame'' (hmeets hnoted) (hloses hnoted)⟩

end Block

end BlockCalculus
