import BlockCalculus.Proofs.Calls
import BlockCalculus.Proofs.Termination

/-!
# Natural inputs give natural values

Evaluation counts with integers, and recursion counts down. It stops at zero, so integers below zero
come up only if they were put in: on natural inputs every block is evaluated on natural inputs and
gives a natural value. Nothing is asked of the tree or of the catalogue, and it does not matter how
far an evaluation gets.

* `Walk.Natural`: the steps of a walk are natural, and so is what it ends with.
* `Rule.apply_natural`: a rule keeps to naturals if the evaluator that it is given does.
* `walk_natural`, `walkCalls_natural`: so evaluation keeps to them, in its steps and in its calls.
* `natural_inputs_give_natural_values`: the main result.
-/

namespace BlockCalculus

/-- No integer of the list is below zero. -/
def Naturals (xs : List Int) : Prop :=
  ∀ x ∈ xs, 0 ≤ x

theorem naturals_append {xs ys : List Int} : Naturals (xs ++ ys) ↔ Naturals xs ∧ Naturals ys :=
  List.forall_mem_append

theorem naturals_cons {x : Int} {xs : List Int} : Naturals (x :: xs) ↔ 0 ≤ x ∧ Naturals xs :=
  List.forall_mem_cons

theorem naturals_nil : Naturals [] :=
  List.forall_mem_nil _

/-- The block got natural inputs and gave a natural value. -/
def Step.Natural (s : Step) : Prop :=
  Naturals s.inputs ∧ 0 ≤ s.result

/-- Every step of the walk is natural, and a value that it ends with has the property `post`. -/
def Walk.Natural {α : Type} (c : Catalog) (post : α → Prop) (w : Walk α) : Prop :=
  (∀ s ∈ w.steps c, s.Natural) ∧ ∀ a, w.ending c = .ok a → post a

namespace Walk

variable {α β : Type} {c : Catalog} {P : α → Prop} {Q : β → Prop}

theorem natural_done {a : α} (h : P a) : (done a).Natural c P := by
  refine ⟨nofun, fun b hb => ?_⟩
  cases hb
  exact h

theorem natural_fail (e : Failure) : (fail e : Walk α).Natural c P :=
  ⟨nofun, nofun⟩

theorem Natural.bind {w : Walk α} {next : α → Walk β} (hw : w.Natural c P)
    (hnext : ∀ a, P a → (next a).Natural c Q) : (w.bind next).Natural c Q := by
  unfold Natural
  rw [steps_bind, ending_bind]
  cases hend : w.ending c with
  | error e => exact ⟨fun s hs => hw.1 s (by simpa using hs), nofun⟩
  | ok a =>
    have ha := hnext a (hw.2 a hend)
    exact ⟨fun s hs => (List.mem_append.mp hs).elim (hw.1 s) (ha.1 s), ha.2⟩

end Walk

/-- What is given is natural, and what is evaluated is evaluated on natural inputs. -/
def Script.Act.Natural : Script.Act → Prop
  | give n => 0 ≤ n
  | evaluate _ inputs => Naturals inputs
  | fail _ | wait => True

/-- On natural inputs, and as long as what they evaluate gives natural values, rules of the
catalogue's own keep to naturals. -/
def Catalog.KeepsNaturals (c : Catalog) : Prop :=
  c.Uses Script.Act.Natural (0 ≤ ·)

/-- On natural inputs, the evaluator takes natural steps and gives natural values. -/
def Evaluator.Natural (c : Catalog) (eval : Evaluator) : Prop :=
  ∀ (site : Site) (inputs : List Int), Naturals inputs → (eval site inputs).Natural c (0 ≤ ·)

/-! ## The rules keep to naturals -/

namespace Rule

variable {c : Catalog} {eval : Evaluator} {site : Site} {inputs : List Int}

theorem occupant_natural (c : Catalog) (site : Site) (slot : String) :
    (occupant site slot).Natural c fun _ => True := by
  unfold Walk.Natural occupant
  simp only [Walk.steps]
  split
  · exact ⟨fun _ hs => absurd hs List.not_mem_nil, fun _ _ => trivial⟩
  · exact ⟨fun _ hs => absurd hs List.not_mem_nil, fun _ _ => trivial⟩

theorem inSlot_natural (hev : eval.Natural c) (site : Site) (slot : String)
    (hin : Naturals inputs) : (inSlot eval site slot inputs).Natural c (0 ≤ ·) :=
  (occupant_natural c site slot).bind fun found _ => hev found inputs hin

theorem parameter_natural (c : Catalog) (b : Block) (name : String) :
    (parameter b name).Natural c fun _ => True := by
  unfold parameter
  split
  · exact Walk.natural_done trivial
  · exact Walk.natural_fail _

theorem successor_natural (b : Block) (hin : Naturals inputs) :
    (successor b inputs).Natural c (0 ≤ ·) := by
  unfold successor
  split
  · rename_i x
    have hx : 0 ≤ x := (naturals_cons.mp hin).1
    exact Walk.natural_done (by omega)
  · exact Walk.natural_fail _

theorem projection_natural (b : Block) (hin : Naturals inputs) :
    (projection b inputs).Natural c (0 ≤ ·) := by
  unfold projection
  split
  · exact Walk.natural_fail _
  · refine (parameter_natural c b "i").bind fun i _ => ?_
    split
    · rename_i x hx
      split at hx
      · exact Walk.natural_done (hin x (List.mem_of_getElem? hx))
      · cases hx
    · exact Walk.natural_fail _

theorem parts_natural (hev : eval.Natural c) (site : Site) (hin : Naturals inputs)
    (count first : Nat) : (parts eval site inputs count first).Natural c Naturals := by
  induction count generalizing first with
  | zero => exact Walk.natural_done naturals_nil
  | succ count ih =>
    refine (inSlot_natural hev site _ hin).bind fun y hy => ?_
    refine (ih (first + 1)).bind fun ys hys => ?_
    exact Walk.natural_done (naturals_cons.mpr ⟨hy, hys⟩)

theorem composition_natural (hev : eval.Natural c) (site : Site) (hin : Naturals inputs) :
    (composition eval site inputs).Natural c (0 ≤ ·) := by
  refine (parameter_natural c site.block "m").bind fun m _ => ?_
  exact (parts_natural hev site hin _ _).bind fun ys hys => inSlot_natural hev site "f" hys

/-- Recursion goes down by one from an integer above zero, so it does not get below zero. -/
theorem primitiveRecursion_natural (hev : eval.Natural c) (site : Site) (hin : Naturals inputs) :
    (primitiveRecursion eval site inputs).Natural c (0 ≤ ·) := by
  unfold primitiveRecursion
  split
  · exact Walk.natural_fail _
  · rename_i n hlast
    obtain ⟨others, rfl⟩ := List.getLast?_eq_some_iff.mp hlast
    have hothers : Naturals others := (naturals_append.mp hin).1
    rw [List.dropLast_concat]
    dsimp only
    split
    · exact inSlot_natural hev site _ hothers
    · rename_i hn
      have hpred : 0 ≤ n - 1 := by omega
      have hsame : Naturals (others ++ [n - 1]) :=
        naturals_append.mpr ⟨hothers, naturals_cons.mpr ⟨hpred, naturals_nil⟩⟩
      refine (hev site _ hsame).bind fun z hz => inSlot_natural hev site _ ?_
      refine naturals_append.mpr ⟨hothers, naturals_cons.mpr ⟨hpred, ?_⟩⟩
      exact naturals_cons.mpr ⟨hz, naturals_nil⟩

/-- Candidates are natural, and so is the one at which a search ends. -/
theorem search_natural (hev : eval.Natural c) (f : Site) (hin : Naturals inputs)
    {exhausted : Walk Int} (hex : exhausted.Natural c (0 ≤ ·)) (count first : Nat) :
    (search eval f inputs exhausted count first).Natural c (0 ≤ ·) := by
  induction count generalizing first with
  | zero => exact hex
  | succ count ih =>
    have hcandidate : Naturals (inputs ++ [(first : Int)]) :=
      naturals_append.mpr ⟨hin, naturals_cons.mpr ⟨Int.natCast_nonneg first, naturals_nil⟩⟩
    refine (hev f _ hcandidate).bind fun y _ => ?_
    split
    · exact Walk.natural_done (Int.natCast_nonneg first)
    · exact ih (first + 1)

theorem minimization_natural (hev : eval.Natural c) (ceiling : Int) (site : Site)
    (hin : Naturals inputs) : (minimization ceiling eval site inputs).Natural c (0 ≤ ·) := by
  refine (occupant_natural c site "f").bind fun f _ => search_natural hev f hin ?_ _ _
  exact ⟨nofun, nofun⟩

theorem custom_natural (hev : eval.Natural c) (site : Site) (hin : Naturals inputs) :
    (custom eval site inputs).Natural c (0 ≤ ·) := by
  unfold custom
  split
  · exact hev _ inputs hin
  · exact Walk.natural_fail _

theorem perform_natural (hev : eval.Natural c) (site : Site) {script : Script}
    (hscript : script.Uses Script.Act.Natural (0 ≤ ·)) :
    (perform eval site script).Natural c (0 ≤ ·) := by
  induction script with
  | give n => exact Walk.natural_done hscript
  | fail e => exact Walk.natural_fail e
  | wait rest ih => exact ih () hscript.2
  | look next ih => exact ih _ (hscript site.block.clearTrace)
  | evaluate slot inputs next ih =>
    cases slot with
    | none => exact (hev site inputs hscript.1).bind fun n hn => ih n (hscript.2 n hn)
    | some slot =>
      exact (inSlot_natural hev site slot hscript.1).bind fun n hn => ih n (hscript.2 n hn)

/-- **Rules keep to naturals**, if the evaluator that they are given does. -/
theorem apply_natural (hev : eval.Natural c) (ceiling : Int) {rule : Rule}
    (hrule : rule.Uses Script.Act.Natural (0 ≤ ·)) (site : Site)
    (hin : Naturals inputs) : (rule.apply ceiling eval site inputs).Natural c (0 ≤ ·) := by
  match rule with
  | .ofKind .zero => exact Walk.natural_done (Int.le_refl 0)
  | .ofKind .successor => exact successor_natural site.block hin
  | .ofKind .projection => exact projection_natural site.block hin
  | .ofKind .composition => exact composition_natural hev site hin
  | .ofKind .primitiveRecursion => exact primitiveRecursion_natural hev site hin
  | .ofKind .minimization => exact minimization_natural hev ceiling site hin
  | .ofKind .custom => exact custom_natural hev site hin
  | .own script => exact perform_natural hev site (hrule _ inputs hin)

end Rule

/-! ## Evaluations keep to naturals -/

theorem ending_of_mapError {α : Type} {r : Except Failure α} {a : α}
    (h : r.mapError Failure.fault = .ok a) : r = .ok a := by
  cases r with
  | ok b =>
    cases h
    rfl
  | error e => cases h

/-- **Evaluation takes natural steps and gives natural values**, from whichever site. -/
theorem walk_natural {c : Catalog} (hc : c.KeepsNaturals) (ceiling : Int) (levels : Nat) :
    (walk ceiling levels).Natural c := by
  induction levels with
  | zero => exact fun _ _ _ => Walk.natural_fail _
  | succ levels ih =>
    intro site inputs hin
    cases hentry : c.lookup? site.block.head.kind with
    | none =>
      simp only [walk, Walk.Natural, Walk.steps, Walk.ending, hentry]
      exact ⟨fun _ hs => absurd hs List.not_mem_nil, fun _ ha => by cases ha⟩
    | some entry =>
      have hrule := Rule.apply_natural ih ceiling (hc _ entry hentry) site hin
      unfold Walk.Natural
      rw [ending_walk_of_lookup? hentry, steps_walk_of_lookup? hentry]
      refine ⟨fun s hs => (List.mem_append.mp hs).elim (hrule.1 s) fun hs => ?_, hrule.2⟩
      -- The step of the block itself has the value that the rule gave.
      split at hs
      · rename_i r hr
        rw [List.mem_singleton.mp hs]
        exact ⟨hin, hrule.2 r hr⟩
      · exact absurd hs List.not_mem_nil

/-- **Evaluation calls blocks on natural inputs**, from whichever site. -/
theorem walkCalls_natural {c : Catalog} (hc : c.KeepsNaturals) (ceiling : Int) (levels : Nat) :
    (walkCalls ceiling levels).Natural c := by
  have hcall {site : Site} {inputs : List Int} (hin : Naturals inputs) :
      Step.Natural ⟨site, inputs, 0⟩ := ⟨hin, Int.le_refl 0⟩
  induction levels with
  | zero =>
    intro site inputs hin
    refine ⟨fun s hs => ?_, nofun⟩
    rw [List.mem_singleton.mp hs]
    exact hcall hin
  | succ levels ih =>
    intro site inputs hin
    simp only [walkCalls, Walk.Natural, Walk.steps, Walk.ending, List.forall_mem_cons]
    cases hentry : c.lookup? site.block.head.kind with
    | none => exact ⟨⟨hcall hin, fun _ hs => absurd hs List.not_mem_nil⟩, fun _ ha => by cases ha⟩
    | some entry =>
      have hrule := Rule.apply_natural ih ceiling (hc _ entry hentry) site hin
      exact ⟨⟨hcall hin, hrule.1⟩, hrule.2⟩

namespace Block

section Outcomes

variable {c : Catalog} {levels : Nat} {options : EvalOptions} {tree : Block} {inputs : List Int}
  {n : Int}

/-- A value of direct evaluation is what the walk ends with. -/
theorem ending_of_evaluateWithin
    (h : (tree.evaluateWithin levels c options inputs).outcome = .ok n) :
    (tree.walkWithin levels options inputs).ending c = .ok n := by
  rcases (tree.walkWithin levels options inputs).follow_outcome_cases options.trace tree 0
    with hcase | hcase
  · exact ending_of_mapError (hcase.symm.trans h)
  · cases hcase.symm.trans h

/-- So is a value of stepped evaluation, wherever that was to be called off. -/
theorem ending_of_evaluateSteppedWithin {halt : Option (Nat × String)}
    (h : (tree.evaluateSteppedWithin levels c options halt inputs).outcome = .ok n) :
    (tree.walkWithin levels options inputs).ending c = .ok n := by
  rcases (tree.walkWithin levels options inputs).followStepped_outcome_cases options.trace halt
    tree [] with hcase | ⟨message, hcase⟩
  · exact ending_of_mapError (hcase.symm.trans h)
  · cases hcase.symm.trans h

end Outcomes

/-- **Natural inputs give natural values.** Let a tree be evaluated on natural inputs, whatever the
tree, the catalogue and the bounds, and however the evaluation ends. Then every call that it makes
is on natural inputs. Every step that is reported until the evaluation ends or is called off belongs
to one of these calls and has a natural value. And so has the evaluation, if it comes to a value,
directly, with notes or step by step. The evaluation that reports its calls comes out as the one
that reports its steps. Rules of the catalogue's own, of which the standard one has none, are to
keep to naturals too. -/
theorem natural_inputs_give_natural_values {inputs : List Int} (hin : Naturals inputs)
    (levels : Nat) {c : Catalog} (hc : c.KeepsNaturals) (options : EvalOptions) (tree : Block) :
    let calls := tree.callsWithin levels c options inputs
    let direct := tree.evaluateWithin levels c options inputs
    let noted := tree.evaluateNotedWithin levels c options inputs
    let stepped halt := tree.evaluateSteppedWithin levels c options halt inputs
    (∀ call ∈ calls, Naturals call.inputs) ∧
    (∀ halt, ∀ s ∈ (stepped halt).steps, s.call ∈ calls ∧ Naturals s.inputs ∧ 0 ≤ s.result) ∧
    (∀ n, direct.outcome = .ok n ∨ noted.outcome = .ok n ∨
      (∃ halt, (stepped halt).outcome = .ok n) → 0 ≤ n) ∧
    ((walkCalls options.ceiling levels ⟨[], tree.clearTrace⟩ inputs).ending c).mapError
      Failure.fault = (stepped none).outcome := by
  intro calls direct noted stepped
  have hwalk := walk_natural hc options.ceiling levels ⟨[], tree.clearTrace⟩ inputs hin
  have hcalls := walkCalls_natural hc options.ceiling levels ⟨[], tree.clearTrace⟩ inputs hin
  have hreports := walkCalls_reports c options.ceiling levels ⟨[], tree.clearTrace⟩ _ inputs rfl
  refine ⟨fun call hcall => ?_, fun halt s hs => ?_, ?_, ?_⟩
  · obtain ⟨s, hs, rfl⟩ := List.mem_map.mp hcall
    exact (hcalls.1 s hs).1
  · have hmem : s ∈ (tree.walkWithin levels options inputs).steps c :=
      (evaluateSteppedWithin_traced levels options halt tree inputs).1.subset hs
    exact ⟨hreports.2 s hmem, hwalk.1 s hmem⟩
  · rintro n (h | h | ⟨halt, h⟩)
    · exact hwalk.2 n (ending_of_evaluateWithin h)
    · by_cases hn : Notable inputs direct.outcome
      · exact hwalk.2 n (ending_of_evaluateWithin ((noted_of_notable hn).symm.trans h))
      · cases (noted_of_not_notable hn).symm.trans h
    · exact hwalk.2 n (ending_of_evaluateSteppedWithin h)
  · exact (congrArg (Except.mapError Failure.fault) hreports.1.symm).trans
      (congrArg Walk.Stepped.outcome (Walk.followStepped_eq _ _ _ _)).symm

/-- Two and one make three in six calls. A search for a zero of the successor, which takes one input
and is given two, fails in its second call. -/
theorem natural_inputs_give_natural_values_plus :
    let successor : Block := ⟨{ kind := .successor, id := "successor" }, []⟩
    let broken : Block :=
      ⟨{ kind := .minimization, id := "broken" }, [⟨{ name := "f" }, some successor⟩]⟩
    let calls := plus.callsWithin evaluationLimit .standard {} [2, 1]
    let failed := broken.callsWithin evaluationLimit .standard {} [4]
    Naturals [2, 1] ∧ calls.length = 6 ∧ (∀ call ∈ calls, Naturals call.inputs) ∧
      (plus.evaluateWithin evaluationLimit .standard {} [2, 1]).outcome = .ok 3 ∧ (0 : Int) ≤ 3 ∧
      Naturals [4] ∧ failed.map BlockCall.inputs = [[4], [4, 0]] ∧
      (∀ call ∈ failed, Naturals call.inputs) ∧
      (broken.evaluateWithin evaluationLimit .standard {} [4]).outcome =
        .error (.evaluation (.arity .successor 2 "successor")) := by
  intro successor broken calls failed
  have hin : Naturals [2, 1] := by simp [Naturals]
  have hfour : Naturals [4] := by simp [Naturals]
  have hvalue : (plus.evaluateWithin evaluationLimit .standard {} [2, 1]).outcome = .ok 3 := rfl
  have hc : Catalog.standard.KeepsNaturals := Catalog.uses_standard _ _
  have hplus := natural_inputs_give_natural_values hin evaluationLimit hc {} plus
  have hbroken := natural_inputs_give_natural_values hfour evaluationLimit hc {} broken
  exact ⟨hin, rfl, hplus.1, hvalue, hplus.2.2.1 3 (.inl hvalue), hfour, rfl, hbroken.1, rfl⟩

end Block

end BlockCalculus
