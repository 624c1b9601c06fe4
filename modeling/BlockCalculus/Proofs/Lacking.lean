import BlockCalculus.Proofs.Editing
import BlockCalculus.Proofs.Spine
import BlockCalculus.Proofs.Termination

/-!
# Catalogues that lack a kind

A catalogue need not have an entry for every kind, and an empty one counts as left out wherever one
can be left out, but not in an evaluation. This module says what comes of it.

* `Block.failed_setParam`: changing a parameter fails if the block has no such parameter, and then
  nothing is changed. It fails as well if the catalogue lacks the kind of the block, and that is
  found too late: the value is stored by then, and stays.
* `Block.exists_of_ending_unknownKind`: an evaluation fails for want of an entry only if a block of
  the tree is of a kind that the catalogue lacks.
* `Block.kinds_known_alike`: through a catalogue that has entries, a check and an evaluation agree
  on the kinds that there are. An empty one has all kinds in a check and none in an evaluation.
-/

namespace BlockCalculus

namespace Catalog

/-- A catalogue with entries stands for itself. -/
theorem orStandard_some {c : Catalog} (h : c.entries ≠ []) : orStandard (some c) = c := by
  rw [orStandard, if_neg]
  rwa [List.isEmpty_iff]

/-- Where a catalogue is left out or empty, every kind has an entry. Where it is given, the kinds
that it has do. -/
theorem isSome_lookup?_orStandard {given : Option Catalog} {kind : Kind}
    (h : ∀ c ∈ given, c.entries ≠ [] → (c.lookup? kind).isSome) :
    ((orStandard given).lookup? kind).isSome := by
  cases given with
  | none => rw [orStandard, lookup?_standard, Option.isSome_some]
  | some c =>
    by_cases hc : c.entries = []
    · rw [orStandard, if_pos (List.isEmpty_iff.mpr hc), lookup?_standard, Option.isSome_some]
    · rw [orStandard_some hc]
      exact h c rfl hc

end Catalog

namespace Block

/-! ## Storing a value -/

theorem value?_cons (name : String) (p : Param) (rest : List Param) :
    Param.value? name (p :: rest) =
      if p.name = name then some p.value else Param.value? name rest := by
  rw [Param.value?]
  by_cases hp : p.name = name
  · rw [List.find?_cons_of_pos (by simpa using hp), if_pos hp, Option.map_some]
  · rw [List.find?_cons_of_neg (by simpa using hp), if_neg hp, Param.value?]

/-- **Only the parameter of the name gets another value.** -/
theorem value?_storeParam (name other : String) (value : Int) (params : List Param) :
    Param.value? other (storeParam name value params) =
      if other = name then (Param.value? name params).map fun _ => value
      else Param.value? other params := by
  induction params with
  | nil =>
    rw [storeParam]
    split <;> rfl
  | cons p rest ih =>
    rw [storeParam]
    by_cases hp : p.name = name
    · rw [if_pos hp, value?_cons, value?_cons, value?_cons, if_pos hp]
      by_cases hother : other = name
      · rw [if_pos (hp.trans hother.symm), if_pos hother, Option.map_some]
      · have hne : p.name ≠ other := fun h => hother (h.symm.trans hp)
        rw [if_neg hne, if_neg hne, if_neg hother]
    · rw [if_neg hp, value?_cons, ih, value?_cons, value?_cons, if_neg hp]
      by_cases hother : other = name
      · rw [if_pos hother, if_pos hother, if_neg fun h => hp (h.trans hother)]
      · rw [if_neg hother, if_neg hother]

/-- Storing a value changes nothing if and only if there is no such parameter, or that is its
value. -/
theorem storeParam_eq_self_iff {name : String} {value : Int} {params : List Param} :
    storeParam name value params = params ↔
      Param.value? name params = none ∨ Param.value? name params = some value := by
  induction params with
  | nil => exact ⟨fun _ => .inl rfl, fun _ => rfl⟩
  | cons p rest ih =>
    rw [storeParam, value?_cons]
    by_cases hp : p.name = name
    · rw [if_pos hp, if_pos hp]
      obtain ⟨own, old, minimum⟩ := p
      simp [eq_comm]
    · rw [if_neg hp, if_neg hp, List.cons_inj_right, ih]

/-! ## Changing a parameter -/

/-- Without an entry for the kind, nothing says how the slots should be. -/
theorem outcome_refresh_of_lookup?_eq_none {c : Catalog} {b : Block}
    (h : c.lookup? b.head.kind = none) (desk : Desk) :
    (refresh c b).outcome desk = (.error (.notRegistered b.head.kind), desk) := by
  rw [refresh, Catalog.get, h, Build.outcome_bind, Build.outcome_ofExcept]

theorem exists_outcome_refresh {c : Catalog} {b : Block} {entry : Entry}
    (h : c.lookup? b.head.kind = some entry) (desk : Desk) :
    ∃ answer desk', (refresh c b).outcome desk = (.ok answer, desk') := by
  rw [refresh, Catalog.get, h, Build.outcome_bind, Build.outcome_ofExcept]
  dsimp only
  split
  · exact ⟨_, _, rfl⟩
  · split
    · exact ⟨_, _, rfl⟩
    · rw [Build.outcome_bind, Build.outcome_issue]
      exact ⟨_, _, rfl⟩

/-- What is answered to a change: the block with its slots laid out anew, or the block as it was
before that, and why it stayed so. -/
def changeAnswer (b : Block) : Except Fault (Bool × Block) → Block × Option Fault
  | .ok (_, refreshed) => (refreshed, none)
  | .error f => (b, some f)

/-- With such a parameter, the value is stored before the slots are laid out anew. -/
theorem run_setParam {c : Catalog} {name : String} {value : Int} {b : Block} {desk desk' : Desk}
    (hparam : b.param? name ≠ none) {result : Except Fault (Bool × Block)}
    (h : (refresh c ⟨stored name value b.head, b.slots⟩).outcome desk = (result, desk')) :
    (b.setParam c name value).run desk =
      (changeAnswer ⟨stored name value b.head, b.slots⟩ result, desk') := by
  unfold setParam
  rw [if_neg (by simpa using hparam), StateT.run_bind]
  unfold Build.outcome stored at h
  rw [h]
  obtain _ | ⟨_, _⟩ := result <;> rfl

/-- **How changing a parameter ends**: it is refused for want of the parameter; or the value is
stored, and then it fails for want of an entry or succeeds. -/
theorem setParam_run_cases (c : Catalog) (name : String) (value : Int) (b : Block) (desk : Desk) :
    (b.param? name = none ∧
      (b.setParam c name value).run desk = ((b, some (.noParameter b.head.kind name)), desk)) ∨
    (b.param? name ≠ none ∧ c.lookup? b.head.kind = none ∧
      (b.setParam c name value).run desk =
        ((⟨stored name value b.head, b.slots⟩, some (.notRegistered b.head.kind)), desk)) ∨
    (b.param? name ≠ none ∧ (c.lookup? b.head.kind).isSome ∧
      ∃ b' desk', (b.setParam c name value).run desk = ((b', none), desk')) := by
  by_cases hparam : b.param? name = none
  · refine .inl ⟨hparam, ?_⟩
    rw [setParam, hparam, if_pos Option.isNone_none]
    rfl
  · refine .inr ?_
    cases hentry : c.lookup? b.head.kind with
    | none =>
      have h := outcome_refresh_of_lookup?_eq_none
        (b := ⟨stored name value b.head, b.slots⟩) hentry desk
      exact .inl ⟨hparam, rfl, run_setParam hparam h⟩
    | some entry =>
      obtain ⟨answer, desk', h⟩ :=
        exists_outcome_refresh (b := ⟨stored name value b.head, b.slots⟩) hentry desk
      exact .inr ⟨hparam, rfl, answer.2, desk', run_setParam hparam h⟩

theorem stored_eq_self_iff {name : String} {value : Int} {b : Block} :
    (⟨stored name value b.head, b.slots⟩ : Block) = b ↔
      b.param? name = none ∨ b.param? name = some value := by
  obtain ⟨head, slots⟩ := b
  rw [Block.mk.injEq, param?, ← storeParam_eq_self_iff]
  refine ⟨fun h => congrArg Head.params h.1, fun h => ⟨?_, rfl⟩⟩
  rw [stored, h]

/-- **A change that failed has stored the value and done nothing else.** -/
theorem run_setParam_of_fault {c : Catalog} {name : String} {value : Int} {b : Block} {desk : Desk}
    (h : ((b.setParam c name value).run desk).1.2 ≠ none) :
    ∃ f, (b.setParam c name value).run desk =
      ((⟨stored name value b.head, b.slots⟩, some f), desk) := by
  obtain ⟨hparam, hrun⟩ | ⟨-, -, hrun⟩ | ⟨-, -, b', desk', hrun⟩ :=
    setParam_run_cases c name value b desk
  · rw [stored_eq_self_iff.mpr (.inl hparam)]
    exact ⟨_, hrun⟩
  · exact ⟨_, hrun⟩
  · rw [hrun] at h
    exact absurd rfl h

/-- **Why a change fails**: the block has no such parameter, or the catalogue lacks its kind. -/
theorem fault_setParam_iff {c : Catalog} {name : String} {value : Int} {b : Block} {desk : Desk}
    {f : Fault} :
    ((b.setParam c name value).run desk).1.2 = some f ↔
      b.param? name = none ∧ f = .noParameter b.head.kind name ∨
      b.param? name ≠ none ∧ c.lookup? b.head.kind = none ∧ f = .notRegistered b.head.kind := by
  obtain ⟨hparam, hrun⟩ | ⟨hparam, hlacks, hrun⟩ | ⟨hparam, hknows, b', desk', hrun⟩ :=
    setParam_run_cases c name value b desk
  · simp [hrun, hparam, eq_comm]
  · simp [hrun, hparam, hlacks, eq_comm]
  · simp [hrun, hparam, Option.isSome_iff_ne_none.mp hknows]

/-- **What is left of a change that failed.** Let a parameter of a block be changed, whatever the
block and whatever catalogue is given. That fails if there is no such parameter, and it fails if the
catalogue lacks the kind of the block. Either way no id is issued, and the block is as it was up to
the value of this parameter, its slots and all below them included. Where there is such a parameter
its value is the new one, so that the block is as it was only without the parameter or if the value
is the old one. A catalogue that is left out or empty, or that has the kind, leaves only the want of
the parameter, so that a failure changes nothing. -/
theorem failed_setParam (given : Option Catalog) (name : String) (value : Int) (b : Block)
    (desk : Desk) :
    let c := Catalog.orStandard given
    let answer := (b.setParam c name value).run desk
    (∀ f, answer.1.2 = some f ↔
      b.param? name = none ∧ f = .noParameter b.head.kind name ∨
      b.param? name ≠ none ∧ c.lookup? b.head.kind = none ∧ f = .notRegistered b.head.kind) ∧
    (answer.1.2 ≠ none →
      answer.2 = desk ∧
      answer.1.1.slots = b.slots ∧
      answer.1.1.head = { b.head with params := storeParam name value b.head.params } ∧
      answer.1.1.param? name = (b.param? name).map (fun _ => value) ∧
      (∀ other, other ≠ name → answer.1.1.param? other = b.param? other) ∧
      (answer.1.1 = b ↔ b.param? name = none ∨ b.param? name = some value)) ∧
    ((∀ g ∈ given, g.entries ≠ [] → (g.lookup? b.head.kind).isSome) →
      answer.1.2 ≠ none → answer.1.1 = b ∧ answer.2 = desk) := by
  intro c answer
  refine ⟨fun f => fault_setParam_iff, fun hfault => ?_, fun hknown hfault => ?_⟩
  · obtain ⟨f, hanswer⟩ := run_setParam_of_fault hfault
    have hvalue (other : String) := value?_storeParam name other value b.head.params
    rw [show answer = _ from hanswer]
    refine ⟨rfl, rfl, rfl, ?_, fun other hother => ?_, stored_eq_self_iff⟩
    · exact (hvalue name).trans (if_pos rfl)
    · exact (hvalue other).trans (if_neg hother)
  · have hsome : (c.lookup? b.head.kind).isSome := Catalog.isSome_lookup?_orStandard hknown
    obtain ⟨f, hanswer⟩ := run_setParam_of_fault hfault
    rw [show answer = _ from hanswer]
    refine ⟨stored_eq_self_iff.mpr (.inl ?_), rfl⟩
    -- the catalogue has the kind, so the want of the parameter is all that is left
    obtain ⟨hparam, -⟩ | ⟨-, hlacks, -⟩ :=
      fault_setParam_iff.mp (congrArg (fun r => r.1.2) hanswer)
    · exact hparam
    · rw [hlacks] at hsome
      cases hsome

/-- Through a catalogue of `Zero` alone, changing the index of a projection fails, and the index is
another one afterwards. Nothing is changed if the catalogue is left out and a parameter is meant
that the projection does not have. -/
theorem failed_setParam_projection :
    let only : Catalog := { entries := [Catalog.zero] }
    let projection : Block := ⟨{ kind := .projection, id := "p", params := [⟨"i", 1, 1⟩] }, []⟩
    let failed := (projection.setParam (Catalog.orStandard (some only)) "i" 5).run {}
    let refused := (projection.setParam (Catalog.orStandard none) "m" 5).run {}
    (failed.1.2 = some (.notRegistered .projection) ∧ failed.1.1 ≠ projection ∧
        failed.1.1.param? "i" = some 5) ∧
      refused.1.2 = some (.noParameter .projection "m") ∧ refused.1.1 = projection := by
  intro only projection failed refused
  obtain ⟨hwhy, hleft, -⟩ := failed_setParam (some only) "i" 5 projection {}
  obtain ⟨hwhy', -, hnothing⟩ := failed_setParam none "m" 5 projection {}
  have hfailed : failed.1.2 = some (.notRegistered .projection) :=
    (hwhy _).mpr (.inr ⟨by decide, rfl, rfl⟩)
  have hrefused : refused.1.2 = some (.noParameter .projection "m") :=
    (hwhy' _).mpr (.inl ⟨rfl, rfl⟩)
  have hne : failed.1.2 ≠ none := by rw [hfailed]; exact Option.some_ne_none _
  have hne' : refused.1.2 ≠ none := by rw [hrefused]; exact Option.some_ne_none _
  obtain ⟨-, -, -, hvalue, -, hsame⟩ := hleft hne
  refine ⟨⟨hfailed, ?_, hvalue⟩, hrefused, ?_⟩
  · exact fun h => absurd (hsame.mp h) (by decide)
  · exact (hnothing (fun g hg => by cases hg) hne').1

end Block

/-! ## What an evaluation wants -/

/-- A walk that fails for want of an entry names a kind that the catalogue lacks and that a block
of the tree has. -/
def Walk.Blames {α : Type} (c : Catalog) (tree : Block) (w : Walk α) : Prop :=
  ∀ kind, w.ending c = .error (.error (.unknownKind kind)) →
    c.lookup? kind = none ∧ ∃ d ∈ tree.listing, d.head.kind = kind

/-- Wherever the evaluator starts in the tree, its walk blames such a kind. -/
def Evaluator.Blames (c : Catalog) (tree : Block) (eval : Evaluator) : Prop :=
  ∀ site inputs, tree.at? site.position = some site.block → (eval site inputs).Blames c tree

section Blames

variable {α β : Type} {c : Catalog} {tree : Block} {eval : Evaluator} {site : Site}

namespace Walk

theorem blames_done (a : α) : (done a : Walk α).Blames c tree :=
  fun _ h => by cases h

theorem Blames.bind {w : Walk α} {next : α → Walk β} (hw : w.Blames c tree)
    (hnext : ∀ a, w.ending c = .ok a → (next a).Blames c tree) : (w.bind next).Blames c tree := by
  intro kind h
  rw [ending_bind] at h
  cases hend : w.ending c with
  | ok a =>
    rw [hend] at h
    exact hnext a hend kind h
  | error e =>
    rw [hend] at h
    cases h
    exact hw kind hend

end Walk

namespace Rule

theorem occupant_blames (site : Site) (slot : String) : (occupant site slot).Blames c tree := by
  intro kind h
  rw [ending_occupant] at h
  split at h <;> cases h

theorem inSlot_blames (hev : eval.Blames c tree) (hs : tree.at? site.position = some site.block)
    (slot : String) (inputs : List Int) : (inSlot eval site slot inputs).Blames c tree :=
  (occupant_blames site slot).bind fun _ h => hev _ _ (at?_of_ending_occupant hs h)

theorem parameter_blames (b : Block) (name : String) : (parameter b name).Blames c tree := by
  intro kind h
  unfold parameter at h
  split at h <;> cases h

theorem parts_blames (hev : eval.Blames c tree) (hs : tree.at? site.position = some site.block)
    (inputs : List Int) (count first : Nat) :
    (parts eval site inputs count first).Blames c tree := by
  induction count generalizing first with
  | zero => exact Walk.blames_done []
  | succ count ih =>
    refine (inSlot_blames hev hs _ inputs).bind fun y _ => ?_
    exact (ih (first + 1)).bind fun ys _ => Walk.blames_done (y :: ys)

theorem search_blames (hev : eval.Blames c tree) {f : Site}
    (hf : tree.at? f.position = some f.block) {exhausted : Walk Int}
    (hex : exhausted.Blames c tree) (inputs : List Int) (count first : Nat) :
    (search eval f inputs exhausted count first).Blames c tree := by
  induction count generalizing first with
  | zero => exact hex
  | succ count ih =>
    refine (hev f _ hf).bind fun y _ => ?_
    split
    · exact Walk.blames_done _
    · exact ih (first + 1)

theorem perform_blames (hev : eval.Blames c tree) (hs : tree.at? site.position = some site.block)
    {script : Script}
    (hscript : ∀ kind, script.Uses (· ≠ .fail (.error (.unknownKind kind))) fun _ => True) :
    (perform eval site script).Blames c tree := by
  induction script with
  | give n => exact Walk.blames_done n
  | fail e =>
    intro kind h
    cases h
    exact absurd rfl (hscript kind)
  | wait rest ih => exact ih () fun kind => (hscript kind).2
  | look next ih => exact ih _ fun kind => hscript kind _
  | evaluate slot inputs next ih =>
    have hnext (n : Int) : (perform eval site (next n)).Blames c tree :=
      ih n fun kind => (hscript kind).2 n trivial
    cases slot with
    | none => exact (hev site inputs hs).bind fun n _ => hnext n
    | some slot => exact (inSlot_blames hev hs slot inputs).bind fun n _ => hnext n

/-- What a rule has to complain of is no want of an entry. So it leaves the blame where the
evaluator puts it. -/
theorem apply_blames {rule : Rule}
    (hrule : ∀ kind, rule.Uses (· ≠ .fail (.error (.unknownKind kind))) fun _ => True)
    (hev : eval.Blames c tree) (hs : tree.at? site.position = some site.block) (ceiling : Int)
    (inputs : List Int) :
    (rule.apply ceiling eval site inputs).Blames c tree := by
  match rule with
  | .ofKind .zero => exact Walk.blames_done 0
  | .ofKind .successor =>
    intro kind h
    simp only [apply, successor] at h
    split at h <;> cases h
  | .ofKind .projection =>
    show (projection site.block inputs).Blames c tree
    unfold projection
    split
    · exact fun _ h => by cases h
    · refine (parameter_blames _ _).bind fun i _ kind h => ?_
      split at h <;> cases h
  | .ofKind .composition =>
    refine (parameter_blames _ _).bind fun m _ => ?_
    refine (parts_blames hev hs inputs _ _).bind fun ys _ => ?_
    exact inSlot_blames hev hs "f" ys
  | .ofKind .primitiveRecursion =>
    show (primitiveRecursion eval site inputs).Blames c tree
    unfold primitiveRecursion
    split
    · exact fun _ h => by cases h
    · split
      · exact inSlot_blames hev hs _ _
      · exact (hev site _ hs).bind fun z _ => inSlot_blames hev hs _ _
  | .ofKind .minimization =>
    refine (occupant_blames site "f").bind fun f hf => ?_
    have hex : (.look site fun b => .fail (.error (.nonConvergence ceiling b.head.id)) :
        Walk Int).Blames c tree := fun _ h => by cases h
    exact search_blames hev (at?_of_ending_occupant hs hf) hex inputs _ _
  | .ofKind .custom =>
    show (custom eval site inputs).Blames c tree
    unfold custom
    split
    · rename_i i d hseek
      exact hev _ _ (Block.at?_of_seek? hs hseek)
    · exact fun _ h => by cases h
  | .own script => exact perform_blames hev hs fun kind => hrule kind _ inputs fun _ _ => trivial

end Rule

/-- **An evaluation fails for want of an entry only where there is none**, from whichever block of
the tree it starts. -/
theorem walk_blames (hc : ∀ kind, c.Avoids (.unknownKind kind)) (tree : Block) (ceiling : Int)
    (levels : Nat) : (walk ceiling levels).Blames c tree := by
  induction levels with
  | zero => exact fun _ _ _ _ h => by cases h
  | succ levels ih =>
    intro site inputs hs kind h
    cases hentry : c.lookup? site.block.head.kind with
    | none =>
      simp only [walk, Walk.ending, hentry] at h
      cases h
      exact ⟨hentry, site.block, Block.mem_listing_iff.mpr ⟨_, hs⟩, rfl⟩
    | some entry =>
      rw [ending_walk_of_lookup? hentry] at h
      exact Rule.apply_blames (fun kind => hc kind _ entry hentry) ih hs ceiling inputs kind h

end Blames

namespace Block

section Outcomes

variable {c : Catalog} {tree : Block} {levels : Nat} {options : EvalOptions} {inputs : List Int}
  {kind : Kind}

/-- Clearing the notes on a tree leaves its kinds. -/
theorem exists_kind_of_clearTrace (h : ∃ d ∈ tree.clearTrace.listing, d.head.kind = kind) :
    ∃ d ∈ tree.listing, d.head.kind = kind := by
  by_contra hnone
  have hevery : tree.Every fun d => d.head.kind ≠ kind := fun d hd hk => hnone ⟨d, hd, hk⟩
  obtain ⟨d, hd, hk⟩ := h
  exact every_mapHeads (fun d => by rw [head_mapHeads]) |>.mpr hevery d hd hk

/-- The walk that evaluates a tree blames a kind that a block of the tree has. -/
theorem exists_of_ending_unknownKind (hc : ∀ kind, c.Avoids (.unknownKind kind))
    (h : (tree.walkWithin levels options inputs).ending c = .error (.error (.unknownKind kind))) :
    c.lookup? kind = none ∧ ∃ d ∈ tree.listing, d.head.kind = kind := by
  obtain ⟨hlacks, hkind⟩ := walk_blames hc tree.clearTrace options.ceiling levels _ inputs
    (at?_nil _) kind h
  exact ⟨hlacks, exists_kind_of_clearTrace hkind⟩

/-- A failure of an evaluation is the ending of the walk. -/
theorem ending_of_outcome_eq_error {r : Except Failure Int} {e : EvalError}
    (h : r.mapError Failure.fault = .error (.evaluation e)) : r = .error (.error e) := by
  cases r with
  | ok n => cases h
  | error failure => rw [(Failure.fault_eq_evaluation_iff.mp (Except.error.inj h)).1]

/-- **An evaluation blames a kind that the catalogue lacks**, directly, with notes or step by step,
wherever that is called off. -/
theorem exists_of_outcome_unknownKind (hc : ∀ kind, c.Avoids (.unknownKind kind))
    (h : (tree.evaluateWithin levels c options inputs).outcome =
        .error (.evaluation (.unknownKind kind)) ∨
      (tree.evaluateNotedWithin levels c options inputs).outcome =
        .error (.evaluation (.unknownKind kind)) ∨
      ∃ halt, (tree.evaluateSteppedWithin levels c options halt inputs).outcome =
        .error (.evaluation (.unknownKind kind))) :
    c.lookup? kind = none ∧ ∃ d ∈ tree.listing, d.head.kind = kind := by
  have hdirect (h : (tree.evaluateWithin levels c options inputs).outcome =
      .error (.evaluation (.unknownKind kind))) :
      c.lookup? kind = none ∧ ∃ d ∈ tree.listing, d.head.kind = kind := by
    rcases (tree.walkWithin levels options inputs).follow_outcome_cases options.trace tree 0
      with hcase | hcase
    · exact exists_of_ending_unknownKind hc (ending_of_outcome_eq_error (hcase.symm.trans h))
    · cases hcase.symm.trans h
  obtain h | h | ⟨halt, h⟩ := h
  · exact hdirect h
  · by_cases hn : Notable inputs (tree.evaluateWithin levels c options inputs).outcome
    · exact hdirect ((noted_of_notable hn).symm.trans h)
    · cases (noted_of_not_notable hn).symm.trans h
  · rcases (tree.walkWithin levels options inputs).followStepped_outcome_cases options.trace halt
      tree [] with hcase | ⟨message, hcase⟩
    · exact exists_of_ending_unknownKind hc (ending_of_outcome_eq_error (hcase.symm.trans h))
    · cases hcase.symm.trans h

/-- A tree whose root is of a kind that the catalogue lacks fails at once. -/
theorem outcome_of_lookup?_eq_none (h : c.lookup? tree.head.kind = none) (levels : Nat)
    (options : EvalOptions) (inputs : List Int) :
    (tree.evaluateWithin (levels + 1) c options inputs).outcome =
        .error (.evaluation (.unknownKind tree.head.kind)) ∧
      ((∀ x ∈ inputs, Text.isWritable x = true) →
        (tree.evaluateNotedWithin (levels + 1) c options inputs).outcome =
          .error (.evaluation (.unknownKind tree.head.kind))) ∧
      ∀ halt, (tree.evaluateSteppedWithin (levels + 1) c options halt inputs).outcome =
        .error (.evaluation (.unknownKind tree.head.kind)) := by
  have hkind : tree.clearTrace.head.kind = tree.head.kind := by rw [clearTrace, head_mapHeads]
  have htold : (Failure.error (.unknownKind tree.head.kind)).fault =
      .evaluation (.unknownKind tree.head.kind) := Failure.fault_of_isTellable rfl
  have hdirect : (tree.evaluateWithin (levels + 1) c options inputs).outcome =
      .error (.evaluation (.unknownKind tree.head.kind)) := by
    simp only [evaluateWithin, walkWithin, Site.walkWithin, BlockCalculus.walk, Walk.follow,
      hkind, h, htold]
  refine ⟨hdirect, fun hin => ?_, fun halt => ?_⟩
  · refine (noted_of_notable ⟨hin, fun n hn => ?_⟩).trans hdirect
    cases hdirect.symm.trans hn
  · simp only [evaluateSteppedWithin, walkWithin, Site.walkWithin, BlockCalculus.walk,
      Walk.followStepped, hkind, h, htold]

end Outcomes

/-! ## What a check finds -/

theorem unknownKind_notMem_problems (s : Slot) (kind : Kind) : .unknownKind kind ∉ s.problems := by
  unfold Slot.problems
  split
  · split <;> simp
  · simp

/-- The catalogue finds the kind of a block unknown if and only if it lacks the kind. -/
theorem unknownKind_mem_problems_iff {c : Catalog} {h : Head} :
    .unknownKind h.kind ∈ c.problems h ↔ c.lookup? h.kind = none := by
  unfold Catalog.problems
  cases c.lookup? h.kind with
  | none => simp
  | some entry =>
    refine iff_of_false ?_ (Option.some_ne_none _)
    unfold Kind.problems
    grind

/-- **A check finds exactly the blocks of kinds that the catalogue lacks.** -/
theorem every_unknownKind_iff (c : Catalog) (b : Block) :
    (b.annotate c).Every fun d =>
      .unknownKind d.head.kind ∈ d.head.problems ↔ c.lookup? d.head.kind = none := by
  induction b using Block.induction with
  | mk head slots ih =>
    rw [annotate_mk, every_mk]
    refine ⟨?_, ?_⟩
    · rw [List.mem_append, List.mem_flatMap, ← unknownKind_mem_problems_iff]
      refine or_iff_right ?_
      rintro ⟨s, -, hs⟩
      exact unknownKind_notMem_problems s _ hs
    · rw [List.forall_mem_map]
      intro s hs
      rw [Slot.forall_occupant_within]
      exact ih s hs

/-- **A tree without problems has only kinds that the catalogue has.** -/
theorem every_known_of_annotate {c : Catalog} {tree : Block}
    (h : (tree.annotate c).head.problems = []) :
    (tree.annotate c).Every fun d => c.lookup? d.head.kind ≠ none := by
  intro d hd hlacks
  have hmem := (every_unknownKind_iff c tree d hd).mpr hlacks
  rw [every_nil_of_annotate h d hd] at hmem
  exact List.not_mem_nil hmem

/-- A check leaves the kinds of a tree. -/
theorem every_kind_annotate {P : Kind → Prop} (c : Catalog) (tree : Block) :
    ((tree.annotate c).Every fun d => P d.head.kind) ↔ tree.Every fun d => P d.head.kind :=
  every_congr (unchecked_annotate c tree) fun d => by rw [head_mapHeads]

/-- **A check and an evaluation know the same kinds, unless the catalogue is empty.** Let a check of
a tree come to its end, through a catalogue that stands for the standard one if it is empty, and let
no rule of the catalogue's own, if it has any, complain of an unknown kind. If the catalogue has
entries, then the check finds the kind of a block of the tree unknown exactly if evaluating that
block fails for want of an entry for its kind. If the check finds no problem, no evaluation of the
tree fails for want of an entry, before the check or after it, on any inputs and with any options
and levels, directly, with notes or step by step. But if the catalogue is empty, the check goes by
the standard one, and every evaluation fails at the root. -/
theorem kinds_known_alike {c : Catalog} (havoids : ∀ kind, c.Avoids (.unknownKind kind))
    {tree checked : Block}
    (hcheck : tree.check (Catalog.orStandard (some c)) = (checked, none)) (levels : Nat)
    (options : EvalOptions) (inputs : List Int) :
    (c.entries ≠ [] →
      (∀ d ∈ checked.listing, .unknownKind d.head.kind ∈ d.head.problems ↔
        (d.evaluateWithin (levels + 1) c options inputs).outcome =
          .error (.evaluation (.unknownKind d.head.kind))) ∧
      (checked.head.problems = [] → ∀ t, t = tree ∨ t = checked → ∀ kind,
        (t.evaluateWithin levels c options inputs).outcome ≠
            .error (.evaluation (.unknownKind kind)) ∧
          (t.evaluateNotedWithin levels c options inputs).outcome ≠
            .error (.evaluation (.unknownKind kind)) ∧
          ∀ halt, (t.evaluateSteppedWithin levels c options halt inputs).outcome ≠
            .error (.evaluation (.unknownKind kind)))) ∧
    (c.entries = [] → checked = tree.annotate .standard ∧ ∀ t, t = tree ∨ t = checked →
      (t.evaluateWithin (levels + 1) c options inputs).outcome =
          .error (.evaluation (.unknownKind tree.head.kind)) ∧
        ((∀ x ∈ inputs, Text.isWritable x = true) →
          (t.evaluateNotedWithin (levels + 1) c options inputs).outcome =
            .error (.evaluation (.unknownKind tree.head.kind))) ∧
        ∀ halt, (t.evaluateSteppedWithin (levels + 1) c options halt inputs).outcome =
          .error (.evaluation (.unknownKind tree.head.kind))) := by
  obtain rfl := eq_annotate_of_checkWithin _ _ _ _ hcheck
  refine ⟨fun hc => ?_, fun hc => ?_⟩
  · rw [Catalog.orStandard_some hc]
    refine ⟨fun d hd => ?_, fun hnone t ht kind => ?_⟩
    · refine (every_unknownKind_iff c tree d hd).trans ⟨fun h => ?_, fun h => ?_⟩
      · exact (outcome_of_lookup?_eq_none h levels options inputs).1
      · exact (exists_of_outcome_unknownKind havoids (.inl h)).1
    · have hknown : t.Every fun d => c.lookup? d.head.kind ≠ none := by
        rcases ht with rfl | rfl
        · exact (every_kind_annotate (P := fun kind => c.lookup? kind ≠ none) c t).mp
            (every_known_of_annotate hnone)
        · exact every_known_of_annotate hnone
      have hnever : ¬ (c.lookup? kind = none ∧ ∃ d ∈ t.listing, d.head.kind = kind) := by
        rintro ⟨hlacks, d, hd, rfl⟩
        exact hknown d hd hlacks
      exact ⟨fun h => hnever (exists_of_outcome_unknownKind havoids (.inl h)),
        fun h => hnever (exists_of_outcome_unknownKind havoids (.inr (.inl h))),
        fun halt h => hnever (exists_of_outcome_unknownKind havoids (.inr (.inr ⟨halt, h⟩)))⟩
  · have hlacks (kind : Kind) : c.lookup? kind = none := by rw [Catalog.lookup?, hc, List.find?_nil]
    have hstandard : Catalog.orStandard (some c) = .standard :=
      if_pos (List.isEmpty_iff.mpr hc)
    rw [hstandard]
    refine ⟨rfl, fun t ht => ?_⟩
    have hkind : t.head.kind = tree.head.kind := by
      rcases ht with rfl | rfl
      · rfl
      · obtain ⟨head, slots⟩ := tree
        rw [annotate_mk]
    rw [← hkind]
    exact outcome_of_lookup?_eq_none (hlacks _) levels options inputs

/-- Zero as the body of a named block has no problem for a catalogue of these two kinds, and can be
evaluated through it. Zero alone has none for the empty catalogue, and cannot. -/
theorem kinds_known_alike_named :
    let two : Catalog := (Catalog.registerAll {} [Catalog.custom, Catalog.zero]).1
    let zero : Block := ⟨{ kind := .zero, id := "zero" }, []⟩
    let named : Block :=
      ⟨{ kind := .custom, id := "named", name := some "null" }, [⟨Catalog.customBody, some zero⟩]⟩
    let checked := (named.check (Catalog.orStandard (some two))).1
    let alone := (zero.check (Catalog.orStandard (some {}))).1
    (checked.head.problems = [] ∧ ∀ kind,
        (checked.evaluate two {} []).outcome ≠ .error (.evaluation (.unknownKind kind))) ∧
      alone.head.problems = [] ∧
        (alone.evaluate {} {} []).outcome = .error (.evaluation (.unknownKind .zero)) := by
  intro two zero named checked alone
  have hnone : checked.head.problems = [] := rfl
  have hcheck : named.check (Catalog.orStandard (some two)) = (checked, none) := rfl
  have hcheck' : zero.check (Catalog.orStandard (some {})) = (alone, none) := rfl
  have hnothing : ∀ entry ∈ two.entries, ∃ kind, entry.rule = .ofKind kind := by
    have htwo : two.entries = [Catalog.custom, Catalog.zero] := rfl
    rw [htwo, List.forall_mem_cons, List.forall_mem_singleton]
    exact ⟨⟨.custom, rfl⟩, ⟨.zero, rfl⟩⟩
  have hnone' : ∀ entry ∈ ({} : Catalog).entries, ∃ kind, entry.rule = .ofKind kind :=
    List.forall_mem_nil _
  obtain ⟨hentries, -⟩ :=
    kinds_known_alike (fun _ => Catalog.uses_of_entries hnothing _ _) hcheck evaluationLimit {} []
  obtain ⟨-, hempty⟩ :=
    kinds_known_alike (fun _ => Catalog.uses_of_entries hnone' _ _) hcheck' 324 {} []
  refine ⟨⟨hnone, fun kind => ?_⟩, rfl, ?_⟩
  · exact ((hentries (List.cons_ne_nil _ _)).2 hnone checked (.inr rfl) kind).1
  · exact ((hempty rfl).2 alone (.inr rfl)).1

end Block

end BlockCalculus
