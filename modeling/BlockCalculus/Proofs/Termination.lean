import BlockCalculus.Proofs.Layout

/-!
# Evaluation terminates

The number of levels that an evaluation may descend is a safeguard. For every tree and all inputs
there are enough levels, and from there on the evaluation ends the same way, whatever catalogue it
goes by, as long as rules of the catalogue's own go down the tree only. A tree that does not search
then ends with an integer if a check finds no problem with it: primitive recursive functions are
total.

* `Walk.Settles`: a walk ends the same way as soon as there are enough levels.
* `Rule.primitiveRecursion_settles`: a recursion settles if its two cases do. A recursion evaluates
  its own block again, so this is an induction on the last input, inside the one on the tree.
* `walk_settles`: evaluating a block settles. The same induction shows how it can fail: never for
  want of levels, and with a search that found nothing only if there is a block that searches.
* `evaluation_terminates`: the main result.
-/

namespace BlockCalculus

namespace Walk

variable {α β : Type} {c : Catalog} {fails fails' : Failure → Prop}

/-- A walk for every number of levels ends the same way as soon as there are enough levels, and if
that is an error, it is one of `fails`. -/
def Settles (c : Catalog) (fails : Failure → Prop) (w : Nat → Walk α) : Prop :=
  ∃ r, (∀ e, r = .error e → fails e) ∧ ∃ enough, ∀ l, enough ≤ l → (w l).ending c = r

theorem settles_done (a : α) : Settles c fails fun _ => done a :=
  ⟨.ok a, fun _ h => (by cases h), 0, fun _ _ => rfl⟩

theorem settles_fail {e : Failure} (he : fails e) :
    Settles c fails fun _ => (fail e : Walk α) :=
  ⟨.error e, fun _ h => Except.error.inj h ▸ he, 0, fun _ _ => rfl⟩

theorem Settles.mono {w : Nat → Walk α} (hw : Settles c fails w) (h : ∀ e, fails e → fails' e) :
    Settles c fails' w := by
  obtain ⟨r, hr, hends⟩ := hw
  exact ⟨r, fun e he => h e (hr e he), hends⟩

theorem Settles.congr {w w' : Nat → Walk α} (hw : Settles c fails w)
    (h : ∀ l, (w' l).ending c = (w l).ending c) : Settles c fails w' := by
  obtain ⟨r, hr, enough, hends⟩ := hw
  exact ⟨r, hr, enough, fun l hl => (h l).trans (hends l hl)⟩

/-- What settles one level below settles. -/
theorem Settles.succ {w w' : Nat → Walk α} (hw : Settles c fails w)
    (h : ∀ l, (w' (l + 1)).ending c = (w l).ending c) : Settles c fails w' := by
  obtain ⟨r, hr, enough, hends⟩ := hw
  refine ⟨r, hr, enough + 1, fun l hl => ?_⟩
  obtain ⟨k, rfl⟩ : ∃ k, l = k + 1 := ⟨l - 1, by omega⟩
  rw [h, hends k (by omega)]

/-- A walk that goes on settles if both parts do. -/
theorem Settles.bind {w : Nat → Walk α} {next : Nat → α → Walk β} (hw : Settles c fails w)
    (hnext : ∀ a, Settles c fails fun l => next l a) :
    Settles c fails fun l => (w l).bind (next l) := by
  obtain ⟨r, hr, n, hn⟩ := hw
  cases r with
  | error e =>
    refine ⟨.error e, fun e' he' => hr e' (Except.error.inj he' ▸ rfl), n, fun l hl => ?_⟩
    rw [ending_bind, hn l hl]
  | ok a =>
    obtain ⟨r', hr', m, hm⟩ := hnext a
    refine ⟨r', hr', max n m, fun l hl => ?_⟩
    rw [ending_bind, hn l (by omega)]
    exact hm l (by omega)

end Walk

/-! ## Rules settle if what they evaluate does -/

namespace Rule

variable {α : Type} {c : Catalog} {fails : Failure → Prop} {eval : Nat → Evaluator} {site : Site}

/-- Every error is one of `fails`, but for those that tell of a limit. -/
def Admits (fails : Failure → Prop) : Prop :=
  ∀ e : EvalError, ¬ e.IsLimit → fails (.error e)

theorem Admits.settles (hown : Admits fails) {e : EvalError}
    (he : ¬ e.IsLimit := by simp [EvalError.IsLimit, EvalError.code]) :
    Walk.Settles c fails fun _ => (.fail (.error e) : Walk α) :=
  Walk.settles_fail (hown e he)

/-- Evaluating what is in the slots of the block at a site settles. -/
def SlotsSettle (c : Catalog) (fails : Failure → Prop) (eval : Nat → Evaluator) (site : Site) :
    Prop :=
  ∀ s ∈ site.block.slots, ∀ d ∈ s.occupant, ∀ p xs,
    Walk.Settles c fails fun l => eval l ⟨p, d⟩ xs

theorem SlotsSettle.of_seek? (hin : SlotsSettle c fails eval site) {slot : String} {i : Nat}
    {d : Block} (h : Slot.seek? slot site.block.slots = some (i, d)) (p : Position)
    (xs : List Int) : Walk.Settles c fails fun l => eval l ⟨p, d⟩ xs := by
  obtain ⟨shape, hget, -⟩ := Slot.getElem?_of_seek? h
  exact hin _ (List.mem_of_getElem? hget) d rfl p xs

theorem inSlot_settles (hown : Admits fails) (hin : SlotsSettle c fails eval site) (slot : String)
    (xs : List Int) : Walk.Settles c fails fun l => inSlot (eval l) site slot xs := by
  cases hseek : Slot.seek? slot site.block.slots with
  | none =>
    have hmissing : Walk.Settles c fails fun _ =>
        (.fail (.error (.missingSlot site.block.head.kind slot site.block.head.id)) : Walk Int) :=
      hown.settles
    refine hmissing.congr fun l => ?_
    rw [ending_inSlot, hseek]
    rfl
  | some found =>
    refine (hin.of_seek? hseek (site.position ++ [found.1]) xs).congr fun l => ?_
    rw [ending_inSlot, hseek]

theorem parameter_settles (hown : Admits fails) (b : Block) (name : String) :
    Walk.Settles c fails fun _ => parameter b name := by
  unfold parameter
  split
  · exact Walk.settles_done _
  · exact hown.settles

theorem successor_settles (hown : Admits fails) (b : Block) (xs : List Int) :
    Walk.Settles c fails fun _ => successor b xs := by
  unfold successor
  split
  · exact Walk.settles_done _
  · exact hown.settles

theorem projection_settles (hown : Admits fails) (b : Block) (xs : List Int) :
    Walk.Settles c fails fun _ => projection b xs := by
  unfold projection
  split
  · exact hown.settles
  · refine (parameter_settles hown b "i").bind fun i => ?_
    split
    · exact Walk.settles_done _
    · exact hown.settles

theorem parts_settles (hown : Admits fails) (hin : SlotsSettle c fails eval site) (xs : List Int)
    (count first : Nat) :
    Walk.Settles c fails fun l => parts (eval l) site xs count first := by
  induction count generalizing first with
  | zero => exact Walk.settles_done []
  | succ count ih =>
    refine (inSlot_settles hown hin _ xs).bind fun y => ?_
    exact (ih (first + 1)).bind fun ys => Walk.settles_done (y :: ys)

theorem composition_settles (hown : Admits fails) (hin : SlotsSettle c fails eval site)
    (xs : List Int) : Walk.Settles c fails fun l => composition (eval l) site xs := by
  refine (parameter_settles hown site.block "m").bind fun m => ?_
  refine (parts_settles hown hin xs m.toNat 1).bind fun ys => ?_
  exact inSlot_settles hown hin "f" ys

/-- **A recursion settles if its cases do.** What it needs at a last input is its own value at the
predecessor, one level further down. -/
theorem primitiveRecursion_settles (hown : Admits fails) (hin : SlotsSettle c fails eval site)
    (hself : ∀ xs, (Walk.Settles c fails fun l => primitiveRecursion (eval l) site xs) →
      Walk.Settles c fails fun l => eval l site xs) (xs : List Int) :
    Walk.Settles c fails fun l => eval l site xs := by
  have hturns : ∀ (k : Nat) (others : List Int) (n : Int), n.toNat = k →
      Walk.Settles c fails fun l => eval l site (others ++ [n]) := by
    intro k
    induction k with
    | zero =>
      intro others n hn
      refine hself _ ((inSlot_settles hown hin Catalog.baseCase.name others).congr fun l => ?_)
      simp [primitiveRecursion, show n ≤ 0 by omega]
    | succ k ih =>
      intro others n hn
      have hprevious := ih others (n - 1) (by omega)
      have hturn := hprevious.bind fun z =>
        inSlot_settles hown hin Catalog.recursiveCase.name (others ++ [n - 1, z])
      refine hself _ (hturn.congr fun l => ?_)
      simp [primitiveRecursion, show ¬ n ≤ 0 by omega]
  rcases List.eq_nil_or_concat xs with rfl | ⟨others, n, rfl⟩
  · exact hself [] hown.settles
  · rw [List.concat_eq_append]
    exact hturns n.toNat others n rfl

theorem search_settles {f : Site} {exhausted : Walk Int}
    (hf : ∀ ys, Walk.Settles c fails fun l => eval l f ys)
    (hexhausted : Walk.Settles c fails fun _ => exhausted) (xs : List Int) (count first : Nat) :
    Walk.Settles c fails fun l => search (eval l) f xs exhausted count first := by
  induction count generalizing first with
  | zero => exact hexhausted
  | succ count ih =>
    refine (hf _).bind fun y => ?_
    split
    · exact Walk.settles_done _
    · exact ih (first + 1)

/-- A search settles if its function does. It may fail for having found nothing. -/
theorem minimization_settles (hown : Admits fails) (hin : SlotsSettle c fails eval site)
    {ceiling : Int} (hnone : fails (.error (.nonConvergence ceiling site.block.head.id)))
    (xs : List Int) : Walk.Settles c fails fun l => minimization ceiling (eval l) site xs := by
  cases hseek : Slot.seek? "f" site.block.slots with
  | none =>
    have hmissing : Walk.Settles c fails fun _ =>
        (.fail (.error (.missingSlot site.block.head.kind "f" site.block.head.id)) : Walk Int) :=
      hown.settles
    refine hmissing.congr fun l => ?_
    rw [minimization, Walk.ending_bind, ending_occupant, hseek]
    rfl
  | some found =>
    have hexhausted : Walk.Settles c fails fun _ =>
        (.look site fun b => .fail (.error (.nonConvergence ceiling b.head.id)) : Walk Int) :=
      (Walk.settles_fail hnone).congr fun _ => rfl
    refine (search_settles (hin.of_seek? hseek (site.position ++ [found.1])) hexhausted xs
      ceiling.toNat 0).congr fun l => ?_
    rw [minimization, Walk.ending_bind, ending_occupant, hseek]

theorem custom_settles (hown : Admits fails) (hin : SlotsSettle c fails eval site)
    (xs : List Int) : Walk.Settles c fails fun l => custom (eval l) site xs := by
  unfold custom
  split
  · rename_i i d hseek
    exact hin.of_seek? hseek _ xs
  · exact hown.settles

/-- A rule of one's own that only goes down the tree settles, however else it may fail. -/
theorem perform_settles (hin : SlotsSettle c fails eval site)
    (hfails : ∀ e, e ≠ .error .recursionLimit → fails e) {script : Script}
    (hscript : script.Uses Script.Act.Descends fun _ => True) :
    Walk.Settles c fails fun l => perform (eval l) site script := by
  have hown : Admits fails := fun e he => hfails _ fun h => he (.inr (by cases h; rfl))
  induction script with
  | give n => exact Walk.settles_done n
  | fail e => exact Walk.settles_fail (hfails e fun h => hscript.1 (congrArg Script.Act.fail h))
  | wait rest ih => exact (ih () hscript.2).congr fun l => rfl
  | look next ih => exact (ih _ (hscript site.block.clearTrace)).congr fun l => rfl
  | evaluate slot inputs next ih =>
    cases slot with
    | none => exact absurd rfl (hscript.1.2 inputs)
    | some slot =>
      exact (inSlot_settles hown hin slot inputs).bind fun n => ih n (hscript.2 n trivial)

end Rule

/-! ## Evaluating a block -/

/-- The catalogue has blocks of this head search for a zero, or go by a rule of its own. -/
def Catalog.Searches (c : Catalog) (h : Head) : Prop :=
  ∃ entry, c.lookup? h.kind = some entry ∧
    ∀ kind, entry.rule = .ofKind kind → kind = .minimization

@[simp] theorem Catalog.searches_standard (h : Head) :
    standard.Searches h ↔ h.kind = .minimization := by
  simp [Searches]

namespace Block

/-- How the evaluation of a tree can fail if there are levels enough: not for want of levels, and
for a search that found nothing only if a block of the tree searches. -/
def MayFail (c : Catalog) (b : Block) (e : Failure) : Prop :=
  e ≠ .error .recursionLimit ∧
    ∀ limit id, e = .error (.nonConvergence limit id) → ¬ b.Every fun d => ¬ c.Searches d.head

theorem admits_mayFail (c : Catalog) (b : Block) : Rule.Admits (b.MayFail c) := by
  intro e he
  constructor
  · rintro ⟨⟩
    exact he (.inr rfl)
  · rintro limit id ⟨⟩
    exact absurd (.inl rfl) he

/-- As what is in a slot can fail, so can the tree. -/
theorem MayFail.of_slot {c : Catalog} {head : Head} {slots : List Slot} {s : Slot}
    (hs : s ∈ slots) {d : Block} (hd : d ∈ s.occupant) {e : Failure} (h : d.MayFail c e) :
    MayFail c ⟨head, slots⟩ e :=
  ⟨h.1, fun limit id he hfree => h.2 limit id he ((every_mk.mp hfree).2 s hs d hd)⟩

end Block

/-- **Evaluating a block settles**, by the induction on the tree. -/
theorem walk_settles {c : Catalog} (hc : c.Descends) (ceiling : Int) (b : Block) (p : Position)
    (xs : List Int) :
    Walk.Settles c (b.MayFail c) fun l => walk ceiling l ⟨p, b⟩ xs := by
  induction b using Block.induction generalizing p xs with
  | mk head slots ih =>
    have hown := Block.admits_mayFail c ⟨head, slots⟩
    have hin : Rule.SlotsSettle c (Block.MayFail c ⟨head, slots⟩) (walk ceiling)
        ⟨p, ⟨head, slots⟩⟩ := fun s hs d hd p xs =>
      (ih s hs d hd p xs).mono fun _ => Block.MayFail.of_slot hs hd
    cases hentry : c.lookup? head.kind with
    | none =>
      refine (hown.settles (e := .unknownKind head.kind)).succ fun l => ?_
      simp only [walk, Walk.ending, hentry]
    | some entry =>
      have happly (ys : List Int) (h : Walk.Settles c (Block.MayFail c ⟨head, slots⟩) fun l =>
          entry.rule.apply ceiling (walk ceiling l) ⟨p, ⟨head, slots⟩⟩ ys) :
          Walk.Settles c (Block.MayFail c ⟨head, slots⟩) fun l =>
            walk ceiling l ⟨p, ⟨head, slots⟩⟩ ys :=
        h.succ fun l => ending_walk_of_lookup? hentry ceiling l ys
      cases hrule : entry.rule with
      | own script =>
        have hscript := hc _ entry hentry
        rw [hrule] at happly hscript
        refine happly xs (Rule.perform_settles hin (fun e he => ⟨he, fun _ _ _ hfree => ?_⟩)
          (hscript _ xs fun _ _ => trivial))
        refine hfree.root ⟨entry, hentry, fun kind h => ?_⟩
        cases hrule.symm.trans h
      | ofKind kind =>
        rw [hrule] at happly
        cases kind with
        | zero => exact happly xs (Walk.settles_done 0)
        | successor => exact happly xs (Rule.successor_settles hown _ xs)
        | projection => exact happly xs (Rule.projection_settles hown _ xs)
        | composition => exact happly xs (Rule.composition_settles hown hin xs)
        | primitiveRecursion => exact Rule.primitiveRecursion_settles hown hin happly xs
        | minimization =>
          refine happly xs (Rule.minimization_settles hown hin ⟨?_, fun _ _ _ hfree => ?_⟩ xs)
          · intro h
            cases h
          · refine hfree.root ⟨entry, hentry, fun kind h => ?_⟩
            cases hrule.symm.trans h
            rfl
        | custom => exact happly xs (Rule.custom_settles hown hin xs)

/-! ## Evaluating a tree -/

namespace Walk

variable {c : Catalog}

/-- Followed directly, a walk gives its ending or is caught waiting. -/
theorem follow_outcome_cases (w : Walk Int) (on : Bool) (t : Block) (count : Nat) :
    (w.follow c on t count).outcome = (w.ending c).mapError Failure.fault ∨
      (w.follow c on t count).outcome = .error .suspended := by
  induction w generalizing t count with
  | done n => exact .inl rfl
  | fail e => exact .inl rfl
  | step s rest ih => exact ih () _ _
  | wait rest _ => exact .inr rfl
  | look site go ih => exact ih site.block _ _
  | consult kind go ih => exact ih (c.lookup? kind) _ _

/-- Followed step by step, a walk gives its ending or is called off. -/
theorem followStepped_outcome_cases (w : Walk Int) (on : Bool) (halt : Option (Nat × String))
    (t : Block) (taken : List Step) :
    (w.followStepped c on halt t taken).outcome = (w.ending c).mapError Failure.fault ∨
      ∃ message, (w.followStepped c on halt t taken).outcome = .error (.halted message) := by
  induction w generalizing t taken with
  | done n => exact .inl rfl
  | fail e => exact .inl rfl
  | step s rest ih =>
    cases halt with
    | none => exact ih () _ _
    | some call =>
      rw [followStepped]
      split
      · exact .inr ⟨_, rfl⟩
      · exact ih () _ _
  | wait rest ih => exact ih () t taken
  | look site go ih => exact ih site.block t taken
  | consult kind go ih => exact ih (c.lookup? kind) t taken

end Walk

namespace Block

/-- The walk that evaluates a tree settles. -/
theorem walkWithin_settles {c : Catalog} (hc : c.Descends) (options : EvalOptions) (tree : Block)
    (inputs : List Int) :
    Walk.Settles c (tree.MayFail c) fun l => tree.walkWithin l options inputs := by
  refine (walk_settles hc options.ceiling tree.clearTrace [] inputs).mono fun e he => ?_
  refine ⟨he.1, fun limit id hlimit hfree => he.2 limit id hlimit ?_⟩
  refine (every_mapHeads fun d => ?_).mpr hfree
  rw [head_mapHeads]
  rfl

/-- With enough levels no evaluation of a tree fails for want of levels. -/
theorem exists_enough {c : Catalog} (hc : c.Descends) (options : EvalOptions) (tree : Block)
    (inputs : List Int) :
    ∃ enough, ∀ levels, enough ≤ levels →
      (tree.evaluateWithin levels c options inputs).outcome ≠
          .error (.evaluation .recursionLimit) ∧
        (tree.evaluateNotedWithin levels c options inputs).outcome ≠
          .error (.evaluation .recursionLimit) ∧
        ∀ halt, (tree.evaluateSteppedWithin levels c options halt inputs).outcome ≠
          .error (.evaluation .recursionLimit) := by
  obtain ⟨r, hr, enough, hends⟩ := walkWithin_settles hc options tree inputs
  have hne : r.mapError Failure.fault ≠ .error (.evaluation .recursionLimit) := by
    cases r with
    | ok n => exact nofun
    | error e =>
      intro h
      exact (hr e rfl).1 (Failure.fault_eq_evaluation_iff.mp (Except.error.inj h)).1
  refine ⟨enough, fun levels hle => ?_⟩
  have hplain : (tree.evaluateWithin levels c options inputs).outcome ≠
      .error (.evaluation .recursionLimit) := by
    rcases (tree.walkWithin levels options inputs).follow_outcome_cases options.trace tree 0
      with h | h
    · rw [evaluateWithin, h, hends levels hle]
      exact hne
    · rw [evaluateWithin, h]
      exact nofun
  refine ⟨hplain, ?_, fun halt => ?_⟩
  · rw [evaluateNotedWithin]
    by_cases hn : Notable inputs (tree.evaluateWithin levels c options inputs).outcome
    · rw [noted_of_notable hn]
      exact hplain
    · rw [noted_of_not_notable hn]
      exact nofun
  · rcases (tree.walkWithin levels options inputs).followStepped_outcome_cases options.trace halt
      tree [] with h | ⟨message, h⟩
    · rw [evaluateSteppedWithin, h, hends levels hle]
      exact hne
    · rw [evaluateSteppedWithin, h]
      exact nofun

/-- **Primitive recursive functions are total**: a tree that is ready for its inputs, and in which
no block searches, has a value, and the walk ends with it if there are levels enough. -/
theorem Ready.exists_value {tree : Block} {inputs : List Int} (hready : tree.Ready inputs.length)
    (hfree : tree.Every fun d => d.head.kind ≠ .minimization) (options : EvalOptions) :
    ∃ value enough, ∀ levels, enough ≤ levels →
      (tree.walkWithin levels options inputs).ending .standard = .ok value := by
  obtain ⟨r, hr, enough, hends⟩ := walkWithin_settles (Catalog.uses_standard _ _) options tree
    inputs
  cases r with
  | ok value => exact ⟨value, enough, hends⟩
  | error e =>
    have hfail := hr e rfl
    have hsafe : (tree.walkWithin enough options inputs).Safe options.ceiling fun _ => True :=
      walk_safe _ _ ⟨[], tree.clearTrace⟩ inputs hready.clearTrace
    unfold Walk.Safe at hsafe
    rw [hends enough (Nat.le_refl _)] at hsafe
    rcases hsafe with hlevels | ⟨id, hsearch⟩
    · exact absurd hlevels hfail.1
    · refine absurd (hfree.imp fun d hd => ?_) (hfail.2 _ id hsearch)
      rwa [Catalog.searches_standard]

/-- Checking a tree changes no kind. -/
theorem every_kind_of_check {tree checked : Block} {count : Int} {P : Kind → Prop}
    (hcheck : (tree.propagate count).check .standard = (checked, none)) :
    (checked.Every fun d => P d.head.kind) ↔ tree.Every fun d => P d.head.kind := by
  let plain (h : Head) : Head := { h with problems := [], inputCount := 0 }
  have hchecked := mapHeads_checkWithin_eq (f := plain) (fun _ _ => rfl) .standard nestingLimit
    (tree.propagate count)
  have hsame : checked.mapHeads plain = tree.mapHeads plain := by
    rw [check] at hcheck
    rw [hcheck] at hchecked
    exact hchecked.trans (mapHeads_propagate_eq (fun _ _ => rfl) count tree)
  exact every_congr hsame fun d => by rw [head_mapHeads]

/-- **Evaluation terminates, and primitive recursive functions are total.** For every tree, all
inputs and all options there are levels enough that no evaluation fails for want of levels, with
notes or without, step by step or not, whatever the catalogue, as long as rules of its own, of which
the standard one has none, go down the tree only. If moreover the tree is laid out by the standard
catalogue, no block of it searches, and a check for as many inputs as there are finds no problem,
then evaluating it on these inputs gives an integer. With notes the same holds exactly if the inputs
and the integer can be written; otherwise the evaluation fails on its notes. -/
theorem evaluation_terminates (options : EvalOptions) (tree : Block) (inputs : List Int) :
    (∀ c : Catalog, c.Descends → ∃ enough, ∀ levels, enough ≤ levels →
      (tree.evaluateWithin levels c options inputs).outcome ≠
          .error (.evaluation .recursionLimit) ∧
        (tree.evaluateNotedWithin levels c options inputs).outcome ≠
          .error (.evaluation .recursionLimit) ∧
        ∀ halt, (tree.evaluateSteppedWithin levels c options halt inputs).outcome ≠
          .error (.evaluation .recursionLimit)) ∧
    ∀ checked : Block, tree.LaidOut →
      (tree.Every fun b => b.head.kind ≠ .minimization) →
      (tree.propagate inputs.length).check .standard = (checked, none) →
      checked.head.problems = [] →
      ∃ value enough, ∀ levels, enough ≤ levels →
        (checked.evaluateWithin levels .standard options inputs).outcome = .ok value ∧
          (Notable inputs (.ok value) →
            (checked.evaluateNotedWithin levels .standard options inputs).outcome = .ok value) ∧
          (¬ Notable inputs (.ok value) →
            (checked.evaluateNotedWithin levels .standard options inputs).outcome =
              .error .unwritable) := by
  refine ⟨fun c hc => exists_enough hc options tree inputs,
    fun checked hlaid hfree hcheck hnone => ?_⟩
  have hready := ready_of_check hlaid hcheck hnone
  have hfree' : checked.Every fun d => d.head.kind ≠ .minimization :=
    (every_kind_of_check (P := fun kind => kind ≠ .minimization) hcheck).mpr hfree
  obtain ⟨value, enough, hends⟩ := hready.exists_value hfree' options
  refine ⟨value, enough, fun levels hle => ?_⟩
  have hvalue : (checked.evaluateWithin levels .standard options inputs).outcome = .ok value := by
    rw [evaluateWithin_outcome Catalog.prompt_standard, hends levels hle]
    rfl
  refine ⟨hvalue, fun hn => ?_, fun hn => ?_⟩
  · rw [← hvalue] at hn
    exact (noted_of_notable hn).trans hvalue
  · rw [← hvalue] at hn
    exact noted_of_not_notable hn

/-- Adding two numbers by recursion needs no search, so it has a value if there are levels enough,
as for the inputs two and three. -/
theorem evaluation_terminates_plus :
    let checked := ((plus.propagate 2).check .standard).1
    (plus.LaidOut ∧ (plus.Every fun b => b.head.kind ≠ .minimization) ∧
        (plus.propagate 2).check .standard = (checked, none) ∧ checked.head.problems = []) ∧
      ∃ value enough, ∀ levels, enough ≤ levels →
        (checked.evaluateWithin levels .standard {} [2, 3]).outcome = .ok value ∧
          (Notable [2, 3] (.ok value) →
            (checked.evaluateNotedWithin levels .standard {} [2, 3]).outcome = .ok value) ∧
          (¬ Notable [2, 3] (.ok value) →
            (checked.evaluateNotedWithin levels .standard {} [2, 3]).outcome =
              .error .unwritable) := by
  intro checked
  have hfree : plus.Every fun b => b.head.kind ≠ .minimization := by
    simp [plus, every_mk]
  have hcheck : (plus.propagate 2).check .standard = (checked, none) := rfl
  exact ⟨⟨laidOut_plus, hfree, hcheck, rfl⟩,
    (evaluation_terminates {} plus [2, 3]).2 checked laidOut_plus hfree hcheck rfl⟩

end Block

end BlockCalculus
