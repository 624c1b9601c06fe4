import BlockCalculus.Proofs.Comparison
import BlockCalculus.Proofs.Ids
import BlockCalculus.Proofs.Trace

/-!
# Notes mirror the steps

A traced evaluation notes on a block what it got and gave whenever the block has got a value. Blocks
are evaluated again and again, at different depths of a recursion, and the evaluation may fail or be
called off deep inside. All the same the notes can be read off the list of steps alone: a block
bears its last step, and a block without a step bears what it bore (`Block.bearing`).

Steps are noted by position and looked up by id. Every step is taken at a block of the tree
(`steps_at?`), so if ids are distinct the two come to the same (`Step.lastAt?_eq_lastOf?`).
-/

namespace BlockCalculus

/-! ## Steps are taken at blocks of the tree -/

/-- Sites at which a block of the tree stands, each with itself. -/
def Site.Stands (tree : Block) (s s' : Site) : Prop :=
  s = s' ∧ tree.at? s.position = some s.block

/-- Every step of the first walk is taken at a block of the tree. -/
def Comparison.stepsStand (c : Catalog) (tree : Block) : Comparison c (Site.Stands tree) where
  Rel w _ := ∀ s ∈ w.steps c, tree.at? s.position = some s.block
  done _ := nofun
  bind := by
    intro α β w w' next next' hw hnext
    rw [Walk.steps_bind]
    cases w.ending c with
    | error e =>
      simp only [List.append_nil]
      exact hw
    | ok a =>
      intro s hs
      exact (List.mem_append.mp hs).elim (hw s) (hnext a s)
  wait h := h
  look hs h := h _ _ hs
  consult h := h

theorem Comparison.pairs_stepsStand (c : Catalog) (tree : Block) : (stepsStand c tree).Pairs where
  kind h := by rw [h.1]
  param h name := by rw [h.1]
  seek := by
    rintro s _ ⟨rfl, hs⟩ name
    cases hseek : Slot.seek? name s.block.slots with
    | none => exact .inl ⟨rfl, rfl⟩
    | some found =>
      exact .inr ⟨found.1, found.2, found.2, rfl, rfl, rfl, Block.at?_of_seek? hs hseek⟩
  own := c.ignores_eq.mono fun b b' ⟨s, s', hs, hb, hb'⟩ => by rw [hb, hb', hs.1]
  fail _ _ _ _ := nofun

/-- **Evaluation takes its steps at blocks of the tree**, whatever the catalogue. -/
theorem steps_at? (c : Catalog) (ceiling : Int) (levels : Nat) {tree : Block} (site : Site)
    (hsite : tree.at? site.position = some site.block) (inputs : List Int) :
    ∀ s ∈ (walk ceiling levels site inputs).steps c, tree.at? s.position = some s.block := by
  have hpairs := Comparison.pairs_stepsStand c tree
  refine walk_related 0 hpairs ?_ ?_ (fun _ => Rule.extends_self hpairs _ ceiling) levels site site
    inputs ⟨rfl, hsite⟩
  · rintro site _ inputs r ⟨rfl, hs⟩ s hmem
    obtain rfl := List.mem_singleton.mp hmem
    exact hs
  · exact fun _ _ _ _ => nofun

/-! ## The last step of a block -/

/-- The last of some steps at the block of an id. -/
def Step.lastOf? (id : String) (steps : List Step) : Option Step :=
  (steps.filter fun s => s.block.head.id == id).getLast?

/-- The tree on which every block bears the last of its steps, over what it bore. Nothing else is
changed. -/
def Block.bearing (steps : List Step) (tree : Block) : Block :=
  tree.mapHeads fun h => ((Step.lastOf? h.id steps).map fun s => s.mark h).getD h

/-- A position of a tree without its notes is one of the tree, with the same block. -/
theorem Block.exists_at?_of_clearTrace {tree c : Block} {p : Position}
    (h : tree.clearTrace.at? p = some c) : ∃ b, tree.at? p = some b ∧ b.clearTrace = c := by
  rw [clearTrace, at?_mapHeads] at h
  exact Option.map_eq_some_iff.mp h

@[simp]
theorem Block.id_clearTrace (b : Block) : b.clearTrace.head.id = b.head.id := by
  rw [clearTrace, head_mapHeads]

/-- **In a tree with distinct ids the last step at a position is the last step of its block.** -/
theorem Step.lastAt?_eq_lastOf? {tree b : Block} (hids : tree.DistinctIds) {steps : List Step}
    (hsteps : ∀ s ∈ steps, tree.clearTrace.at? s.position = some s.block) {p : Position}
    (hb : tree.at? p = some b) : lastAt? p steps = lastOf? b.head.id steps := by
  unfold lastAt? lastOf?
  congr 1
  refine List.filter_congr fun s hs => ?_
  obtain ⟨d, hd, hcleared⟩ := Block.exists_at?_of_clearTrace (hsteps s hs)
  rw [← hcleared, Block.id_clearTrace, Bool.eq_iff_iff, beq_iff_eq, beq_iff_eq]
  constructor
  · intro hp
    rw [hp, hb] at hd
    rw [Option.some.inj hd]
  · exact fun hsame => hids.position_eq hd hb hsame

/-- **Noting steps one after the other makes every block bear its last one.** -/
theorem Walk.traced_eq_bearing {tree : Block} (hids : tree.DistinctIds) {steps : List Step}
    (hsteps : ∀ s ∈ steps, tree.clearTrace.at? s.position = some s.block) :
    traced true steps tree = tree.bearing steps := by
  refine Block.ext_at? (f := fun h => { h with lastInput := none, lastOutput := none }) ?_ ?_
  · -- Without notes, both are the tree that there was.
    refine (clearTrace_traced true steps tree).trans ?_
    rw [Block.bearing, Block.mapHeads_mapHeads, Block.clearTrace]
    congr 1
    funext h
    cases Step.lastOf? h.id steps <;> rfl
  · intro p
    rw [head_at?_traced, Block.bearing, Block.at?_mapHeads, Option.map_map]
    refine Option.map_congr fun b hb => ?_
    rw [Function.comp_apply, Block.head_mapHeads, Step.lastAt?_eq_lastOf? hids hsteps hb]

/-! ## Evaluations -/

theorem Walk.traced_false (steps : List Step) (t : Block) : traced false steps t = t := by
  induction steps generalizing t with
  | nil => rfl
  | cons s rest ih => exact ih t

namespace Block

section Bearing

variable {c : Catalog} {levels : Nat} {options : EvalOptions} {tree : Block} {inputs : List Int}

theorem evaluateSteppedWithin_steps :
    (tree.evaluateSteppedWithin levels c options none inputs).steps =
      (tree.walkWithin levels options inputs).steps c :=
  congrArg Walk.Stepped.steps (Walk.followStepped_eq _ _ _ _)

/-- Direct evaluation leaves the tree that its first steps make, as many as it counts. -/
theorem evaluateWithin_traced :
    (tree.evaluateWithin levels c options inputs).tree =
      Walk.traced options.trace
        (((tree.walkWithin levels options inputs).steps c).take
          (tree.evaluateWithin levels c options inputs).steps) tree := by
  obtain ⟨ran, hpre, htree, hcount⟩ :=
    Walk.follow_traced (c := c) (tree.walkWithin levels options inputs) options.trace tree 0
  unfold evaluateWithin
  rw [hcount, Nat.zero_add, ← List.prefix_iff_eq_take.mp hpre]
  exact htree

/-- Unless it is refused for waiting, direct evaluation counts all steps. -/
theorem evaluateWithin_steps
    (h : (tree.evaluateWithin levels c options inputs).outcome ≠ .error .suspended) :
    (tree.evaluateWithin levels c options inputs).steps =
      ((tree.walkWithin levels options inputs).steps c).length := by
  refine (congrArg Evaluated.steps ((Walk.follow_cases _ _ _ _).resolve_left h)).trans ?_
  exact Nat.zero_add _

/-- Notes in words leave the tree alone. An evaluation whose inputs cannot be written is none. -/
theorem tree_noted (evaluation : Unit → Evaluated) :
    (tree.noted inputs evaluation).tree =
      if inputs.all Text.isWritable then (evaluation ()).tree else tree := by
  unfold noted
  split
  · dsimp only
    split
    · rfl
    · split <;> rfl
  · rfl

end Bearing

/-- **Notes mirror the steps.** Let the ids of a tree be distinct. Evaluated with a trace, step by
step, and called off at some step or not, the tree is left as it was, but every block bears the
inputs and the value of the last step that was taken at it, if there was one. Direct evaluation
leaves the same, for the steps that it counts: all of them, unless it is refused for waiting. With
notes in words it leaves the same too, unless the inputs cannot be written: then nothing is
evaluated. Without a trace every way to evaluate leaves the tree as it was. -/
theorem notes_mirror_steps {tree : Block} (hids : tree.DistinctIds) (levels : Nat) (c : Catalog)
    (options : EvalOptions) (inputs : List Int) :
    let stepped halt := tree.evaluateSteppedWithin levels c options halt inputs
    let direct := tree.evaluateWithin levels c options inputs
    let noted := tree.evaluateNotedWithin levels c options inputs
    (options.trace = true →
      (∀ halt, (stepped halt).tree = tree.bearing (stepped halt).steps) ∧
        direct.tree = tree.bearing ((stepped none).steps.take direct.steps) ∧
        (direct.outcome ≠ .error .suspended → direct.steps = (stepped none).steps.length)) ∧
      (options.trace = false → (∀ halt, (stepped halt).tree = tree) ∧ direct.tree = tree) ∧
      noted.tree = if inputs.all Text.isWritable then direct.tree else tree := by
  intro stepped direct noted
  have hat : ∀ s ∈ (tree.walkWithin levels options inputs).steps c,
      tree.clearTrace.at? s.position = some s.block :=
    steps_at? c options.ceiling levels ⟨[], tree.clearTrace⟩ (at?_nil _) inputs
  have hfull : (stepped none).steps = (tree.walkWithin levels options inputs).steps c :=
    evaluateSteppedWithin_steps
  have hdirect : direct.tree = _ := evaluateWithin_traced
  refine ⟨fun htrace => ⟨fun halt => ?_, ?_, fun hwaits => ?_⟩,
    fun htrace => ⟨fun halt => ?_, ?_⟩, tree_noted _⟩
  · obtain ⟨hpre, htree⟩ := evaluateSteppedWithin_traced (c := c) levels options halt tree inputs
    rw [htrace] at htree
    exact htree.trans (Walk.traced_eq_bearing hids fun s hs => hat s (hpre.subset hs))
  · rw [hdirect, htrace, hfull]
    exact Walk.traced_eq_bearing hids fun s hs => hat s (List.mem_of_mem_take hs)
  · rw [hfull]
    exact evaluateWithin_steps hwaits
  · obtain ⟨-, htree⟩ := evaluateSteppedWithin_traced (c := c) levels options halt tree inputs
    rw [htrace] at htree
    exact htree.trans (Walk.traced_false _ _)
  · rw [hdirect, htrace]
    exact Walk.traced_false _ _

theorem distinctIds_plus : plus.DistinctIds := by
  decide +kernel

/-- Two and one are added and the evaluation is called off at its third step. By then the sum has
got its value at zero only, so that is what it bears. Its base case bears its only step, and the
successor, which was not yet evaluated, bears nothing. In the end the sum bears two, one and
three. -/
theorem notes_mirror_steps_plus :
    let options : EvalOptions := { trace := true }
    let run halt := plus.evaluateSteppedWithin evaluationLimit .standard options halt [2, 1]
    let halted := run (some (3, "Stop"))
    let bears (t : Block) (p : Position) :=
      (t.at? p).map fun b => (b.head.lastInput, b.head.lastOutput)
    plus.DistinctIds ∧ halted.tree = plus.bearing halted.steps ∧
      bears halted.tree [] = some (some [2, 0], some 2) ∧
      bears halted.tree [0] = some (some [2], some 2) ∧
      bears halted.tree [1, 0] = some (none, none) ∧
      (run none).tree = plus.bearing (run none).steps ∧
      (plus.evaluateWithin evaluationLimit .standard options [2, 1]).tree =
        plus.bearing ((run none).steps.take 6) ∧
      bears (run none).tree [] = some (some [2, 1], some 3) := by
  intro options run halted bears
  obtain ⟨htraced, -⟩ :=
    notes_mirror_steps distinctIds_plus evaluationLimit .standard options [2, 1]
  obtain ⟨hstepped, hdirect, -⟩ := htraced rfl
  exact ⟨distinctIds_plus, hstepped _, rfl, rfl, rfl, hstepped _, hdirect, rfl⟩

end Block

end BlockCalculus
