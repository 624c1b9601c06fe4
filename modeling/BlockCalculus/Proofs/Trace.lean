import BlockCalculus.Proofs.Stepped

/-!
# What a traced evaluation leaves on the tree

A step notes its inputs and its value on the block where it was taken, over what was noted there
before. So what a block bears in the end is what the last step at its position put there, and a
block at whose position no step was taken bears what it bore (`Walk.head_at?_traced`).

However an evaluation is followed, and wherever it is called off, the tree that it leaves is the one
that the steps taken make of the tree it began with (`Block.evaluateWithin_tree`,
`Block.evaluateSteppedWithin_traced`).
-/

namespace BlockCalculus

/-- A change of the head at one position is seen there and nowhere else. -/
theorem Block.head_at?_modifyAt (f : Head → Head) (p q : Position) (t : Block) :
    ((t.modifyAt (fun b => { b with head := f b.head }) q).at? p).map Block.head =
      (t.at? p).map fun b => if q = p then f b.head else b.head := by
  induction q generalizing p t with
  | nil =>
    cases p with
    | nil => simp [modifyAt]
    | cons i rest =>
      rw [modifyAt, at?, at?]
      simp
  | cons j q ih =>
    cases p with
    | nil => simp [modifyAt]
    | cons i rest =>
      rw [modifyAt, at?, at?, List.getElem?_modify]
      by_cases hij : j = i
      · subst hij
        cases hs : t.slots[j]? with
        | none => simp
        | some s =>
          obtain ⟨shape, occupant⟩ := s
          cases occupant with
          | none => simp
          | some b => simpa using ih rest b
      · simp [hij]

/-- The last of some steps at a position. -/
def Step.lastAt? (p : Position) (steps : List Step) : Option Step :=
  (steps.filter fun s => s.position == p).getLast?

theorem Step.lastAt?_cons (p : Position) (s : Step) (steps : List Step) :
    lastAt? p (s :: steps) =
      if s.position = p then some ((lastAt? p steps).getD s) else lastAt? p steps := by
  unfold lastAt?
  by_cases h : s.position = p
  · rw [if_pos h, List.filter_cons_of_pos (by simpa using h), List.getLast?_cons]
  · rw [if_neg h, List.filter_cons_of_neg (by simpa using h)]

/-- A last step at a position is one of the steps, and at that position. -/
theorem Step.mem_of_lastAt? {p : Position} {steps : List Step} {s : Step}
    (h : lastAt? p steps = some s) : s ∈ steps ∧ s.position = p := by
  have hmem := List.mem_filter.mp (List.mem_of_getLast? h)
  exact ⟨hmem.1, by simpa using hmem.2⟩

theorem Step.lastAt?_eq_none {p : Position} {steps : List Step} :
    lastAt? p steps = none ↔ ∀ s ∈ steps, s.position ≠ p := by
  simp [lastAt?]

/-- **A traced block bears what the last step at its position noted**, or what it bore before if
there was none. -/
theorem Walk.head_at?_traced (steps : List Step) (t : Block) (p : Position) :
    ((traced true steps t).at? p).map Block.head =
      (t.at? p).map fun b => ((Step.lastAt? p steps).map fun s => s.mark b.head).getD b.head := by
  induction steps generalizing t with
  | nil => simp [traced, Step.lastAt?]
  | cons s rest ih =>
    have hrecord : ((s.record t).at? p).map Block.head =
        (t.at? p).map fun b => if s.position = p then s.mark b.head else b.head :=
      Block.head_at?_modifyAt _ _ _ _
    -- What the later steps note, they note on what this one has left.
    let note (h : Head) : Head := ((Step.lastAt? p rest).map fun s => s.mark h).getD h
    have hnote : ((s.record t).at? p).map (fun b => note b.head) =
        (t.at? p).map fun b => note (if s.position = p then s.mark b.head else b.head) := by
      simpa [Option.map_map, Function.comp_def] using congrArg (Option.map note) hrecord
    refine (ih (s.record t)).trans (hnote.trans (Option.map_congr fun b _ => ?_))
    dsimp only [note]
    rw [Step.lastAt?_cons]
    by_cases hp : s.position = p
    · rw [if_pos hp, if_pos hp]
      cases Step.lastAt? p rest <;> rfl
    · rw [if_neg hp, if_neg hp]

namespace Walk

variable {c : Catalog}

/-- However a walk is followed directly, the steps counted are the first ones of the walk, and they
make the tree that is left. -/
theorem follow_traced (w : Walk Int) (on : Bool) (t : Block) (count : Nat) :
    ∃ ran, ran <+: w.steps c ∧ (w.follow c on t count).tree = traced on ran t ∧
      (w.follow c on t count).steps = count + ran.length := by
  induction w generalizing t count with
  | done n => exact ⟨[], List.nil_prefix, rfl, rfl⟩
  | fail e => exact ⟨[], List.nil_prefix, rfl, rfl⟩
  | step s rest ih =>
    obtain ⟨ran, hpre, htree, hsteps⟩ := ih () (trace on s t) (count + 1)
    refine ⟨s :: ran, List.cons_prefix_cons.mpr ⟨rfl, hpre⟩, htree, hsteps.trans ?_⟩
    rw [List.length_cons]
    omega
  | wait rest _ => exact ⟨[], List.nil_prefix, rfl, rfl⟩
  | look site go ih => exact ih site.block t count
  | consult kind go ih => exact ih (c.lookup? kind) t count

/-- However a walk is followed step by step, the steps taken are the first ones of the walk, and
they make the tree that is left. -/
theorem followStepped_traced (w : Walk Int) (on : Bool) (halt : Option (Nat × String)) (t : Block)
    (taken : List Step) :
    ∃ ran, ran <+: w.steps c ∧ (w.followStepped c on halt t taken).tree = traced on ran t ∧
      (w.followStepped c on halt t taken).steps = taken.reverse ++ ran := by
  induction w generalizing t taken with
  | done n => exact ⟨[], List.nil_prefix, rfl, (List.append_nil _).symm⟩
  | fail e => exact ⟨[], List.nil_prefix, rfl, (List.append_nil _).symm⟩
  | step s rest ih =>
    obtain ⟨ran, hpre, htree, hsteps⟩ := ih () (trace on s t) (s :: taken)
    have hgoes : ∃ ran, ran <+: s :: (rest ()).steps c ∧
        ((rest ()).followStepped c on halt (trace on s t) (s :: taken)).tree = traced on ran t ∧
        ((rest ()).followStepped c on halt (trace on s t) (s :: taken)).steps =
          taken.reverse ++ ran :=
      ⟨s :: ran, List.cons_prefix_cons.mpr ⟨rfl, hpre⟩, htree, by simp [hsteps]⟩
    cases halt with
    | none => exact hgoes
    | some call =>
      rw [followStepped]
      split
      · exact ⟨[s], List.cons_prefix_cons.mpr ⟨rfl, List.nil_prefix⟩, rfl, by simp⟩
      · exact hgoes
  | wait rest ih => exact ih () t taken
  | look site go ih => exact ih site.block t taken
  | consult kind go ih => exact ih (c.lookup? kind) t taken

end Walk

namespace Block

variable {c : Catalog}

/-- Direct evaluation leaves the tree that the steps of the walk make. -/
theorem evaluateWithin_tree (hc : c.Prompt) (levels : Nat) (options : EvalOptions) (tree : Block)
    (inputs : List Int) :
    (tree.evaluateWithin levels c options inputs).tree =
      Walk.traced options.trace ((tree.walkWithin levels options inputs).steps c) tree := by
  have hnot := evaluateWithin_ne_suspended hc levels options tree inputs
  exact congrArg Evaluated.tree ((Walk.follow_cases _ _ _ _).resolve_left hnot)

/-- Stepped evaluation leaves the tree that the steps taken make, and these are the first steps of
the walk. -/
theorem evaluateSteppedWithin_traced (levels : Nat) (options : EvalOptions)
    (halt : Option (Nat × String)) (tree : Block) (inputs : List Int) :
    (tree.evaluateSteppedWithin levels c options halt inputs).steps <+:
        (tree.walkWithin levels options inputs).steps c ∧
      (tree.evaluateSteppedWithin levels c options halt inputs).tree =
        Walk.traced options.trace (tree.evaluateSteppedWithin levels c options halt inputs).steps
          tree := by
  obtain ⟨ran, hpre, htree, hsteps⟩ :=
    Walk.followStepped_traced (c := c) (tree.walkWithin levels options inputs) options.trace halt
      tree []
  rw [List.reverse_nil, List.nil_append] at hsteps
  unfold evaluateSteppedWithin
  rw [hsteps]
  exact ⟨hpre, htree⟩

end Block

end BlockCalculus
