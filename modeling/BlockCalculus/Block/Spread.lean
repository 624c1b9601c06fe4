import BlockCalculus.Block.Arity

/-!
# Numbers of inputs by a stack

`propagate` goes down a tree by recursion. `spread` does the same in a loop, so no tree is too deep
for it: it keeps on a stack the positions of the blocks still to visit, each with the number of
inputs that its block is to get. A round takes one off, gives the block there its number, and puts
what is in its slots on the stack, first slot on top. The tree changes from round to round, and each
round reads it as it is then.

A round owes one block less than the one before (`owed_due`), so the loop ends.
-/

namespace BlockCalculus

namespace Block

/-- Gives a block a number of inputs and leaves what is in its slots alone. -/
def recount (count : Int) (b : Block) : Block :=
  { b with head.inputCount := count }

/-- What follows for the slots of a block that stands at `p` and has `count` inputs: the position of
each occupant, and the number of inputs it is to get. -/
def due (p : Position) (count : Int) (b : Block) : List (Position × Int) :=
  b.slots.zipIdx.filterMap fun (s, i) => s.occupant.map fun _ => (p ++ [i], s.shape.inputs count)

/-! ## The blocks that a stack owes -/

/-- The number of blocks of the tree at a position. -/
def sizeAt (tree : Block) (p : Position) : Nat :=
  ((tree.at? p).map size).getD 0

/-- The number of blocks of the trees at the positions on a stack. -/
def owed (tree : Block) : List (Position × Int) → Nat
  | [] => 0
  | entry :: rest => sizeAt tree entry.1 + owed tree rest

theorem owed_append (tree : Block) (stack rest : List (Position × Int)) :
    owed tree (stack ++ rest) = owed tree stack + owed tree rest := by
  induction stack with
  | nil => simp [owed]
  | cons entry stack ih => simp [owed, ih, Nat.add_assoc]

theorem sizeAll_modify {f : Block → Block} (hf : ∀ c, (f c).size = c.size) (i : Nat)
    (slots : List Slot) :
    sizeAll (slots.modify i fun s => { s with occupant := s.occupant.map f }) = sizeAll slots := by
  induction slots generalizing i with
  | nil => simp
  | cons s rest ih =>
    obtain ⟨shape, occupant⟩ := s
    cases i with
    | zero => cases occupant <;> simp [sizeAll, hf]
    | succ i => cases occupant <;> simp [sizeAll, ih]

theorem size_modifyAt_recount (count : Int) (p : Position) (tree : Block) :
    (tree.modifyAt (recount count) p).size = tree.size := by
  induction p generalizing tree with
  | nil => rw [modifyAt, recount, size_eq, size_eq]
  | cons i rest ih => rw [modifyAt, size_eq, size_eq, sizeAll_modify ih]

/-- Giving a block its number changes no size anywhere. -/
theorem sizeAt_modifyAt_recount (count : Int) (p q : Position) (tree : Block) :
    sizeAt (tree.modifyAt (recount count) p) q = sizeAt tree q := by
  unfold sizeAt
  induction q generalizing p tree with
  | nil => simp [size_modifyAt_recount]
  | cons j q ih =>
    cases p with
    | nil => rw [modifyAt, at?, at?, recount]
    | cons i p =>
      rw [modifyAt, at?, at?, List.getElem?_modify]
      by_cases hij : i = j
      · cases hs : tree.slots[j]? with
        | none => simp
        | some s =>
          obtain ⟨shape, occupant⟩ := s
          cases occupant with
          | none => simp [hij]
          | some c => simpa [hij] using ih p c
      · simp [hij]

theorem owed_modifyAt_recount (count : Int) (p : Position) (tree : Block)
    (stack : List (Position × Int)) :
    owed (tree.modifyAt (recount count) p) stack = owed tree stack := by
  induction stack with
  | nil => rfl
  | cons entry rest ih => rw [owed, owed, ih, sizeAt_modifyAt_recount]

/-- What a block leaves on the stack is what is in its slots. -/
theorem owed_due {tree b : Block} {p : Position} (h : tree.at? p = some b) (count : Int) :
    owed tree (due p count b) = sizeAll b.slots := by
  have hslots (before after : List Slot) (hb : b.slots = before ++ after) :
      owed tree ((after.zipIdx before.length).filterMap fun (s, i) =>
        s.occupant.map fun _ => (p ++ [i], s.shape.inputs count)) = sizeAll after := by
    induction after generalizing before with
    | nil => simp [owed, sizeAll]
    | cons s rest ih =>
      have hget : b.slots[before.length]? = some s := by simp [hb]
      have hrest := ih (before ++ [s]) (by simpa using hb)
      rw [List.length_append, List.length_singleton] at hrest
      obtain ⟨shape, occupant⟩ := s
      cases occupant with
      | none => simpa [List.zipIdx_cons, sizeAll] using hrest
      | some c =>
        have hat : tree.at? (p ++ [before.length]) = some c := by
          simp [at?_append, h, at?, hget]
        simp [List.zipIdx_cons, owed, sizeAll, sizeAt, hat, hrest]
  exact hslots [] b.slots rfl

/-! ## The loop -/

/-- Gives the blocks on a stack their numbers of inputs, and the blocks below them the numbers that
follow (`propagate_input_count`). -/
def spreadOn (tree : Block) (stack : List (Position × Int)) : Block :=
  match stack with
  | [] => tree
  | (p, count) :: rest =>
    match _ : tree.at? p with
    | none => spreadOn tree rest
    | some b => spreadOn (tree.modifyAt (recount count) p) (due p count b ++ rest)
termination_by (owed tree stack, stack.length)
decreasing_by
  · rename_i hb
    simp [owed, sizeAt, hb, Prod.lex_def]
  · rename_i hb
    apply Prod.Lex.left
    rw [owed_modifyAt_recount, owed_append, owed_due hb, owed]
    simp only [sizeAt, hb, Option.map_some, Option.getD_some, size_eq]
    omega

/-- Gives the root a number of inputs, and every other block the number that follows from it. -/
def spread (count : Int) (tree : Block) : Block :=
  spreadOn tree [([], count)]

end Block

end BlockCalculus
