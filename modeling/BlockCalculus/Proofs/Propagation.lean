import BlockCalculus.Block.Spread
import BlockCalculus.Proofs.Resizing
import BlockCalculus.Proofs.Subtree

/-!
# Numbers of inputs are determined by the root

A loop with a stack (`spread`) and a recursion (`propagate`) both give a tree its numbers of inputs.
The invariant of the loop is the tree that it will end with, which is the present tree with all that
the stack owes done by recursion (`paid`). A round leaves it as it is (`paid_due`), and in the end
nothing is owed, so the loop does what the recursion does (`spread_eq_propagate`).

The result has a number of inputs at the root, and every block below has the number that the rule of
its slot makes of the number of the block around it. There is only one such tree that differs from
the given one in numbers of inputs alone (`eq_propagate_iff`).

* `spread_only_solution`: the main result.
-/

namespace BlockCalculus

namespace Block

/-! ## The loop does what the recursion does -/

/-- The tree with the trees at the positions on a stack done by recursion. -/
def paid (tree : Block) (stack : List (Position × Int)) : Block :=
  stack.foldl (fun t entry => t.modifyAt (propagate entry.2) entry.1) tree

@[simp] theorem paid_nil (tree : Block) : paid tree [] = tree :=
  rfl

@[simp] theorem paid_cons (tree : Block) (entry : Position × Int) (rest : List (Position × Int)) :
    paid tree (entry :: rest) = paid (tree.modifyAt (propagate entry.2) entry.1) rest :=
  rfl

theorem paid_append (tree : Block) (stack rest : List (Position × Int)) :
    paid tree (stack ++ rest) = paid (paid tree stack) rest :=
  List.foldl_append

/-- What is owed below a position can be done on the block there. -/
theorem paid_below (tree : Block) (p : Position) (f : Block → Block)
    (stack : List (Position × Int)) :
    paid (tree.modifyAt f p) (stack.map fun entry => (p ++ entry.1, entry.2)) =
      tree.modifyAt (fun b => paid (f b) stack) p := by
  induction stack generalizing f with
  | nil => rfl
  | cons entry rest ih =>
    rw [List.map_cons, paid_cons, modifyAt_append, modifyAt_modifyAt, ih]
    rfl

theorem due_eq_map (p : Position) (count : Int) (b : Block) :
    due p count b = (due [] count b).map fun entry => (p ++ entry.1, entry.2) := by
  simp [due, List.map_filterMap, Function.comp_def]

/-- Slot by slot, what a block owes is done by recursion. -/
theorem paid_slots (head : Head) (count : Int) (done todo : List Slot) :
    paid ⟨head, done ++ todo⟩ ((todo.zipIdx done.length).filterMap fun (s, i) =>
        s.occupant.map fun _ => ([i], s.shape.inputs count)) =
      ⟨head, done ++ todo.map (Slot.within fun shape => propagate (shape.inputs count))⟩ := by
  induction todo generalizing done with
  | nil => simp
  | cons s rest ih =>
    obtain ⟨shape, occupant⟩ := s
    cases occupant with
    | none =>
      have hrest := ih (done ++ [⟨shape, none⟩])
      simpa [List.zipIdx_cons, Slot.within] using hrest
    | some c =>
      have hrest := ih (done ++ [⟨shape, some (c.propagate (shape.inputs count))⟩])
      have hfirst : modifyAt (propagate (shape.inputs count)) [done.length]
          ⟨head, done ++ ⟨shape, some c⟩ :: rest⟩ =
            ⟨head, done ++ ⟨shape, some (c.propagate (shape.inputs count))⟩ :: rest⟩ :=
        modifyAt_slot _ [] head done rest shape c
      simpa [List.zipIdx_cons, Slot.within, hfirst] using hrest

/-- **A round of the loop does not change where it leads**: a block with its number of inputs owes
what the recursion does below it. -/
theorem paid_due {tree b : Block} {p : Position} (hb : tree.at? p = some b) (count : Int) :
    paid (tree.modifyAt (recount count) p) (due p count b) = tree.modifyAt (propagate count) p := by
  rw [due_eq_map, paid_below]
  refine modifyAt_congr hb ?_
  obtain ⟨head, slots⟩ := b
  rw [propagate_mk]
  exact paid_slots { head with inputCount := count } count [] slots

/-- The loop ends with the tree in which all that it owes is done. -/
theorem spreadOn_eq_paid (tree : Block) (stack : List (Position × Int)) :
    spreadOn tree stack = paid tree stack := by
  fun_induction spreadOn tree stack with
  | case1 tree => rfl
  | case2 tree p count rest hp ih => rw [ih, paid_cons, modifyAt_eq_self (by simp [hp])]
  | case3 tree p count rest b hb ih => rw [ih, paid_append, paid_due hb, paid_cons]

/-- **The loop does what the recursion does.** -/
theorem spread_eq_propagate (count : Int) (tree : Block) :
    tree.spread count = tree.propagate count :=
  spreadOn_eq_paid tree [([], count)]

/-! ## The only solution -/

/-- A tree without its numbers of inputs. -/
def uncounted (b : Block) : Block :=
  b.mapHeads fun h => { h with inputCount := 0 }

theorem uncounted_propagate (count : Int) (b : Block) :
    (b.propagate count).uncounted = b.uncounted :=
  mapHeads_propagate_eq (fun _ _ => rfl) count b

/-- Numbers of inputs that were there before make no difference. -/
theorem propagate_uncounted (count : Int) (b : Block) :
    b.uncounted.propagate count = b.propagate count := by
  let next (n : Int) (shape : SlotShape) : Int := shape.inputs n
  have hforget := descends_mapHeads next fun h => { h with inputCount := 0 }
  have hcount := descends_propagate next id fun _ _ => rfl
  exact (hforget.comp hcount).unique hcount (fun _ _ => rfl) count b

/-- **Numbers of inputs that follow from the root are those that the recursion gives.** -/
theorem eq_propagate_iff {count : Int} {root t : Block} :
    t = root.propagate count ↔
      t.uncounted = root.uncounted ∧ t.head.inputCount = count ∧ t.Every CountsFollow := by
  constructor
  · rintro rfl
    refine ⟨uncounted_propagate count root, ?_, countsFollow_propagate count root⟩
    rw [head_propagate]
  · rintro ⟨hsame, rfl, hfollow⟩
    calc t = t.propagate t.head.inputCount := (propagate_of_countsFollow hfollow).symm
      _ = t.uncounted.propagate t.head.inputCount := (propagate_uncounted _ t).symm
      _ = root.uncounted.propagate t.head.inputCount := by rw [hsame]
      _ = root.propagate t.head.inputCount := propagate_uncounted _ root

/-- **Giving a tree its numbers of inputs has one outcome.** The loop does what the recursion does.
The outcome is the only tree that has the number of inputs given at its root, keeps the rule of
every slot, and differs from the tree before in numbers of inputs alone. Numbers of inputs given
earlier are forgotten. -/
theorem spread_only_solution (root : Block) (count : Int) :
    root.spread count = root.propagate count ∧
    (∀ t : Block, t = root.spread count ↔
      t.uncounted = root.uncounted ∧ t.head.inputCount = count ∧ t.Every CountsFollow) ∧
    ∀ earlier : Int, (root.spread earlier).spread count = root.spread count := by
  refine ⟨spread_eq_propagate count root, fun t => ?_, fun earlier => ?_⟩
  · rw [spread_eq_propagate]
    exact eq_propagate_iff
  · rw [spread_eq_propagate, spread_eq_propagate, spread_eq_propagate, propagate_propagate]

end Block

end BlockCalculus
