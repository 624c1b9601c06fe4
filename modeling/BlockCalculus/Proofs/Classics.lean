import BlockCalculus.Proofs.Kleene
import BlockCalculus.Proofs.Resizing
import Mathlib.Data.List.Forall2

/-!
# The classic functions as trees

Addition, multiplication, predecessor, difference and a search for the identity, put together block
by block at a desk. What a piece of work at a desk yields (`Build.Yields`) is known from what its
pieces yield: for one block its kind and what is in its slots, for a tree its values.

A recursion is as good as the sequence of its values (`IsRecursion.computes`), and a composition as
good as the values of its parts (`IsComposition.computes`). So the value of a classic tree takes one
sequence: `x + k`, `x * k`, `k - 1` or `x - k`. A search that finds no zero below the ceiling fails
for that reason, with enough levels to descend (`minimization_tends`).

* `yields_sum`, `yields_product`, `yields_predecessor`, `yields_difference`: the values of the
  trees.
* `evaluatesTo_of_tends`: what a walk tends to is what all ways of evaluating a tree come to.
* `classic_trees_compute`: the main result.
-/

namespace BlockCalculus

/-! ## Work with a known result -/

namespace Build

variable {α β : Type} {P : α → Prop} {Q : β → Prop}

/-- The work comes to a result with a property, at every desk. -/
def Yields (work : Build α) (P : α → Prop) : Prop :=
  ∀ desk, ∃ a desk', work.outcome desk = (.ok a, desk') ∧ P a

theorem Yields.pure {a : α} (h : P a) : Yields (Pure.pure a) P :=
  fun desk => ⟨a, desk, rfl, h⟩

theorem Yields.imp {work : Build α} {R : α → Prop} (hwork : work.Yields P)
    (h : ∀ a, P a → R a) : work.Yields R := by
  intro desk
  obtain ⟨a, desk', houtcome, ha⟩ := hwork desk
  exact ⟨a, desk', houtcome, h a ha⟩

theorem Yields.map {work : Build α} {f : α → β} (hwork : work.Yields P)
    (h : ∀ a, P a → Q (f a)) : (f <$> work).Yields Q := by
  intro desk
  obtain ⟨a, desk', houtcome, ha⟩ := hwork desk
  refine ⟨f a, desk', ?_, h a ha⟩
  rw [outcome_map, houtcome]
  rfl

theorem Yields.bind {work : Build α} {next : α → Build β} (hwork : work.Yields P)
    (hnext : ∀ a, P a → (next a).Yields Q) : (work >>= next).Yields Q := by
  intro desk
  obtain ⟨a, between, houtcome, ha⟩ := hwork desk
  obtain ⟨b, desk', hb, hQ⟩ := hnext a ha between
  exact ⟨b, desk', (outcome_bind_of_ok houtcome next).trans hb, hQ⟩

end Build

namespace Block

/-! ## Filling slots -/

section Place

variable {name other : String} {occupant : Option Block} {b : Block}

theorem names_place : (b.place name occupant).slots.map (fun s => s.shape.name) =
    b.slots.map fun s => s.shape.name := by
  have hshapes := congrArg (List.map SlotShape.name) (place_spec name occupant b.slots).1
  simpa [place, Slot.shapes, Function.comp_def] using hshapes

/-- A slot holds what was put into it. -/
theorem child?_place (h : name ∈ b.slots.map fun s => s.shape.name) :
    (b.place name occupant).child? name = occupant := by
  obtain ⟨head, slots⟩ := b
  unfold child? slot? place
  dsimp only at h ⊢
  induction slots with
  | nil => simp at h
  | cons s rest ih =>
    rw [place.go]
    by_cases hname : s.shape.name = name
    · rw [if_pos hname]
      simp [hname]
    · have hrest : name ∈ rest.map fun s => s.shape.name := by
        simpa [Ne.symm hname] using h
      rw [if_neg hname, List.find?_cons_of_neg (by simpa using hname)]
      exact ih hrest

/-- A slot keeps what it holds when another slot is filled. -/
theorem child?_place_of_ne (hne : other ≠ name) :
    (b.place name occupant).child? other = b.child? other := by
  obtain ⟨head, slots⟩ := b
  unfold child? slot? place
  dsimp only
  induction slots with
  | nil => rfl
  | cons s rest ih =>
    rw [place.go]
    by_cases hname : s.shape.name = name
    · have hother : ¬ s.shape.name = other := fun h => hne (h.symm.trans hname)
      rw [if_pos hname, List.find?_cons_of_neg (by simpa using hother),
        List.find?_cons_of_neg (by simpa using hother)]
    · rw [if_neg hname]
      by_cases hother : s.shape.name = other
      · rw [List.find?_cons_of_pos (by simpa using hother),
          List.find?_cons_of_pos (by simpa using hother)]
      · rw [List.find?_cons_of_neg (by simpa using hother),
          List.find?_cons_of_neg (by simpa using hother)]
        exact ih

end Place

/-- Puts blocks into the slots for parts, from the number `first` on. -/
def fill (b : Block) (first : Nat) : List Block → Block
  | [] => b
  | g :: rest => (b.place ("g" ++ toString first) (some g)).fill (first + 1) rest

theorem head_fill (b : Block) (first : Nat) (parts : List Block) :
    (b.fill first parts).head = b.head := by
  induction parts generalizing b first with
  | nil => rfl
  | cons g rest ih => exact ih _ _

theorem child?_fill_of_ne {name : String} {b : Block} {first : Nat} {parts : List Block}
    (hne : ∀ i, first ≤ i → name ≠ "g" ++ toString i) :
    (b.fill first parts).child? name = b.child? name := by
  induction parts generalizing b first with
  | nil => rfl
  | cons g rest ih =>
    rw [fill, ih fun i hi => hne i (by omega), child?_place_of_ne (hne first (Nat.le_refl first))]

theorem child?_fill {b : Block} {first : Nat} {parts : List Block}
    (hnames : ∀ j, j < parts.length →
      "g" ++ toString (first + j) ∈ b.slots.map fun s => s.shape.name)
    {j : Nat} {g : Block} (hg : parts[j]? = some g) :
    (b.fill first parts).child? ("g" ++ toString (first + j)) = some g := by
  induction parts generalizing b first j with
  | nil => simp at hg
  | cons d rest ih =>
    rw [fill]
    cases j with
    | zero =>
      obtain rfl : d = g := by simpa using hg
      have hname := hnames 0 (Nat.succ_pos rest.length)
      rw [Nat.add_zero] at hname ⊢
      rw [child?_fill_of_ne, child?_place hname]
      intro i hi heq
      have hsame := toString_inj (String.append_right_inj _ |>.mp heq)
      omega
    | succ j =>
      rw [show first + (j + 1) = first + 1 + j by omega]
      refine ih (fun k hk => ?_) (by simpa using hg)
      rw [names_place, show first + 1 + k = first + (k + 1) by omega]
      exact hnames (k + 1) (by simpa using hk)

/-! ## One block over given blocks -/

section Kinds

variable {b f base next : Block} {parts : List Block} {within : Nat → Prop} {xs : List Int}

/-- The block is the projection to the input of number `i`. -/
structure IsProjection (i : Int) (b : Block) : Prop where
  kind : b.head.kind = .projection
  index : b.param? "i" = some i

/-- The block is the composition of a function with parts. -/
structure IsComposition (f : Block) (parts : List Block) (b : Block) : Prop where
  kind : b.head.kind = .composition
  size : b.param? "m" = some (parts.length : Int)
  outer : b.child? "f" = some f
  part : ∀ (j : Nat) (g : Block), parts[j]? = some g → b.child? ("g" ++ toString (1 + j)) = some g

/-- The block is the recursion from a base case by a recursive case. -/
structure IsRecursion (base next : Block) (b : Block) : Prop where
  kind : b.head.kind = .primitiveRecursion
  base : b.child? "Base Case" = some base
  next : b.child? "Recursive Case" = some next

/-- The block is the search for a zero of a function. -/
structure IsSearch (f : Block) (b : Block) : Prop where
  kind : b.head.kind = .minimization
  function : b.child? "f" = some f

theorem IsProjection.computes {i x : Int} (hb : IsProjection i b) (hpos : 1 ≤ i)
    (hx : xs[(i - 1).toNat]? = some x) : ComputesWithin within b xs x :=
  .projection hb.kind hb.index hpos hx

/-- **A composition is as good as the values of its parts.** -/
theorem IsComposition.computes {ys : List Int} {r : Int} (hb : IsComposition f parts b)
    (hparts : List.Forall₂ (fun g y => ComputesWithin within g xs y) parts ys)
    (hf : ComputesWithin within f ys r) : ComputesWithin within b xs r := by
  obtain ⟨hlength, hvalues⟩ := List.forall₂_iff_get.mp hparts
  have hys : (List.range (parts.length : Int).toNat).map (fun j => ys.getD j 0) = ys := by
    refine List.ext_getElem (by simpa using hlength) fun j _ hj => ?_
    simp [List.getElem?_eq_getElem hj]
  refine .composition (g := fun j => parts.getD j b) (y := fun j => ys.getD j 0) hb.kind hb.size
    (fun j hj => ?_) (fun j hj => ?_) hb.outer (hys.symm ▸ hf)
  · have hlt : j < parts.length := by simpa using hj
    refine hb.part j _ ?_
    simp [List.getElem?_eq_getElem hlt]
  · have hlt : j < parts.length := by simpa using hj
    have hvalue := hvalues j hlt (hlength ▸ hlt)
    simpa [List.getElem?_eq_getElem hlt, List.getElem?_eq_getElem (hlength ▸ hlt)] using hvalue

/-- **A recursion is as good as the sequence of its values.** -/
theorem IsRecursion.computes (hb : IsRecursion base next b) (xs : List Int) (z : Nat → Int)
    (h0 : ComputesWithin within base xs (z 0))
    (hz : ∀ k : Nat, ComputesWithin within next (xs ++ [(k : Int), z k]) (z (k + 1))) (n : Nat) :
    ComputesWithin within b (xs ++ [(n : Int)]) (z n) := by
  cases n with
  | zero => exact .base hb.kind (Int.le_refl 0) hb.base h0
  | succ n => exact .recursion hb.kind (Nat.succ_pos n) hb.base hb.next h0 fun k _ => hz k

end Kinds

end Block

/-! ## Building blocks -/

namespace Classic

open Block

def projection (i : Int) : Build Block := do
  let b ← Catalog.standard.create .projection
  b.withParam .standard "i" i

def composition (f : Block) (parts : List Block) : Build Block := do
  let b ← Catalog.standard.create .composition
  let sized ← b.withParam .standard "m" parts.length
  return (sized.place "f" (some f)).fill 1 parts

def recursion (base next : Block) : Build Block := do
  let b ← Catalog.standard.create .primitiveRecursion
  return (b.place "Base Case" (some base)).place "Recursive Case" (some next)

def search (f : Block) : Build Block := do
  let b ← Catalog.standard.create .minimization
  return b.place "f" (some f)

/-- A tree gets its number of inputs, and its root the depth zero. -/
def rooted (count : Int) (b : Block) : Block :=
  (b.propagate count).setDepth 0

theorem yields_create (kind : Kind) :
    (Catalog.standard.create kind).Yields fun b => b.Consistent ∧ b.head.kind = kind ∧
      b.head.params = (Catalog.entryOf kind).newParams ∧ Slot.shapes b.slots = b.head.layout := by
  intro desk
  obtain ⟨b, desk', houtcome, hb⟩ := exists_create kind 0 0 none desk
  refine ⟨b, desk', houtcome, hb, ?_⟩
  have hget : Catalog.standard.get kind = .ok (Catalog.entryOf kind) := by
    rw [Catalog.get, Catalog.lookup?_standard]
  unfold Catalog.create at houtcome
  rw [hget] at houtcome
  obtain rfl := Except.ok.inj (Prod.mk.inj houtcome).1
  refine ⟨rfl, rfl, ?_⟩
  simp [Slot.shapes, Catalog.emptySlots, Head.layout, Function.comp_def]

theorem yields_projection (i : Int) : (projection i).Yields (IsProjection i) :=
  fun _ => ⟨_, _, rfl, rfl, rfl⟩

/-- A new composition gets as many slots for parts as it is given. -/
theorem yields_sized {b : Block} (hb : b.Consistent) (hkind : b.head.kind = .composition)
    (hparams : b.head.params = (Catalog.entryOf .composition).newParams)
    (hshapes : Slot.shapes b.slots = b.head.layout) (size : Int) :
    (b.withParam .standard "m" size).Yields fun b' => ∃ id least, b' = b.sized id size least := by
  have hparams' : b.head.params = [⟨"m", 1, 0⟩] := hparams
  rw [layout_of_params hkind hparams'] at hshapes
  intro desk
  have hstep := outcome_withParam_sized hkind (settled_of_consistent hb hshapes) (Int.le_refl 1)
    b.head.id size desk
  rw [sized_self hb hshapes hparams'] at hstep
  split at hstep
  · exact ⟨_, _, hstep, _, _, rfl⟩
  · exact ⟨_, _, hstep, _, _, rfl⟩

theorem yields_composition (f : Block) (parts : List Block) :
    (composition f parts).Yields (IsComposition f parts) := by
  refine (yields_create .composition).bind fun b ⟨hb, hkind, hparams, hshapes⟩ => ?_
  refine (yields_sized hb hkind hparams hshapes parts.length).bind fun sized h => ?_
  obtain ⟨id, least, rfl⟩ := h
  have hnames (j : Nat) (hj : j < parts.length) : "g" ++ toString (1 + j) ∈
      ((b.sized id parts.length least).place "f" (some f)).slots.map fun s => s.shape.name := by
    rw [names_place, names_sized, Nat.add_comm]
    refine List.mem_cons_of_mem _ (List.mem_map.mpr ⟨j, ?_, rfl⟩)
    simpa using hj
  refine .pure ⟨?_, ?_, ?_, fun j g hg => child?_fill hnames hg⟩
  · rw [head_fill]
    exact hkind
  · unfold param?
    rw [head_fill]
    rfl
  · rw [child?_fill_of_ne fun i _ => (Rule.part_ne_outer i).symm, child?_place]
    rw [names_sized]
    exact List.mem_cons_self

theorem yields_recursion (base next : Block) :
    (recursion base next).Yields (IsRecursion base next) :=
  fun _ => ⟨_, _, rfl, rfl, rfl, rfl⟩

theorem yields_search (f : Block) : (search f).Yields (IsSearch f) :=
  fun _ => ⟨_, _, rfl, rfl, rfl⟩

/-! ## The classic trees and their values -/

/-- The sum of two inputs: one more for every turn of a recursion. -/
def sum : Build Block := do
  let base ← projection 1
  let successor ← Catalog.standard.create .successor
  let previous ← projection 3
  let next ← composition successor [previous]
  recursion base next

/-- The product of two inputs: a sum for every turn of a recursion. -/
def product : Build Block := do
  let sum ← sum
  let base ← Catalog.standard.create .zero
  let previous ← projection 3
  let first ← projection 1
  let next ← composition sum [previous, first]
  recursion base next

/-- One less than the input, but not less than zero. -/
def predecessor : Build Block := do
  let base ← Catalog.standard.create .zero
  let next ← projection 1
  recursion base next

/-- The first input less the second, but not less than zero. -/
def difference : Build Block := do
  let predecessor ← predecessor
  let base ← projection 1
  let previous ← projection 3
  let next ← composition predecessor [previous]
  recursion base next

/-- The least number whose difference from the input is zero. -/
def identitySearch : Build Block := do
  let difference ← difference
  search difference

/-- The block gives the sum of its inputs. -/
def Sums (b : Block) : Prop :=
  ∀ (within : Nat → Prop) (x : Int) (n : Nat), ComputesWithin within b [x, (n : Int)] (x + n)

def Multiplies (b : Block) : Prop :=
  ∀ (within : Nat → Prop) (x n : Nat), ComputesWithin within b [(x : Int), (n : Int)] (x * n)

def Decrements (b : Block) : Prop :=
  ∀ (within : Nat → Prop) (n : Nat), ComputesWithin within b [(n : Int)] ((n - 1 : Nat) : Int)

def Subtracts (b : Block) : Prop :=
  ∀ (within : Nat → Prop) (x n : Nat),
    ComputesWithin within b [(x : Int), (n : Int)] ((x - n : Nat) : Int)

theorem yields_sum : sum.Yields Sums := by
  refine (yields_projection 1).bind fun base hbase => ?_
  refine (yields_create .successor).bind fun successor hsuccessor => ?_
  refine (yields_projection 3).bind fun previous hprevious => ?_
  refine (yields_composition successor [previous]).bind fun next hnext => ?_
  refine (yields_recursion base next).imp fun b hb within x n => ?_
  refine hb.computes [x] (fun k => x + k) ?_ (fun k => ?_) n
  · exact hbase.computes (Int.le_refl 1) (by simp)
  · -- the successor of the value before
    have hvalue : ComputesWithin within previous [x, (k : Int), x + k] (x + k) :=
      hprevious.computes (by decide) rfl
    refine hnext.computes (.cons hvalue .nil) ?_
    rw [Int.natCast_succ, ← Int.add_assoc]
    exact .successor hsuccessor.2.1

theorem yields_product : product.Yields Multiplies := by
  refine yields_sum.bind fun sum hsum => ?_
  refine (yields_create .zero).bind fun base hbase => ?_
  refine (yields_projection 3).bind fun previous hprevious => ?_
  refine (yields_projection 1).bind fun first hfirst => ?_
  refine (yields_composition sum [previous, first]).bind fun next hnext => ?_
  refine (yields_recursion base next).imp fun b hb within x n => ?_
  refine hb.computes [(x : Int)] (fun k => x * k) ?_ (fun k => ?_) n
  · rw [Int.natCast_zero, Int.mul_zero]
    exact .zero hbase.2.1
  · -- the value before and the first input, which the sum takes apart
    have hvalue : ComputesWithin within previous [(x : Int), (k : Int), x * k] (x * k) :=
      hprevious.computes (by decide) rfl
    have hx : ComputesWithin within first [(x : Int), (k : Int), x * k] x :=
      hfirst.computes (Int.le_refl 1) rfl
    refine hnext.computes (.cons hvalue (.cons hx .nil)) ?_
    rw [Int.natCast_succ, Int.mul_add, Int.mul_one]
    exact hsum within (x * k) x

theorem yields_predecessor : predecessor.Yields Decrements := by
  refine (yields_create .zero).bind fun base hbase => ?_
  refine (yields_projection 1).bind fun next hnext => ?_
  refine (yields_recursion base next).imp fun b hb within n => ?_
  refine hb.computes [] (fun k => ((k - 1 : Nat) : Int)) ?_ (fun k => ?_) n
  · exact .zero hbase.2.1
  · exact hnext.computes (Int.le_refl 1) rfl

theorem yields_difference : difference.Yields Subtracts := by
  refine yields_predecessor.bind fun predecessor hpredecessor => ?_
  refine (yields_projection 1).bind fun base hbase => ?_
  refine (yields_projection 3).bind fun previous hprevious => ?_
  refine (yields_composition predecessor [previous]).bind fun next hnext => ?_
  refine (yields_recursion base next).imp fun b hb within x n => ?_
  refine hb.computes [(x : Int)] (fun k => ((x - k : Nat) : Int)) ?_ (fun k => ?_) n
  · exact hbase.computes (Int.le_refl 1) rfl
  · -- the predecessor of the value before
    have hvalue : ComputesWithin within previous
        [(x : Int), (k : Int), ((x - k : Nat) : Int)] ((x - k : Nat) : Int) :=
      hprevious.computes (by decide) rfl
    refine hnext.computes (.cons hvalue .nil) ?_
    rw [Nat.sub_succ, Nat.pred_eq_sub_one]
    exact hpredecessor within (x - k)

theorem yields_identitySearch : identitySearch.Yields fun b =>
    ∃ f, IsSearch f b ∧ Subtracts f := by
  refine yields_difference.bind fun f hf => ?_
  exact (yields_search f).imp fun b hb => ⟨f, hb, hf⟩

end Classic

/-! ## Searches without a zero -/

namespace Rule

variable {ceiling : Int} {xs : List Int}

/-- A search all of whose candidates give something else than zero tends to what it does then. -/
theorem search_exhausted {f : Site} {y : Nat → Int} {exhausted : Walk Int} {e : Failure}
    (hend : exhausted.ending .standard = .error e) {count first : Nat}
    (hy : ∀ k, first ≤ k → k < first + count →
      BlockReaches ceiling f.block (xs ++ [(k : Int)]) (y k) ∧ y k ≠ 0) :
    Walk.Tends (fun l => search (walk ceiling l) f xs exhausted count first) (.error e) := by
  induction count generalizing first with
  | zero => exact ⟨fun _ => .inl hend, 0, fun _ _ => hend⟩
  | succ count ih =>
    obtain ⟨hreaches, hne⟩ := hy first (Nat.le_refl first) (by omega)
    have hrest : Walk.Tends (fun l => search (walk ceiling l) f xs exhausted count (first + 1))
        (.error e) := ih fun k hlo hhi => hy k (by omega) (by omega)
    refine (hreaches f.position).bind_tends (.congr (fun l => ?_) hrest)
    rw [if_neg hne]

/-- **A search without a zero below the ceiling fails for that reason.** -/
theorem minimization_tends {b f : Block} {y : Nat → Int} (hb : Block.IsSearch f b)
    (hy : ∀ k : Nat, (k : Int) < ceiling →
      BlockReaches ceiling f (xs ++ [(k : Int)]) (y k) ∧ y k ≠ 0) (p : Position) :
    Walk.Tends (fun l => walk ceiling l ⟨p, b⟩ xs)
      (.error (.error (.nonConvergence ceiling b.head.id))) := by
  obtain ⟨i, hseek⟩ := Block.seek?_eq_some_of_child? hb.function
  have hsearch : Walk.Tends (fun l => search (walk ceiling l) ⟨p ++ [i], f⟩ xs
      (.look ⟨p, b⟩ fun b => .fail (.error (.nonConvergence ceiling b.head.id))) ceiling.toNat 0)
      (.error (.error (.nonConvergence ceiling b.head.id))) :=
    search_exhausted rfl fun k _ hk => hy k (by omega)
  refine .of_apply (.congr (fun l => ?_) hsearch)
  rw [hb.kind]
  simp only [apply, minimization, Walk.ending_bind, ending_occupant, hseek]

end Rule

namespace Block

/-! ## Values and the place in a tree -/

/-- The tree without numbers of inputs, depths and what evaluations noted. -/
def unplaced (b : Block) : Block :=
  b.mapHeads fun h => { h with inputCount := 0, depth := 0, lastInput := none, lastOutput := none }

theorem unplaced_rooted (count : Int) (b : Block) :
    (Classic.rooted count b).unplaced = b.unplaced :=
  (mapHeads_setDepth_eq (fun _ _ => rfl) 0 _).trans
    (mapHeads_propagate_eq (fun _ _ => rfl) count b)

theorem unplaced_clearTrace (b : Block) : b.clearTrace.unplaced = b.unplaced :=
  mapHeads_mapHeads _ _ b

/-- Values do not depend on what a block keeps about its place. -/
theorem computes_of_unplaced {within : Nat → Prop} {b b' : Block} {xs : List Int} {r : Int}
    (h : b.unplaced = b'.unplaced) (hb : ComputesWithin within b xs r) :
    ComputesWithin within b' xs r := by
  have hunplaced : ComputesWithin within b.unplaced xs r :=
    hb.mapHeads (fun _ => rfl) fun _ => rfl
  refine hunplaced.of_mapHeads ?_ ?_ b' h
  · intro _; rfl
  · intro _; rfl

/-- A search is a search for a zero of the same function, wherever it is in a tree. -/
theorem IsSearch.of_unplaced {b b' f : Block} (hb : IsSearch f b)
    (h : b.unplaced = b'.unplaced) : ∃ f', IsSearch f' b' ∧ f.unplaced = f'.unplaced := by
  have hkind : b'.head.kind = b.head.kind := by
    have hhead := congrArg (fun d => d.head.kind) h
    simpa [unplaced] using hhead.symm
  have hchild : (b'.child? "f").map unplaced = some f.unplaced := by
    have hsame := congrArg (child? "f") h
    unfold unplaced at hsame
    rw [child?_mapHeads, child?_mapHeads, hb.function] at hsame
    exact hsame.symm
  obtain ⟨f', hf', hsame⟩ := Option.map_eq_some_iff.mp hchild
  exact ⟨f', ⟨hkind.trans hb.kind, hf'⟩, hsame.symm⟩

/-! ## All ways of evaluating a tree -/

/-- A run for every number of levels comes to the outcome once there are enough levels, and
otherwise fails for want of levels, if it does not come to the outcome already. -/
def ComesTo (run : Nat → Except Fault Int) (outcome : Except Fault Int) : Prop :=
  (∀ levels, run levels = outcome ∨ run levels = .error (.evaluation .recursionLimit)) ∧
    ∃ enough, ∀ levels, enough ≤ levels → run levels = outcome

/-- Evaluating the tree on inputs comes to the outcome, directly and step by step; with notes, if
the outcome can be noted, and if it cannot, the evaluation is lost on its notes. -/
structure EvaluatesTo (options : EvalOptions) (inputs : List Int) (outcome : Except Fault Int)
    (tree : Block) : Prop where
  direct : ComesTo (fun levels => (tree.evaluateWithin levels .standard options inputs).outcome)
    outcome
  stepped : ComesTo
    (fun levels => (tree.evaluateSteppedWithin levels .standard options none inputs).outcome)
    outcome
  noted : Notable inputs outcome →
    ComesTo (fun levels => (tree.evaluateNotedWithin levels .standard options inputs).outcome)
      outcome
  unwritten : ¬ Notable inputs outcome →
    ComesTo (fun levels => (tree.evaluateNotedWithin levels .standard options inputs).outcome)
      (.error .unwritable)

section EvaluatesTo

variable {options : EvalOptions} {inputs : List Int} {outcome : Except Fault Int} {tree : Block}

/-- Notes on a run that comes to an outcome. -/
theorem ComesTo.noted {evaluation : Nat → Evaluated}
    (h : ComesTo (fun levels => (evaluation levels).outcome) outcome)
    (hn : Notable inputs outcome) :
    ComesTo (fun levels => (tree.noted inputs fun _ => evaluation levels).outcome) outcome := by
  have hkept (levels : Nat) (hdone : (evaluation levels).outcome = outcome) :
      (tree.noted inputs fun _ => evaluation levels).outcome = outcome :=
    (noted_of_notable (hdone.symm ▸ hn)).trans hdone
  refine ⟨fun levels => ?_, ?_⟩
  · rcases h.1 levels with hdone | hlimit
    · exact .inl (hkept levels hdone)
    · refine .inr ((noted_of_notable ⟨hn.1, fun n hvalue => ?_⟩).trans hlimit)
      cases hlimit.symm.trans hvalue
  · obtain ⟨enough, hdone⟩ := h.2
    exact ⟨enough, fun levels hle => hkept levels (hdone levels hle)⟩

theorem ComesTo.unwritten {evaluation : Nat → Evaluated}
    (h : ComesTo (fun levels => (evaluation levels).outcome) outcome)
    (hn : ¬ Notable inputs outcome) :
    ComesTo (fun levels => (tree.noted inputs fun _ => evaluation levels).outcome)
      (.error .unwritable) := by
  refine ⟨fun levels => ?_, ?_⟩
  · by_cases hnotable : Notable inputs (evaluation levels).outcome
    · -- what can be noted is not the outcome
      rcases h.1 levels with hdone | hlimit
      · exact absurd (hdone ▸ hnotable) hn
      · exact .inr ((noted_of_notable hnotable).trans hlimit)
    · exact .inl (noted_of_not_notable hnotable)
  · obtain ⟨enough, hdone⟩ := h.2
    refine ⟨enough, fun levels hle => noted_of_not_notable fun hnotable => hn ?_⟩
    rwa [← hdone levels hle]

/-- **What the walk through a tree tends to is what all ways of evaluating it come to.** -/
theorem evaluatesTo_of_tends {e : Except Failure Int}
    (h : Walk.Tends
      (fun l => BlockCalculus.walk options.ceiling l ⟨[], tree.clearTrace⟩ inputs) e) :
    tree.EvaluatesTo options inputs (e.mapError Failure.fault) := by
  have hending : ComesTo (fun levels =>
      ((tree.walkWithin levels options inputs).ending .standard).mapError Failure.fault)
      (e.mapError Failure.fault) := by
    refine ⟨fun levels => (h.1 levels).imp ?_ ?_, ?_⟩
    · exact congrArg (Except.mapError Failure.fault)
    · exact congrArg (Except.mapError Failure.fault)
    · obtain ⟨enough, hend⟩ := h.2
      exact ⟨enough, fun levels hle =>
        congrArg (Except.mapError Failure.fault) (hend levels hle)⟩
  have hdirect : ComesTo
      (fun levels => (tree.evaluateWithin levels .standard options inputs).outcome)
      (e.mapError Failure.fault) := by
    simp only [evaluateWithin_outcome Catalog.prompt_standard]
    exact hending
  have hstepped : ComesTo
      (fun levels => (tree.evaluateSteppedWithin levels .standard options none inputs).outcome)
      (e.mapError Failure.fault) := by
    simp only [evaluateSteppedWithin, Walk.followStepped_eq]
    exact hending
  exact ⟨hdirect, hstepped, hdirect.noted, hdirect.unwritten⟩

/-- A value of a tree is what evaluating it comes to, wherever the tree is rooted. -/
theorem evaluatesTo_of_computes {r count : Int} {b : Block}
    (h : ComputesWithin (fun n => (n : Int) < options.ceiling) b inputs r) :
    (Classic.rooted count b).EvaluatesTo options inputs (.ok r) := by
  have hrooted := computes_of_unplaced (unplaced_rooted count b).symm h
  exact evaluatesTo_of_tends (clearTrace_reaches hrooted).tends

/-- **The search for the identity** finds an input below the ceiling, and no other. -/
theorem evaluatesTo_identitySearch {count : Int} {b f : Block} (hb : IsSearch f b)
    (hf : Classic.Subtracts f) (x : Nat) :
    (Classic.rooted count b).EvaluatesTo options [(x : Int)]
      (if (x : Int) < options.ceiling then .ok (x : Int)
        else .error (Failure.error (.nonConvergence options.ceiling b.head.id)).fault) := by
  have hpos (k : Nat) (hk : k < x) : ((x - k : Nat) : Int) ≠ 0 := by omega
  split
  · rename_i hlt
    refine evaluatesTo_of_computes (.minimization hb.kind hb.function hlt
      (fun k _ => hf _ x k) hpos ?_)
    have hzero := hf (fun n => (n : Int) < options.ceiling) x x
    rwa [Nat.sub_self] at hzero
  · rename_i hge
    have hplace : b.unplaced = (Classic.rooted count b).clearTrace.unplaced := by
      rw [unplaced_clearTrace, unplaced_rooted]
    obtain ⟨f', hsearch, hsame⟩ := hb.of_unplaced hplace
    have hid : (Classic.rooted count b).clearTrace.head.id = b.head.id := by
      simp [Classic.rooted, clearTrace]
    rw [← hid]
    refine evaluatesTo_of_tends (e := .error (.error (.nonConvergence _ _)))
      (Rule.minimization_tends (y := fun k => ((x - k : Nat) : Int)) hsearch (fun k hk => ?_) [])
    exact ⟨(computes_of_unplaced hsame (hf _ x k)).reaches, hpos k (by omega)⟩

end EvaluatesTo

end Block

namespace Classic

open Block

/-- **The classic trees compute their functions.** Each of them is built at any desk. Evaluated with
any number of levels, directly, step by step or with notes, it comes to the value of its function or
runs out of levels, and with enough levels it comes to the value. With notes that is so if the
inputs and the value can be written, and only then. The search for the identity comes to its input
if that is below the ceiling, and otherwise it does not converge, which it can tell only if the
ceiling can be written. -/
theorem classic_trees_compute (options : EvalOptions) :
    (rooted 2 <$> sum).Yields (fun tree => ∀ (x : Int) (n : Nat),
      tree.EvaluatesTo options [x, (n : Int)] (.ok (x + n))) ∧
    (rooted 2 <$> product).Yields (fun tree => ∀ x n : Nat,
      tree.EvaluatesTo options [(x : Int), (n : Int)] (.ok (x * n))) ∧
    (rooted 1 <$> predecessor).Yields (fun tree => ∀ n : Nat,
      tree.EvaluatesTo options [(n : Int)] (.ok (max ((n : Int) - 1) 0))) ∧
    (rooted 2 <$> difference).Yields (fun tree => ∀ x n : Nat,
      tree.EvaluatesTo options [(x : Int), (n : Int)] (.ok (max ((x : Int) - n) 0))) ∧
    (rooted 1 <$> identitySearch).Yields (fun tree => ∀ x : Nat,
      tree.EvaluatesTo options [(x : Int)]
        (if (x : Int) < options.ceiling then .ok (x : Int)
          else if Text.isWritable options.ceiling = true then
            .error (.evaluation (.nonConvergence options.ceiling tree.head.id))
          else .error .unwritable)) := by
  refine ⟨?_, ?_, ?_, ?_, ?_⟩
  · exact yields_sum.map fun b hb x n => evaluatesTo_of_computes (hb _ x n)
  · exact yields_product.map fun b hb x n => evaluatesTo_of_computes (hb _ x n)
  · refine yields_predecessor.map fun b hb n => ?_
    have hmax : ((n - 1 : Nat) : Int) = max ((n : Int) - 1) 0 := by omega
    exact hmax ▸ evaluatesTo_of_computes (hb _ n)
  · refine yields_difference.map fun b hb x n => ?_
    have hmax : ((x - n : Nat) : Int) = max ((x : Int) - n) 0 := by omega
    exact hmax ▸ evaluatesTo_of_computes (hb _ x n)
  · refine yields_identitySearch.map fun b ⟨f, hsearch, hf⟩ x => ?_
    have hid : (rooted 1 b).head.id = b.head.id := by simp [rooted]
    have hfault : (Failure.error (.nonConvergence options.ceiling b.head.id)).fault =
        if Text.isWritable options.ceiling = true then
          .evaluation (.nonConvergence options.ceiling b.head.id)
        else .unwritable := rfl
    rw [hid, ← apply_ite Except.error, ← hfault]
    exact evaluatesTo_identitySearch hsearch hf x

/-- Two and three make five. The sum of one and a number that has all the digits it may have is
evaluated too, but it is too long for the notes. -/
theorem classic_trees_compute_nines :
    ∃ tree desk', (rooted 2 <$> sum).outcome {} = (.ok tree, desk') ∧
      tree.EvaluatesTo {} [2, 3] (.ok 5) ∧
      ∃ n : Nat, Nat.pow 10 Text.digitLimit = n + 1 ∧
        ComesTo (fun levels => (tree.evaluateWithin levels .standard {} [(n : Int), 1]).outcome)
          (.ok (n + 1)) ∧
        ComesTo
          (fun levels => (tree.evaluateNotedWithin levels .standard {} [(n : Int), 1]).outcome)
          (.error .unwritable) := by
  obtain ⟨tree, desk', houtcome, htree⟩ := (classic_trees_compute {}).1 {}
  have hpos (k : Nat) : 1 ≤ Nat.pow 10 k := Nat.pow_pos (by decide : 0 < 10)
  obtain ⟨n, hn⟩ := Nat.exists_eq_add_of_le' (hpos Text.digitLimit)
  have hnines : tree.EvaluatesTo {} [(n : Int), 1] (.ok (n + 1)) := htree n 1
  refine ⟨tree, desk', houtcome, htree 2 3, n, hn, hnines.direct, hnines.unwritten ?_⟩
  intro hnotable
  have hwritable := hnotable.2 _ rfl
  rw [Text.isWritable, hn, decide_eq_true_eq] at hwritable
  omega

end Classic

end BlockCalculus
