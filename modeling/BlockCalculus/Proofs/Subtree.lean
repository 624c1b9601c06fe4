import BlockCalculus.Proofs.Editing
import BlockCalculus.Proofs.Ids

/-!
# A tree around one of its blocks

An operation on one block of a tree is a change at its position. What such a change does to the tree
is seen from what it does to the block: the blocks at and below the position are those of the
changed block, and every other block keeps its `frame`, which is all there is to it but what is in
its slots.

* `modifyAt_append`, `modifyAt_congr`: a change goes by the block at its position.
* `at?_modifyAt_append`, `frame_at?_modifyAt`: what stands where after a change.
* `exists_listing_eq`: the listing of a tree is that of the block with something before it and after
  it, and a change leaves both sides alone.
-/

namespace BlockCalculus

namespace Block

/-- A block without what is in its slots. -/
def frame (b : Block) : Head × List SlotShape :=
  (b.head, Slot.shapes b.slots)

/-! ## Changes at a position -/

theorem modifyAt_append (f : Block → Block) (p q : Position) (b : Block) :
    b.modifyAt f (p ++ q) = b.modifyAt (modifyAt f q) p := by
  induction p generalizing b with
  | nil => rfl
  | cons i rest ih =>
    have hrest : modifyAt f (rest ++ q) = modifyAt (modifyAt f q) rest := funext ih
    rw [List.cons_append, modifyAt, modifyAt, hrest]

/-- What a change further down makes of the slot on the way. -/
theorem modifyAt_slot (f : Block → Block) (rest : Position) (head : Head) (left right : List Slot)
    (shape : SlotShape) (c : Block) :
    modifyAt f (left.length :: rest) ⟨head, left ++ ⟨shape, some c⟩ :: right⟩ =
      ⟨head, left ++ ⟨shape, some (c.modifyAt f rest)⟩ :: right⟩ := by
  rw [modifyAt, List.modify_eq_take_cons_drop (by simp)]
  simp

/-- The slots of a block around one that holds a block. -/
theorem exists_slots_eq {b c : Block} {shape : SlotShape} {i : Nat}
    (h : b.slots[i]? = some ⟨shape, some c⟩) :
    ∃ left right, left.length = i ∧ b = ⟨b.head, left ++ ⟨shape, some c⟩ :: right⟩ := by
  obtain ⟨head, slots⟩ := b
  obtain ⟨hlt, hget⟩ := List.getElem?_eq_some_iff.mp h
  refine ⟨slots.take i, slots.drop (i + 1), ?_, ?_⟩
  · exact List.length_take_of_le (Nat.le_of_lt hlt)
  · rw [← hget, ← List.drop_eq_getElem_cons hlt, List.take_append_drop]

/-- A change at a position goes by the block there. -/
theorem modifyAt_congr {f g : Block → Block} {p : Position} {tree b : Block}
    (hb : tree.at? p = some b) (hfg : f b = g b) : tree.modifyAt f p = tree.modifyAt g p := by
  induction p generalizing tree with
  | nil =>
    obtain rfl : tree = b := by simpa using hb
    exact hfg
  | cons i rest ih =>
    obtain ⟨shape, c, hi, hc⟩ := at?_cons_eq_some.mp hb
    obtain ⟨left, right, rfl, htree⟩ := exists_slots_eq hi
    rw [htree, modifyAt_slot, modifyAt_slot, ih hc]

/-- A change that leaves the block at its position alone changes nothing. -/
theorem modifyAt_eq_self {f : Block → Block} {p : Position} {tree : Block}
    (h : ∀ b ∈ tree.at? p, f b = b) : tree.modifyAt f p = tree := by
  induction p generalizing tree with
  | nil => exact h tree (at?_nil tree)
  | cons i rest ih =>
    obtain ⟨head, slots⟩ := tree
    rw [at?] at h
    rw [modifyAt]
    refine congrArg (Block.mk head) (List.ext_getElem? fun j => ?_)
    rw [List.getElem?_modify]
    by_cases hij : i = j
    · subst hij
      cases hs : slots[i]? with
      | none => simp
      | some s =>
        obtain ⟨shape, occupant⟩ := s
        cases occupant with
        | none => simp
        | some c =>
          rw [hs] at h
          simp [ih h]
    · simp [hij]

theorem modifyAt_modifyAt (f g : Block → Block) (p : Position) (b : Block) :
    (b.modifyAt f p).modifyAt g p = b.modifyAt (fun c => g (f c)) p := by
  induction p generalizing b with
  | nil => rfl
  | cons i rest ih =>
    rw [modifyAt, modifyAt, modifyAt, List.modify_modify_eq]
    congr 2
    funext s
    cases hs : s.occupant <;> simp [hs, ih]

/-- A change at a position shows there. -/
theorem at?_modifyAt_self (f : Block → Block) (p : Position) (b : Block) :
    (b.modifyAt f p).at? p = (b.at? p).map f := by
  induction p generalizing b with
  | nil => rfl
  | cons i rest ih =>
    rw [modifyAt, at?, at?, List.getElem?_modify_eq]
    cases hs : b.slots[i]? with
    | none => rfl
    | some s =>
      obtain ⟨shape, occupant⟩ := s
      cases occupant with
      | none => rfl
      | some c => exact ih c

/-- Below the position of a change stands what is below the changed block. -/
theorem at?_modifyAt_append {f : Block → Block} {p : Position} {tree b : Block}
    (hb : tree.at? p = some b) (q : Position) :
    (tree.modifyAt f p).at? (p ++ q) = (f b).at? q := by
  rw [at?_append, at?_modifyAt_self, hb]
  rfl

/-- The frame of a block does not show what is in a slot. -/
theorem frame_split (head : Head) (left right : List Slot) (shape : SlotShape)
    (occupant occupant' : Option Block) :
    frame ⟨head, left ++ ⟨shape, occupant⟩ :: right⟩ =
      frame ⟨head, left ++ ⟨shape, occupant'⟩ :: right⟩ := by
  simp [frame, Slot.shapes]

/-- Elsewhere blocks keep their frames. -/
theorem frame_at?_modifyAt (f : Block → Block) {p q : Position} (hq : ¬ p <+: q) (tree : Block) :
    ((tree.modifyAt f p).at? q).map frame = (tree.at? q).map frame := by
  induction p generalizing q tree with
  | nil => exact absurd List.nil_prefix hq
  | cons i p ih =>
    rw [modifyAt]
    cases q with
    | nil =>
      have hshapes := shapes_modify_within (fun _ => modifyAt f p) i tree.slots
      rw [at?_nil, at?_nil, Option.map_some, Option.map_some, frame, frame, ← hshapes]
      rfl
    | cons j q =>
      rw [at?, at?, List.getElem?_modify]
      by_cases hij : i = j
      · subst hij
        have hpq : ¬ p <+: q := fun h => hq (List.cons_prefix_cons.mpr ⟨rfl, h⟩)
        cases hs : tree.slots[i]? with
        | none => simp
        | some s =>
          obtain ⟨shape, occupant⟩ := s
          cases occupant with
          | none => simp
          | some c => simpa using ih hpq c
      · simp [hij]

/-! ## Listings around a position -/

/-- A tree lists its root and then, slot by slot, what is in its slots. -/
theorem listing_split (head : Head) (left right : List Slot) (shape : SlotShape)
    (occupant : Option Block) :
    listing ⟨head, left ++ ⟨shape, occupant⟩ :: right⟩ =
      ⟨head, left ++ ⟨shape, occupant⟩ :: right⟩ ::
        ((Slot.occupants left).flatMap listing ++ occupant.toList.flatMap listing ++
          (Slot.occupants right).flatMap listing) := by
  rw [listing_mk]
  cases occupant <;> simp [Slot.occupants]

/-- **The listing of a tree around one of its blocks**: what comes before it and after it keeps its
frames, whatever becomes of the block. -/
theorem exists_listing_eq {p : Position} {tree b : Block} (hb : tree.at? p = some b) :
    ∃ before after, tree.listing = before ++ b.listing ++ after ∧
      ∀ f, (tree.modifyAt f p).listing.map frame =
        before.map frame ++ (f b).listing.map frame ++ after.map frame := by
  induction p generalizing tree with
  | nil =>
    obtain rfl : tree = b := by simpa using hb
    exact ⟨[], [], by simp, fun f => by simp [modifyAt]⟩
  | cons i rest ih =>
    obtain ⟨shape, c, hi, hc⟩ := at?_cons_eq_some.mp hb
    obtain ⟨left, right, rfl, htree⟩ := exists_slots_eq hi
    obtain ⟨before, after, hlisting, hchange⟩ := ih hc
    refine ⟨tree :: ((Slot.occupants left).flatMap listing ++ before),
      after ++ (Slot.occupants right).flatMap listing, ?_, fun f => ?_⟩
    · rw [htree, listing_split]
      simp [hlisting]
    · have hframe := frame_split tree.head left right shape (some (c.modifyAt f rest)) (some c)
      rw [← htree] at hframe
      rw [htree, modifyAt_slot, listing_split, ← htree]
      simp [hchange, hframe]

end Block

end BlockCalculus
