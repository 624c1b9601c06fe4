import BlockCalculus.Block.Listing
import BlockCalculus.Build
import BlockCalculus.Proofs.Layout

/-!
# Numbering the blocks of a tree

`renumber` numbers the blocks of a tree anew, in the order in which they are listed
(`ids_listing_renumber`). Nothing but ids and serial numbers changes: the tree stays the same once
these are forgotten (`anonymous_renumber`).
-/

namespace BlockCalculus

namespace Block

mutual

/-- Gives the blocks of a tree the numbers from `first` on, a block before those in its slots. -/
def renumber (first : Nat) : Block → Block
  | ⟨head, slots⟩ =>
    ⟨{ head with id := freshId first, serial := first }, renumberAll (first + 1) slots⟩

/-- Gives the blocks in slots the numbers from `first` on. -/
def renumberAll (first : Nat) : List Slot → List Slot
  | [] => []
  | ⟨shape, none⟩ :: rest => ⟨shape, none⟩ :: renumberAll first rest
  | ⟨shape, some b⟩ :: rest => ⟨shape, some (renumber first b)⟩ :: renumberAll (first + b.size) rest

end

/-- The tree without ids and serial numbers. -/
def anonymous (b : Block) : Block :=
  b.mapHeads fun h => { h with id := "", serial := 0 }

@[simp] theorem shapes_renumberAll (first : Nat) (slots : List Slot) :
    Slot.shapes (renumberAll first slots) = Slot.shapes slots := by
  induction slots generalizing first with
  | nil => rw [renumberAll]
  | cons s rest ih =>
    obtain ⟨shape, occupant⟩ := s
    simp only [Slot.shapes] at ih
    cases occupant <;> simp [renumberAll, Slot.shapes, ih]

mutual

/-- Numbering a tree changes nothing but numbers. -/
@[simp] theorem anonymous_renumber (first : Nat) :
    (b : Block) → (b.renumber first).anonymous = b.anonymous
  | ⟨head, slots⟩ => by
    unfold anonymous
    rw [renumber, mapHeads, mapHeads, anonymous_renumberAll (first + 1) slots]

/-- Numbering slots changes nothing but numbers. -/
theorem anonymous_renumberAll (first : Nat) : (slots : List Slot) →
    mapHeadsAll (fun h => { h with id := "", serial := 0 }) (renumberAll first slots) =
      mapHeadsAll (fun h => { h with id := "", serial := 0 }) slots
  | [] => by rw [renumberAll]
  | ⟨shape, none⟩ :: rest => by
    rw [renumberAll, mapHeadsAll, mapHeadsAll, anonymous_renumberAll first rest]
  | ⟨shape, some b⟩ :: rest => by
    have hb := anonymous_renumber first b
    unfold anonymous at hb
    rw [renumberAll, mapHeadsAll, mapHeadsAll, hb, anonymous_renumberAll (first + b.size) rest]

end

mutual

theorem ids_listingOf_renumber (first : Nat) (stack : List Block) : (b : Block) →
    (listingOf (b.renumber first :: stack)).map (fun c => c.head.id) =
      (List.range' first b.size).map freshId ++ (listingOf stack).map fun c => c.head.id
  | ⟨head, slots⟩ => by
    rw [renumber, listingOf, List.map_cons, ids_listingOf_renumberAll (first + 1) stack slots,
      size, List.range'_succ, List.map_cons, List.cons_append]

theorem ids_listingOf_renumberAll (first : Nat) (stack : List Block) : (slots : List Slot) →
    (listingOf (Slot.occupants (renumberAll first slots) ++ stack)).map (fun c => c.head.id) =
      (List.range' first (sizeAll slots)).map freshId ++
        (listingOf stack).map fun c => c.head.id
  | [] => by simp [renumberAll, Slot.occupants, sizeAll]
  | ⟨shape, none⟩ :: rest => by
    simpa [renumberAll, Slot.occupants, sizeAll] using ids_listingOf_renumberAll first stack rest
  | ⟨shape, some b⟩ :: rest => by
    have hrest := ids_listingOf_renumberAll (first + b.size) stack rest
    have hb := ids_listingOf_renumber first
      (Slot.occupants (renumberAll (first + b.size) rest) ++ stack) b
    rw [hrest, ← List.append_assoc, ← List.map_append, List.range'_append_1] at hb
    simpa [renumberAll, Slot.occupants, sizeAll] using hb

end

/-- **Listing a numbered tree lists the numbers in order.** -/
theorem ids_listing_renumber (first : Nat) (b : Block) :
    (b.renumber first).listing.map (fun c => c.head.id) =
      (List.range' first b.size).map freshId := by
  unfold listing
  rw [ids_listingOf_renumber, listingOf, List.map_nil, List.append_nil]

end Block

end BlockCalculus
