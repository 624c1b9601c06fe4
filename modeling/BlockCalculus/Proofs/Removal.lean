import BlockCalculus.Proofs.Traversal

/-!
# Removing a block takes out one subtree

A block is removed by emptying the slot that holds it. The search for that slot looks at the slots
of a block before it looks further down; whichever slot it finds, the tree that it makes is the tree
with that one slot emptied (`detach?_cases`).

* `vacate`: a block with one of its slots emptied.
* `Detached`: a tree lost the block in one slot, with what is below it, and nothing else.
* `detached_modifyAt`: emptying a slot does that.
* `removal_detaches_subtree`: the main result.
-/

namespace BlockCalculus

namespace Block

/-- A block with one of its slots emptied. -/
def vacate (i : Nat) (b : Block) : Block :=
  { b with slots := b.slots.modify i fun s => { s with occupant := none } }

/-! ## The slot that is emptied -/

/-- The slot that is emptied is one that holds a block of the id. -/
theorem emptyFirst?_cases (id : String) (slots : List Slot) :
    (emptyFirst? id slots = none ∧ ∀ b ∈ Slot.occupants slots, b.head.id ≠ id) ∨
      ∃ i s, slots[i]? = some s ∧ ∃ c ∈ s.occupant, c.head.id = id ∧
        emptyFirst? id slots = some (slots.modify i fun s => { s with occupant := none }) := by
  induction slots with
  | nil => exact .inl ⟨rfl, by simp [Slot.occupants]⟩
  | cons s rest ih =>
    obtain ⟨shape, occupant⟩ := s
    cases occupant with
    | none =>
      rcases ih with ⟨hnone, hall⟩ | ⟨i, s, hi, c, hc, hid, hsome⟩
      · exact .inl ⟨by simp [emptyFirst?, hnone], hall⟩
      · exact .inr ⟨i + 1, s, by simpa using hi, c, hc, hid, by simp [emptyFirst?, hsome]⟩
    | some b =>
      by_cases hb : b.head.id = id
      · exact .inr ⟨0, _, rfl, b, rfl, hb, by simp [emptyFirst?, hb]⟩
      · rcases ih with ⟨hnone, hall⟩ | ⟨i, s, hi, c, hc, hid, hsome⟩
        · refine .inl ⟨by simp [emptyFirst?, hb, hnone], ?_⟩
          exact List.forall_mem_cons.mpr ⟨hb, hall⟩
        · exact .inr ⟨i + 1, s, by simpa using hi, c, hc, hid, by simp [emptyFirst?, hb, hsome]⟩

mutual

/-- **Taking a block out empties a slot that holds a block of the id**, if there is one. -/
theorem detach?_cases (id : String) : (b : Block) →
    (b.detach? id = none ∧ ∀ c ∈ b.listing.tail, c.head.id ≠ id) ∨
      ∃ p i c, b.at? (p ++ [i]) = some c ∧ c.head.id = id ∧
        b.detach? id = some (b.modifyAt (vacate i) p)
  | ⟨head, slots⟩ => by
    rw [detach?, listing_mk, List.tail_cons]
    rcases emptyFirst?_cases id slots with ⟨hnone, hroots⟩ | ⟨i, s, hi, c, hc, hid, hsome⟩
    · rcases detachIn?_cases id slots with
        ⟨hnone', hbelow⟩ | ⟨j, s, hj, d, hd, p, i, c, hp, hid, hsome⟩
      · refine .inl ⟨by simp [hnone, hnone'], fun c hc => ?_⟩
        obtain ⟨d, hd, hc⟩ := List.mem_flatMap.mp hc
        rw [← cons_tail_listing d] at hc
        rcases List.mem_cons.mp hc with rfl | hc
        · exact hroots c hd
        · exact hbelow d hd c hc
      · obtain ⟨shape, occupant⟩ := s
        obtain rfl : occupant = some d := hd
        refine .inr ⟨j :: p, i, c, at?_cons_eq_some.mpr ⟨shape, d, hj, hp⟩, hid, ?_⟩
        simp [hnone, hsome, modifyAt]
    · obtain ⟨shape, occupant⟩ := s
      obtain rfl : occupant = some c := hc
      refine .inr ⟨[], i, c, at?_cons_eq_some.mpr ⟨shape, c, hi, at?_nil c⟩, hid, ?_⟩
      simp [hsome, modifyAt, vacate]

theorem detachIn?_cases (id : String) : (slots : List Slot) →
    (detachIn? id slots = none ∧
      ∀ b ∈ Slot.occupants slots, ∀ c ∈ b.listing.tail, c.head.id ≠ id) ∨
      ∃ j s, slots[j]? = some s ∧ ∃ d ∈ s.occupant, ∃ p i c,
        d.at? (p ++ [i]) = some c ∧ c.head.id = id ∧
        detachIn? id slots = some (slots.modify j fun s =>
          { s with occupant := s.occupant.map (modifyAt (vacate i) p) })
  | [] => .inl ⟨by rw [detachIn?], by simp [Slot.occupants]⟩
  | ⟨shape, none⟩ :: rest => by
    rw [detachIn?]
    rcases detachIn?_cases id rest with ⟨hnone, hall⟩ | ⟨j, s, hj, d, hd, p, i, c, hp, hid, hsome⟩
    · exact .inl ⟨by rw [hnone]; rfl, hall⟩
    · exact .inr ⟨j + 1, s, by simpa using hj, d, hd, p, i, c, hp, hid, by simp [hsome]⟩
  | ⟨shape, some b⟩ :: rest => by
    rw [detachIn?]
    rcases detach?_cases id b with ⟨hb, hin⟩ | ⟨p, i, c, hp, hid, hb⟩
    · rcases detachIn?_cases id rest with ⟨hnone, hall⟩ | ⟨j, s, hj, d, hd, p, i, c, hp, hid, hsome⟩
      · exact .inl ⟨by rw [hb, hnone]; rfl, List.forall_mem_cons.mpr ⟨hin, hall⟩⟩
      · exact .inr ⟨j + 1, s, by simpa using hj, d, hd, p, i, c, hp, hid, by simp [hb, hsome]⟩
    · exact .inr ⟨0, _, rfl, b, rfl, p, i, c, hp, hid, by simp [hb]⟩

end

/-! ## What is left -/

theorem at?_append_singleton {tree c : Block} {p : Position} {i : Nat}
    (h : tree.at? (p ++ [i]) = some c) :
    ∃ parent shape, tree.at? p = some parent ∧ parent.slots[i]? = some ⟨shape, some c⟩ := by
  rw [at?_append] at h
  obtain ⟨parent, hparent, hc⟩ := Option.bind_eq_some_iff.mp h
  obtain ⟨shape, d, hi, hd⟩ := at?_cons_eq_some.mp hc
  obtain rfl : d = c := by simpa using hd
  exact ⟨parent, shape, hparent, hi⟩

section Vacate

variable {parent c : Block} {shape : SlotShape} {i : Nat}

theorem vacate_eq (hi : parent.slots[i]? = some ⟨shape, some c⟩) :
    parent.vacate i = ⟨parent.head, parent.slots.set i ⟨shape, none⟩⟩ := by
  obtain ⟨hlt, hget⟩ := List.getElem?_eq_some_iff.mp hi
  refine congrArg (Block.mk parent.head) (List.ext_getElem? fun j => ?_)
  rw [List.getElem?_modify, List.getElem?_set]
  by_cases hij : i = j
  · subst hij
    simp [hlt, hget]
  · simp [hij]

theorem frame_vacate (parent : Block) (i : Nat) : (parent.vacate i).frame = parent.frame := by
  refine congrArg (Prod.mk parent.head) (List.ext_getElem? fun j => ?_)
  simp only [vacate, Slot.shapes, List.getElem?_map, List.getElem?_modify]
  by_cases hij : i = j <;> cases parent.slots[j]? <;> simp [hij]

/-- Nothing is left in the slot. -/
theorem at?_vacate_self (parent : Block) (i : Nat) (q : Position) :
    (parent.vacate i).at? (i :: q) = none := by
  rw [vacate, at?, List.getElem?_modify_eq]
  cases parent.slots[i]? <;> rfl

/-- The other slots are as they were. -/
theorem at?_vacate_of_ne {j : Nat} (hij : i ≠ j) (parent : Block) (q : Position) :
    (parent.vacate i).at? (j :: q) = parent.at? (j :: q) := by
  rw [vacate, at?, at?, List.getElem?_modify_ne _ _ hij]

/-- The listing loses what was in the slot. -/
theorem exists_listing_vacate (hi : parent.slots[i]? = some ⟨shape, some c⟩) :
    ∃ before after, parent.listing = before ++ c.listing ++ after ∧
      (parent.vacate i).listing.map frame = (before ++ after).map frame := by
  obtain ⟨left, right, rfl, hparent⟩ := exists_slots_eq hi
  refine ⟨parent :: (Slot.occupants left).flatMap listing, (Slot.occupants right).flatMap listing,
    ?_, ?_⟩
  · rw [hparent, listing_split]
    simp
  · have hvacate : parent.vacate left.length =
        ⟨parent.head, left ++ ⟨shape, none⟩ :: right⟩ := by
      rw [vacate_eq hi, hparent]
      simp
    have hframe := frame_vacate parent left.length
    rw [hvacate] at hframe ⊢
    rw [listing_split]
    simp [hframe]

end Vacate

/-- The tree `result` is `tree` without the block `c`, which was in slot `i` of the block at `p`,
and without what is below `c`. -/
structure Detached (tree result : Block) (p : Position) (i : Nat) (c : Block) : Prop where
  /-- The slot that held the block is empty and keeps its shape, and the block around keeps its head
  and its other slots. -/
  slot : ∃ parent shape, tree.at? p = some parent ∧ parent.slots[i]? = some ⟨shape, some c⟩ ∧
    result.at? p = some ⟨parent.head, parent.slots.set i ⟨shape, none⟩⟩
  /-- Nothing stands in the slot or below any more. -/
  gone : ∀ q, p ++ [i] <+: q → result.at? q = none
  /-- Everything else stands where it stood, and only what is in slots can have changed. -/
  kept : ∀ q, ¬ p ++ [i] <+: q → (result.at? q).map frame = (tree.at? q).map frame
  /-- The block and what is below it are one segment of the listing, and that is what it lost. -/
  segment : ∃ before after, tree.listing = before ++ c.listing ++ after ∧
    result.listing.map frame = (before ++ after).map frame

/-- **Emptying a slot takes out what was in it and nothing else.** -/
theorem detached_modifyAt {tree c : Block} {p : Position} {i : Nat}
    (hc : tree.at? (p ++ [i]) = some c) : Detached tree (tree.modifyAt (vacate i) p) p i c := by
  obtain ⟨parent, shape, hparent, hi⟩ := at?_append_singleton hc
  refine ⟨⟨parent, shape, hparent, hi, ?_⟩, ?_, fun q hq => ?_, ?_⟩
  · rw [at?_modifyAt_self, hparent, Option.map_some, vacate_eq hi]
  · rintro _ ⟨q, rfl⟩
    rw [List.append_assoc, at?_modifyAt_append hparent]
    exact at?_vacate_self parent i q
  · by_cases hpq : p <+: q
    · -- at the block around or in another of its slots
      obtain ⟨r, rfl⟩ := hpq
      rw [at?_modifyAt_append hparent, at?_append, hparent, Option.bind_some]
      cases r with
      | nil => simp [frame_vacate]
      | cons j r =>
        have hij : i ≠ j := by
          rintro rfl
          exact hq ⟨r, by simp⟩
        rw [at?_vacate_of_ne hij]
    · exact frame_at?_modifyAt _ hpq tree
  · obtain ⟨before, after, htree, hchange⟩ := exists_listing_eq hparent
    obtain ⟨left, right, hlisting, hvacate⟩ := exists_listing_vacate hi
    refine ⟨before ++ left, right ++ after, ?_, ?_⟩
    · simp [htree, hlisting]
    · simp [hchange, hvacate]

/-! ## Heights -/

theorem height_modifyAt_le {f : Block → Block} (hf : ∀ b, (f b).height ≤ b.height) (p : Position)
    (tree : Block) : (tree.modifyAt f p).height ≤ tree.height := by
  induction p generalizing tree with
  | nil => exact hf tree
  | cons i rest ih =>
    obtain ⟨head, slots⟩ := tree
    have hslots := heightAll_le_iff.mp (Nat.le_refl (heightAll slots))
    rw [modifyAt, height, height]
    refine Nat.succ_le_succ (heightAll_le_iff.mpr fun s hs c hc => ?_)
    obtain hs | ⟨t, ht, rfl⟩ := mem_or_eq_of_mem_modify hs
    · exact hslots s hs c hc
    · obtain ⟨d, hd, rfl⟩ := Option.map_eq_some_iff.mp hc
      exact (ih d).trans (hslots t (List.mem_of_getElem? ht) d hd)

theorem height_vacate_le (i : Nat) (b : Block) : (b.vacate i).height ≤ b.height := by
  obtain ⟨head, slots⟩ := b
  have hslots := heightAll_le_iff.mp (Nat.le_refl (heightAll slots))
  rw [vacate, height, height]
  refine Nat.succ_le_succ (heightAll_le_iff.mpr fun s hs c hc => ?_)
  obtain hs | ⟨t, -, rfl⟩ := mem_or_eq_of_mem_modify hs
  · exact hslots s hs c hc
  · simp at hc

/-! ## The main result -/

theorem remove_eq {tree : Block} (h : tree.height ≤ copyLimit) (id : String) :
    tree.remove id = .ok ((tree.detach? id).getD tree) := by
  unfold remove copy erase
  rw [if_pos h]
  rfl

/-- The ids of a subtree that was taken out of a tree of distinct ids lead nowhere. -/
theorem Detached.not_mem {tree result c : Block} {p : Position} {i : Nat}
    (h : Detached tree result p i c) (hids : tree.DistinctIds) {d e : Block} (hd : d ∈ c.listing)
    (he : e ∈ result.listing) : e.head.id ≠ d.head.id := by
  obtain ⟨before, after, htree, hresult⟩ := h.segment
  unfold DistinctIds at hids
  rw [htree, List.append_assoc, List.map_append, List.map_append, List.nodup_append,
    List.nodup_append] at hids
  obtain ⟨-, ⟨-, -, hafter⟩, hbefore⟩ := hids
  have hid : d.head.id ∈ c.listing.map fun c => c.head.id := List.mem_map_of_mem hd
  obtain ⟨g, hg, hframe⟩ := List.mem_map.mp (hresult ▸ List.mem_map_of_mem (f := frame) he)
  have hhead : g.head = e.head := congrArg Prod.fst hframe
  rw [← hhead]
  rcases List.mem_append.mp hg with hg | hg
  · exact hbefore _ (List.mem_map_of_mem hg) _ (List.mem_append_left _ hid)
  · exact (hafter _ hid _ (List.mem_map_of_mem hg)).symm

/-- **Removing a block takes out its subtree and nothing else.** In a tree of distinct ids, removing
the root or a block that is not there changes nothing. Removing another block empties the slot that
holds it, takes one segment out of the listing, and leaves every other block as it is; the ids of
the blocks that are gone are not found any more, neither in the tree nor below its root. -/
theorem removal_detaches_subtree {tree : Block} (hids : tree.DistinctIds)
    (hheight : tree.height ≤ copyLimit) (id : String) :
    (id = tree.head.id ∨ (∀ c ∈ tree.listing, c.head.id ≠ id) → tree.remove id = .ok tree) ∧
    (id ≠ tree.head.id → (∃ c ∈ tree.listing, c.head.id = id) → ∃ p i c result,
      c.head.id = id ∧ tree.remove id = .ok result ∧ Detached tree result p i c ∧
      ∀ d ∈ c.listing, result.find? d.head.id = none ∧ result.isBelow d.head.id = .ok false) := by
  rw [remove_eq hheight]
  rcases detach?_cases id tree with ⟨hnone, hbelow⟩ | ⟨p, i, c, hc, hid, hsome⟩
  · refine ⟨fun _ => by rw [hnone]; rfl, ?_⟩
    rintro hroot ⟨c, hc, hid⟩
    rw [← cons_tail_listing tree] at hc
    rcases List.mem_cons.mp hc with rfl | hc
    · exact absurd hid.symm hroot
    · exact absurd hid (hbelow c hc)
  · have hlisted : c ∈ tree.listing := mem_listing_iff.mpr ⟨_, hc⟩
    refine ⟨?_, fun _ _ => ?_⟩
    · rintro (hroot | hall)
      · have hnil := hids.position_eq hc (at?_nil tree) (hid.trans hroot)
        simp at hnil
      · exact absurd hid (hall c hlisted)
    · have hdetached := detached_modifyAt hc
      have hle : (tree.modifyAt (vacate i) p).height ≤ nestingLimit :=
        ((height_modifyAt_le (height_vacate_le i) p tree).trans hheight).trans
          (copyLimit_lt.le.trans loadLimit_le)
      refine ⟨p, i, c, _, hid, by rw [hsome]; rfl, hdetached, fun d hd => ⟨?_, ?_⟩⟩
      · exact find?_eq_none_iff.mpr fun e he => hdetached.not_mem hids hd he
      · rw [isBelow_eq hle, List.any_eq_false.mpr]
        intro e he
        simpa using hdetached.not_mem hids hd (List.mem_of_mem_tail he)

/-- The recursive case of addition is taken out, with the two blocks in its slots. -/
theorem removal_detaches_subtree_plus :
    plus.DistinctIds ∧ plus.height ≤ copyLimit ∧ plus.remove "plus" = .ok plus ∧
      plus.remove "last" = .ok plus ∧
      ∃ p i c result, c.head.id = "next" ∧ plus.remove "next" = .ok result ∧
        Detached plus result p i c ∧
        ∀ d ∈ c.listing, result.find? d.head.id = none ∧ result.isBelow d.head.id = .ok false := by
  have hheight : plus.height ≤ copyLimit := by decide
  have hlast : ∀ id ∈ plus.listing.map fun c => c.head.id, id ≠ "last" := by decide +kernel
  have hnext : "next" ∈ plus.listing.map fun c => c.head.id := by decide +kernel
  refine ⟨distinctIds_plus, hheight, ?_, ?_, ?_⟩
  · exact (removal_detaches_subtree distinctIds_plus hheight "plus").1 (.inl rfl)
  · refine (removal_detaches_subtree distinctIds_plus hheight "last").1 (.inr fun c hc => ?_)
    exact hlast _ (List.mem_map_of_mem hc)
  · refine (removal_detaches_subtree distinctIds_plus hheight "next").2 (by decide) ?_
    exact List.mem_map.mp hnext

end Block

end BlockCalculus
