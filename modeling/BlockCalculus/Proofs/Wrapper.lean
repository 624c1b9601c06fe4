import BlockCalculus.Proofs.Definition
import BlockCalculus.Proofs.Editing

/-!
# The block around a definition

Defining a name puts a copy of a tree into the slot for the body of a new custom block, for no
inputs and at the depth zero, and gives the depths anew, but not the numbers of inputs. So the
numbers of inputs of the body are those that it came with.

* `Library.exists_wrapper_eq`: that block has one occupied slot, which holds the body.
* `Library.defined_block_consistency`: the block that a definition answers with is consistent but
  for the number of inputs of the body, which is right only if it is the one that the slot asks for.
-/

namespace BlockCalculus

namespace Library

/-! ## Its slots -/

/-- Of slots that were empty, the first one of the name is occupied. -/
theorem exists_place_emptySlots {name : String} {layout : List SlotShape}
    (h : name ∈ layout.map SlotShape.name) (d : Block) :
    ∃ before shape after, layout = before ++ shape :: after ∧ shape.name = name ∧
      (∀ s ∈ before, s.name ≠ name) ∧
      Block.place.go name (some d) (Catalog.emptySlots layout) =
        Catalog.emptySlots before ++ ⟨shape, some d⟩ :: Catalog.emptySlots after := by
  induction layout with
  | nil => cases h
  | cons shape rest ih =>
    unfold Catalog.emptySlots
    rw [List.map_cons, Block.place.go]
    by_cases hname : shape.name = name
    · rw [if_pos hname]
      exact ⟨[], shape, rest, rfl, hname, fun _ hs => absurd hs List.not_mem_nil, rfl⟩
    · rw [if_neg hname]
      have hrest : name ∈ rest.map SlotShape.name :=
        (List.mem_cons.mp h).resolve_left (Ne.symm hname)
      obtain ⟨before, found, after, rfl, hfound, hbefore, hgo⟩ := ih hrest
      refine ⟨shape :: before, found, after, rfl, hfound, ?_, congrArg (List.cons _) hgo⟩
      exact List.forall_mem_cons.mpr ⟨hname, hbefore⟩

theorem map_within_emptySlots (f : SlotShape → Block → Block) (layout : List SlotShape) :
    (Catalog.emptySlots layout).map (Slot.within f) = Catalog.emptySlots layout := by
  unfold Catalog.emptySlots
  rw [List.map_map]
  rfl

/-- **One slot is occupied, the first one for a body, and it holds the body.** -/
theorem exists_wrapper_eq {entry : Entry}
    (h : Catalog.customBody.name ∈ (entry.layout entry.newParams).map SlotShape.name)
    (serial : Nat) (name : String) (body : Block) :
    ∃ before shape after, entry.layout entry.newParams = before ++ shape :: after ∧
      shape.name = Catalog.customBody.name ∧ (∀ s ∈ before, s.name ≠ Catalog.customBody.name) ∧
      wrapper entry serial name body =
        ⟨wrapperHead entry serial name, Catalog.emptySlots before ++
          ⟨shape, some (body.setDepth 1)⟩ :: Catalog.emptySlots after⟩ := by
  obtain ⟨before, shape, after, hlayout, hname, hbefore, hgo⟩ := exists_place_emptySlots h body
  refine ⟨before, shape, after, hlayout, hname, hbefore, ?_⟩
  rw [wrapper, Block.place, hgo, Block.setDepth_mk, List.map_append, List.map_cons,
    map_within_emptySlots, map_within_emptySlots]
  rfl

/-! ## What is consistent about it -/

section Occupied

variable {before after : List SlotShape} {shape : SlotShape} {d : Block}

/-- What holds of all occupants holds of the only one. -/
theorem forall_occupant_iff {P : SlotShape → Block → Prop} :
    (∀ s ∈ Catalog.emptySlots before ++ ⟨shape, some d⟩ :: Catalog.emptySlots after,
      ∀ c ∈ s.occupant, P s.shape c) ↔ P shape d := by
  have hempty (layout : List SlotShape) :
      ∀ s ∈ Catalog.emptySlots layout, ∀ c ∈ s.occupant, P s.shape c := by
    intro s hs c hc
    obtain ⟨shape, -, rfl⟩ := List.mem_map.mp hs
    cases hc
  rw [List.forall_mem_append, List.forall_mem_cons]
  refine ⟨fun h => h.2.1 d rfl, fun h => ⟨hempty before, fun c hc => ?_, hempty after⟩⟩
  cases hc
  exact h

/-- With one occupant, the numbers of inputs follow if that of the occupant does, and those inside
it. -/
theorem countsFollow_iff {head : Head} :
    Block.Every Block.CountsFollow
        ⟨head, Catalog.emptySlots before ++ ⟨shape, some d⟩ :: Catalog.emptySlots after⟩ ↔
      d.head.inputCount = shape.inputs head.inputCount ∧ d.Every Block.CountsFollow := by
  rw [Block.every_mk]
  exact and_congr
    (forall_occupant_iff (P := fun shape c => c.head.inputCount = shape.inputs head.inputCount))
    (forall_occupant_iff (P := fun _ c => c.Every Block.CountsFollow))

theorem height_le_iff {head : Head} {limit : Nat} :
    Block.height ⟨head, Catalog.emptySlots before ++ ⟨shape, some d⟩ ::
        Catalog.emptySlots after⟩ ≤ limit ↔ d.height < limit := by
  cases limit with
  | zero => simp [Block.height]
  | succ limit =>
    rw [Block.height, Nat.add_le_add_iff_right, Block.heightAll_le_iff, Nat.lt_succ_iff]
    exact forall_occupant_iff (P := fun _ c => c.height ≤ limit)

/-- The first slot of the name is the occupied one, if none before it has the name. -/
theorem slot?_eq {head : Head} {name : String} (hbefore : ∀ s ∈ before, s.name ≠ name)
    (hname : shape.name = name) :
    Block.slot? name ⟨head, Catalog.emptySlots before ++ ⟨shape, some d⟩ ::
      Catalog.emptySlots after⟩ = some ⟨shape, some d⟩ := by
  have hnone : (Catalog.emptySlots before).find? (fun s => s.shape.name == name) = none := by
    rw [List.find?_eq_none]
    intro s hs
    obtain ⟨own, hown, rfl⟩ := List.mem_map.mp hs
    simpa using hbefore own hown
  rw [Block.slot?, List.find?_append, hnone, Option.none_or,
    List.find?_cons_of_pos (by simpa using hname)]

end Occupied

/-- **When a definition succeeds by the standard entry**: the name is not empty, and the body does
not nest deeper than can be copied. -/
theorem exists_define_iff {lib : Library}
    (hentry : lib.catalog.lookup? .custom = some Catalog.custom) {name : String} {body : Block}
    {desk : Desk} :
    (∃ b lib' desk', (lib.define name body).outcome desk = (.ok (b, lib'), desk')) ↔
      name ≠ "" ∧ body.height ≤ copyLimit := by
  have hslot : Catalog.customBody.name ∈
      (Catalog.custom.layout Catalog.custom.newParams).map SlotShape.name :=
    List.mem_singleton_self _
  obtain ⟨before, shape, after, -, -, -, hwrapper⟩ :=
    exists_wrapper_eq hslot (desk.issued + 1) name body
  constructor
  · rintro ⟨b, lib', desk', h⟩
    obtain ⟨entry, hfound, hheight, -, rfl, hregister, -⟩ := define_eq_ok_iff.mp h
    obtain rfl : Catalog.custom = entry := Option.some.inj (hentry.symm.trans hfound)
    obtain ⟨own, -, hown, hne⟩ := exists_of_register hregister
    rw [hwrapper] at hown
    obtain rfl : name = own := Option.some.inj hown
    exact ⟨hne, hheight⟩
  · rintro ⟨hne, hheight⟩
    have hle : (wrapper Catalog.custom (desk.issued + 1) name body).height ≤ nestingLimit := by
      rw [hwrapper, height_le_iff, Block.height_setDepth]
      exact Nat.lt_of_le_of_lt hheight (Nat.lt_of_lt_of_le copyLimit_lt loadLimit_le)
    refine ⟨_, _, _, define_eq_ok_iff.mpr
      ⟨Catalog.custom, hentry, hheight, hslot, rfl, register_eq ?_ ?_ hne hle lib, rfl⟩⟩
    · rw [hwrapper]
      rfl
    · rw [hwrapper]
      rfl

/-- **The block that a definition answers with is consistent but for the number of inputs of the
body.** Let the numbers of inputs in a tree follow from one another, and let a name be defined by
it, in any library. By the standard entry for custom blocks that succeeds if and only if the name is
not empty and the tree does not nest deeper than can be copied. The block that comes of it is for no
inputs and at the depth zero, and all depths below follow. Its only occupied slot holds the tree,
within which the numbers of inputs still follow. So they follow in the whole block if and only if
the tree is for as many inputs as the slot asks for, and by the standard entry that is none. They
would always follow if the numbers of inputs were given anew as the depths are. -/
theorem defined_block_consistency (lib : Library) (name : String) {body : Block}
    (hbody : body.Every Block.CountsFollow) (desk : Desk) :
    (lib.catalog.lookup? .custom = some Catalog.custom →
      ((∃ b lib' desk', (lib.define name body).outcome desk = (.ok (b, lib'), desk')) ↔
        name ≠ "" ∧ body.height ≤ copyLimit)) ∧
    ∀ b lib' desk', (lib.define name body).outcome desk = (.ok (b, lib'), desk') →
      b.head.depth = 0 ∧ b.head.inputCount = 0 ∧ b.Every Block.DepthsFollow ∧
      (∃ shape, b.slot? Catalog.customBody.name = some ⟨shape, some (body.setDepth 1)⟩ ∧
        (∀ s ∈ b.slots, ∀ d ∈ s.occupant,
          s.shape = shape ∧ d = body.setDepth 1 ∧ d.Every Block.CountsFollow) ∧
        (b.Every Block.CountsFollow ↔ body.head.inputCount = shape.inputs 0)) ∧
      (lib.catalog.lookup? .custom = some Catalog.custom →
        (b.Every Block.CountsFollow ↔ body.head.inputCount = 0)) ∧
      (b.propagate 0).Every Block.CountsFollow ∧ (b.propagate 0).Every Block.DepthsFollow := by
  refine ⟨fun hstandard => exists_define_iff hstandard, fun b lib' desk' h => ?_⟩
  obtain ⟨entry, hentry, -, hslot, rfl, -, -⟩ := define_eq_ok_iff.mp h
  have hdepths : (wrapper entry (desk.issued + 1) name body).Every Block.DepthsFollow :=
    Block.depthsFollow_setDepth 0 _
  obtain ⟨before, shape, after, hlayout, hname, hbefore, hwrapper⟩ :=
    exists_wrapper_eq hslot (desk.issued + 1) name body
  have hinner : (body.setDepth 1).Every Block.CountsFollow := Block.countsFollow_setDepth.mpr hbody
  have hcounts : (wrapper entry (desk.issued + 1) name body).Every Block.CountsFollow ↔
      body.head.inputCount = shape.inputs 0 := by
    rw [hwrapper, countsFollow_iff, Block.head_setDepth]
    exact and_iff_left hinner
  refine ⟨by rw [hwrapper]; rfl, by rw [hwrapper]; rfl, hdepths, ⟨shape, ?_, ?_, hcounts⟩,
    fun hstandard => ?_, Block.countsFollow_propagate 0 _, Block.depthsFollow_propagate.mpr hdepths⟩
  · rw [hwrapper]
    exact slot?_eq hbefore hname
  · rw [hwrapper]
    exact forall_occupant_iff (P := fun s d =>
      s = shape ∧ d = body.setDepth 1 ∧ d.Every Block.CountsFollow) |>.mpr ⟨rfl, rfl, hinner⟩
  · obtain rfl : Catalog.custom = entry := Option.some.inj (hstandard.symm.trans hentry)
    have hmem : shape ∈ Catalog.custom.layout Catalog.custom.newParams :=
      hlayout ▸ List.mem_append_right before List.mem_cons_self
    -- the entry has one slot only
    have hshape : shape = Catalog.customBody := List.mem_singleton.mp hmem
    rw [hcounts, hshape]
    rfl

/-- Adding two numbers can be defined as a named block. For two inputs, the body keeps this number
inside a block for none, so that the numbers of inputs do not follow. For none, they do. -/
theorem defined_block_consistency_plus :
    let body (count : Int) : Block := Block.plus.propagate count
    (∀ count, (body count).Every Block.CountsFollow) ∧
      (∃ b lib' desk', (define "plus" (body 2) {}).outcome {} = (.ok (b, lib'), desk') ∧
        b.Every Block.DepthsFollow ∧ ¬ b.Every Block.CountsFollow) ∧
      ∃ b lib' desk', (define "plus" (body 0) {}).outcome {} = (.ok (b, lib'), desk') ∧
        b.Every Block.DepthsFollow ∧ b.Every Block.CountsFollow := by
  intro body
  have hbody (count : Int) : (body count).Every Block.CountsFollow :=
    Block.countsFollow_propagate count _
  have hentry : Catalog.standard.lookup? .custom = some Catalog.custom := rfl
  obtain ⟨hreturns, hanswer⟩ := defined_block_consistency {} "plus" (hbody 2) {}
  obtain ⟨hreturns', hanswer'⟩ := defined_block_consistency {} "plus" (hbody 0) {}
  obtain ⟨b, lib, desk₁, h⟩ := (hreturns hentry).mpr ⟨by decide, by decide⟩
  obtain ⟨b', lib', desk₂, h'⟩ := (hreturns' hentry).mpr ⟨by decide, by decide⟩
  obtain ⟨-, -, hdepths, -, hcounts, -⟩ := hanswer b lib desk₁ h
  obtain ⟨-, -, hdepths', -, hcounts', -⟩ := hanswer' b' lib' desk₂ h'
  refine ⟨hbody, ⟨b, lib, desk₁, h, hdepths, fun hfollow => ?_⟩,
    b', lib', desk₂, h', hdepths', (hcounts' hentry).mpr ?_⟩
  · have hzero := (hcounts hentry).mp hfollow
    rw [Block.head_propagate] at hzero
    cases hzero
  · rw [Block.head_propagate]

end Library

end BlockCalculus
