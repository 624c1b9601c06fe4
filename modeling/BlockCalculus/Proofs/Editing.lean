import BlockCalculus.Proofs.Opening
import BlockCalculus.Proofs.RoundTrip

/-!
# Edited trees stay consistent

A block keeps three things that follow from elsewhere: its slots follow from its parameters, its
number of inputs and its depth from the block around it. A tree in which all of them are up to date
is `Consistent`. The three are properties of every block (`Every`), and operations on whole trees
keep or establish them one by one; operations on one block are followed up to the root
(`Consistent.modifyAt`).

* `consistent_readjust`: if slots and parameters are right, the rest can be made right.
* `setParam_cases`: what changing a parameter does to a block.
* `Consistent.apply`, `Consistent.applyAll`: one operation of an editor keeps a tree consistent, and
  so does any sequence of them.
* `edited_trees_consistent`: the main result.
-/

namespace BlockCalculus

namespace Block

/-! ## Consistent trees -/

/-- The parameters and slots of a block are the standard ones: names, minimums, and the rules for
numbers of inputs. -/
def Standard (b : Block) : Prop :=
  b.head.Fitted ∧ Slot.Follow b.head.layout b.slots

/-- The blocks in the slots of a block have the numbers of inputs that follow from it. -/
def CountsFollow (b : Block) : Prop :=
  ∀ s ∈ b.slots, ∀ c ∈ s.occupant, c.head.inputCount = s.shape.inputs b.head.inputCount

/-- The blocks in the slots of a block are one deeper than it. -/
def DepthsFollow (b : Block) : Prop :=
  ∀ s ∈ b.slots, ∀ c ∈ s.occupant, c.head.depth = b.head.depth + 1

/-- **A consistent tree**: what blocks keep about their place in the tree is up to date. -/
structure Consistent (b : Block) : Prop where
  standard : b.Every Standard
  counts : b.Every CountsFollow
  depths : b.Every DepthsFollow

/-- A tree is consistent if its root agrees with the blocks in its slots and these are
consistent. -/
theorem consistent_mk {head : Head} {slots : List Slot} :
    Consistent ⟨head, slots⟩ ↔ head.Fitted ∧ Slot.Follow head.layout slots ∧
      ∀ s ∈ slots, ∀ c ∈ s.occupant, c.head.inputCount = s.shape.inputs head.inputCount ∧
        c.head.depth = head.depth + 1 ∧ c.Consistent := by
  constructor
  · rintro ⟨hstandard, hcounts, hdepths⟩
    rw [every_mk] at hstandard hcounts hdepths
    refine ⟨hstandard.1.1, hstandard.1.2, fun s hs c hc => ⟨?_, ?_, ?_⟩⟩
    · exact hcounts.1 s hs c hc
    · exact hdepths.1 s hs c hc
    · exact ⟨hstandard.2 s hs c hc, hcounts.2 s hs c hc, hdepths.2 s hs c hc⟩
  · rintro ⟨hfit, hfollow, hin⟩
    refine ⟨every_mk.mpr ⟨⟨hfit, hfollow⟩, ?_⟩, every_mk.mpr ⟨?_, ?_⟩, every_mk.mpr ⟨?_, ?_⟩⟩
    · exact fun s hs c hc => (hin s hs c hc).2.2.standard
    · exact fun s hs c hc => (hin s hs c hc).1
    · exact fun s hs c hc => (hin s hs c hc).2.2.counts
    · exact fun s hs c hc => (hin s hs c hc).2.1
    · exact fun s hs c hc => (hin s hs c hc).2.2.depths

/-! ## What changes of heads keep -/

section Heads

variable {f : Head → Head}

theorem standard_mapHeads (hf : ∀ h, (f h).kind = h.kind ∧ (f h).params = h.params) (b : Block) :
    (b.mapHeads f).Standard ↔ b.Standard := by
  obtain ⟨hlayout, hfitted⟩ := Head.layout_congr (hf b.head)
  unfold Standard Slot.Follow
  rw [head_mapHeads, hlayout, hfitted, slots_mapHeads, List.map_map]
  rfl

theorem countsFollow_mapHeads (hf : ∀ h, (f h).inputCount = h.inputCount) (b : Block) :
    (b.mapHeads f).CountsFollow ↔ b.CountsFollow := by
  unfold CountsFollow
  rw [slots_mapHeads, List.forall_mem_map]
  simp [hf]

theorem depthsFollow_mapHeads (hf : ∀ h, (f h).depth = h.depth) (b : Block) :
    (b.mapHeads f).DepthsFollow ↔ b.DepthsFollow := by
  unfold DepthsFollow
  rw [slots_mapHeads, List.forall_mem_map]
  simp [hf]

/-- Consistency goes by kinds, parameters, numbers of inputs and depths. -/
theorem consistent_congr {b b' : Block} (h : b.mapHeads f = b'.mapHeads f)
    (hlayout : ∀ h, (f h).kind = h.kind ∧ (f h).params = h.params)
    (hcount : ∀ h, (f h).inputCount = h.inputCount) (hdepth : ∀ h, (f h).depth = h.depth) :
    b.Consistent ↔ b'.Consistent := by
  constructor
  · rintro ⟨hstandard, hcounts, hdepths⟩
    exact ⟨(every_congr h (standard_mapHeads hlayout)).mp hstandard,
      (every_congr h (countsFollow_mapHeads hcount)).mp hcounts,
      (every_congr h (depthsFollow_mapHeads hdepth)).mp hdepths⟩
  · rintro ⟨hstandard, hcounts, hdepths⟩
    exact ⟨(every_congr h (standard_mapHeads hlayout)).mpr hstandard,
      (every_congr h (countsFollow_mapHeads hcount)).mpr hcounts,
      (every_congr h (depthsFollow_mapHeads hdepth)).mpr hdepths⟩

end Heads

/-! ## Giving numbers of inputs and depths -/

theorem countsFollow_propagate (count : Int) (b : Block) :
    (b.propagate count).Every CountsFollow := by
  induction b using Block.induction generalizing count with
  | mk head slots ih =>
    rw [propagate_mk, every_mk]
    constructor
    · simp only [CountsFollow, List.forall_mem_map, Slot.forall_occupant_within]
      intro s _ c _
      rw [head_propagate, Slot.shape_within]
    · simp only [List.forall_mem_map, Slot.forall_occupant_within]
      exact fun s hs c hc => ih s hs c hc _

theorem depthsFollow_setDepth (depth : Int) (b : Block) :
    (b.setDepth depth).Every DepthsFollow := by
  induction b using Block.induction generalizing depth with
  | mk head slots ih =>
    rw [setDepth_mk, every_mk]
    constructor
    · simp only [DepthsFollow, List.forall_mem_map, Slot.forall_occupant_within]
      intro s _ c _
      rw [head_setDepth]
    · simp only [List.forall_mem_map, Slot.forall_occupant_within]
      exact fun s hs c hc => ih s hs c hc _

theorem standard_propagate {count : Int} {b : Block} :
    (b.propagate count).Every Standard ↔ b.Every Standard :=
  every_congr (f := fun h => { h with inputCount := 0 })
    (mapHeads_propagate_eq (fun _ _ => rfl) count b) (standard_mapHeads fun _ => ⟨rfl, rfl⟩)

theorem depthsFollow_propagate {count : Int} {b : Block} :
    (b.propagate count).Every DepthsFollow ↔ b.Every DepthsFollow :=
  every_congr (f := fun h => { h with inputCount := 0 })
    (mapHeads_propagate_eq (fun _ _ => rfl) count b) (depthsFollow_mapHeads fun _ => rfl)

theorem standard_setDepth {depth : Int} {b : Block} :
    (b.setDepth depth).Every Standard ↔ b.Every Standard :=
  every_congr (f := fun h => { h with depth := 0 })
    (mapHeads_setDepth_eq (fun _ _ => rfl) depth b) (standard_mapHeads fun _ => ⟨rfl, rfl⟩)

theorem countsFollow_setDepth {depth : Int} {b : Block} :
    (b.setDepth depth).Every CountsFollow ↔ b.Every CountsFollow :=
  every_congr (f := fun h => { h with depth := 0 })
    (mapHeads_setDepth_eq (fun _ _ => rfl) depth b) (countsFollow_mapHeads fun _ => rfl)

theorem Consistent.propagate {b : Block} (hb : b.Consistent) (count : Int) :
    (b.propagate count).Consistent where
  standard := standard_propagate.mpr hb.standard
  counts := countsFollow_propagate count b
  depths := depthsFollow_propagate.mpr hb.depths

theorem Consistent.setDepth {b : Block} (hb : b.Consistent) (depth : Int) :
    (b.setDepth depth).Consistent where
  standard := standard_setDepth.mpr hb.standard
  counts := countsFollow_setDepth.mpr hb.counts
  depths := depthsFollow_setDepth depth b

/-- Gives every block but the root the number of inputs and the depth that follow from the root. -/
def readjust (b : Block) : Block :=
  (b.propagate b.head.inputCount).setDepth b.head.depth

/-- Standard parameters and slots are all it takes to make a tree consistent. -/
theorem consistent_readjust {b : Block} (h : b.Every Standard) : b.readjust.Consistent where
  standard := standard_setDepth.mpr (standard_propagate.mpr h)
  counts := countsFollow_setDepth.mpr (countsFollow_propagate _ b)
  depths := depthsFollow_setDepth _ _

/-! ## Where consistent trees come from -/

theorem standard_of_conforms {b : Block} (hb : b.Conforms) : b.Every Standard := by
  refine hb.imp fun c hc => ⟨hc.1, ?_⟩
  have hrules := congrArg (List.map SlotShape.rule) hc.2
  simpa [Slot.shapes, Slot.Follow, Function.comp_def] using hrules

theorem Loaded.depthsFollow {levels : Nat} {depth : Int} {b : Block} (hb : b.Loaded levels depth) :
    b.Every DepthsFollow :=
  hb.setDepth_eq ▸ depthsFollow_setDepth depth b

/-- A loaded tree is consistent once it has its numbers of inputs. -/
theorem Loaded.consistent_propagate {levels : Nat} {depth : Int} {b : Block}
    (hb : b.Loaded levels depth) (count : Int) : (b.propagate count).Consistent where
  standard := standard_propagate.mpr (standard_of_conforms hb.conforms)
  counts := countsFollow_propagate count b
  depths := depthsFollow_propagate.mpr hb.depthsFollow

/-- A check, however far it gets, keeps a tree consistent. -/
theorem Consistent.check {b : Block} (hb : b.Consistent) (c : Catalog) :
    (b.check c).1.Consistent :=
  (consistent_congr (f := fun h => { h with problems := [] })
    (mapHeads_checkWithin_eq (fun _ _ => rfl) c nestingLimit b) (fun _ => ⟨rfl, rfl⟩)
    (fun _ => rfl) fun _ => rfl).mpr hb

/-- A new block of any kind can be made, and is consistent. -/
theorem exists_create (kind : Kind) (inputCount depth : Int) (name : Option String)
    (desk : Desk) : ∃ b desk',
      (Catalog.standard.create kind inputCount depth name).outcome desk = (.ok b, desk') ∧
        b.Consistent := by
  have hget : Catalog.standard.get kind = .ok (Catalog.entryOf kind) := by
    rw [Catalog.get, Catalog.lookup?_standard]
  unfold Catalog.create
  rw [hget]
  refine ⟨_, _, rfl, consistent_mk.mpr ⟨?_, ?_, ?_⟩⟩
  · simp [Head.Fitted, Entry.newParams, Function.comp_def]
  · simp [Slot.Follow, Head.layout, Catalog.emptySlots, Function.comp_def]
  · simp [Catalog.emptySlots]

/-- The root of a state that was loaded is consistent. -/
theorem consistent_root {s : EditorState} (hs : s.Opened .standard) {root : Block}
    (hroot : s.root = some root) : root.Consistent := by
  obtain ⟨data, b, before, after, hload, hchecked⟩ := hs.root root hroot
  have hb := (loaded_of_load hload).consistent_propagate s.inputCount
  have hcheck := hb.check .standard
  rwa [check_of_checked hchecked] at hcheck

/-- A block taken from a library is consistent. -/
theorem consistent_instantiate {lib : Library} (hlib : lib.catalog = .standard) {name : String}
    {inputCount depth : Int} {desk desk' : Desk} {b : Block}
    (h : (lib.instantiate name inputCount depth).outcome desk = (.ok b, desk')) :
    b.Consistent := by
  unfold Library.instantiate at h
  split at h
  · simp at h
  · rw [hlib] at h
    obtain ⟨loaded, between, hloaded, h⟩ := Build.exists_of_bind h
    obtain ⟨rfl, -⟩ : loaded.propagate inputCount = b ∧ between = desk' := by simpa using h
    exact (loaded_of_ofJson hloaded).consistent_propagate inputCount

/-! ## Changing a parameter -/

/-- Slots are laid out anew if they follow from the parameters, but not as they are. -/
theorem outcome_refresh (b : Block) (desk : Desk) :
    (refresh .standard b).outcome desk =
      if (Catalog.entryOf b.head.kind).counted = true ∧ b.head.layout ≠ Slot.shapes b.slots then
        (.ok (true, ⟨{ b.head with id := freshId (desk.issued + 1) },
          settle b.head (Slot.reconcile b.slots b.head.layout)⟩),
          { desk with issued := desk.issued + 1 })
      else (.ok (false, b), desk) := by
  unfold refresh Head.layout
  rw [Catalog.get, Catalog.lookup?_standard, Build.outcome_bind, Build.outcome_ofExcept]
  cases hcounted : (Catalog.entryOf b.head.kind).counted with
  | false => simp [hcounted]
  | true =>
    by_cases hshapes : (Catalog.entryOf b.head.kind).layout b.head.params = Slot.shapes b.slots
    · simp [hcounted, hshapes]
    · simp [hcounted, hshapes, Except.map]

/-- The head with a value stored in its parameters. -/
def stored (name : String) (value : Int) (h : Head) : Head :=
  { h with params := storeParam name value h.params }

theorem fitted_stored (name : String) (value : Int) {h : Head} (hfit : h.Fitted) :
    (stored name value h).Fitted := by
  have hkept : (storeParam name value h.params).map (fun p => (p.name, p.minimum)) =
      h.params.map fun p => (p.name, p.minimum) := by
    induction h.params with
    | nil => rfl
    | cons p rest ih =>
      rw [storeParam]
      split
      · rfl
      · rw [List.map_cons, List.map_cons, ih]
  exact hkept.trans hfit

theorem setParam_eq {name : String} {b : Block} (hparam : (b.param? name).isNone = false)
    (c : Catalog) (value : Int) (desk : Desk) :
    ((b.setParam c name value).run desk).1.1 =
      match ((refresh c ⟨stored name value b.head, b.slots⟩).outcome desk).1 with
      | .ok (_, refreshed) => refreshed
      | .error _ => ⟨stored name value b.head, b.slots⟩ := by
  unfold setParam
  rw [hparam, if_neg Bool.false_ne_true]
  unfold Build.outcome
  rw [StateT.run_bind]
  unfold stored
  generalize (refresh c _).run.run desk = result
  obtain ⟨_ | ⟨_, _⟩, _⟩ := result <;> rfl

/-- **What changing a parameter does to a block**: nothing without such a parameter. Otherwise the
value is stored, and either the slots stay, since the layout is what it was or what they have, or
they are laid out anew. -/
theorem setParam_cases (name : String) (value : Int) (b : Block) (desk : Desk) :
    ∃ b', ((b.setParam .standard name value).run desk).1.1 = b' ∧
      (b' = b ∨
        b' = ⟨stored name value b.head, b.slots⟩ ∧
          ((stored name value b.head).layout = b.head.layout ∨
            (stored name value b.head).layout = Slot.shapes b.slots) ∨
        ∃ id, b' = ⟨{ stored name value b.head with id },
          settle (stored name value b.head)
            (Slot.reconcile b.slots (stored name value b.head).layout)⟩) := by
  refine ⟨_, rfl, ?_⟩
  cases hparam : (b.param? name).isNone with
  | true =>
    refine .inl ?_
    rw [setParam, hparam, if_pos rfl]
    rfl
  | false =>
    rw [setParam_eq hparam, outcome_refresh]
    by_cases hcounted : (Catalog.entryOf b.head.kind).counted = true
    · by_cases hshapes : (stored name value b.head).layout = Slot.shapes b.slots
      · rw [if_neg fun h => h.2 hshapes]
        exact .inr (.inl ⟨rfl, .inr hshapes⟩)
      · rw [if_pos ⟨hcounted, hshapes⟩]
        exact .inr (.inr ⟨_, rfl⟩)
    · rw [if_neg fun h => hcounted h.1]
      refine .inr (.inl ⟨rfl, .inl ?_⟩)
      unfold Head.layout Entry.layout stored
      rw [if_neg hcounted, if_neg hcounted]

/-- A block whose slots are laid out anew is consistent if it was before. -/
theorem consistent_settle {head : Head} (hfit : head.Fitted) {old : List Slot}
    (hold : ∀ s ∈ old, ∀ c ∈ s.occupant, c.Consistent) (id : String) :
    Consistent ⟨{ head with id }, settle head (Slot.reconcile old head.layout)⟩ := by
  refine consistent_mk.mpr ⟨hfit, ?_, ?_⟩
  · simp only [Slot.Follow, settle, Slot.reconcile, List.map_map]
    rfl
  · unfold settle
    rw [List.forall_mem_map]
    intro s hs c hc
    obtain ⟨d, hd, rfl⟩ := Option.map_eq_some_iff.mp hc
    obtain ⟨t, ht, hdt⟩ := Slot.exists_of_mem_reconcile hs hd
    refine ⟨?_, ?_, ((hold t ht d hdt).propagate _).setDepth _⟩
    · rw [head_setDepth, head_propagate]
    · rw [head_setDepth]

/-- **A changed parameter leaves a block consistent**, with the number of inputs and the depth that
it had. -/
theorem Consistent.setParam {b : Block} (hb : b.Consistent) (name : String) (value : Int)
    (desk : Desk) :
    ((b.setParam .standard name value).run desk).1.1.Consistent ∧
      ((b.setParam .standard name value).run desk).1.1.head.inputCount = b.head.inputCount ∧
      ((b.setParam .standard name value).run desk).1.1.head.depth = b.head.depth := by
  obtain ⟨b', hb', hcases⟩ := setParam_cases name value b desk
  rw [hb']
  obtain ⟨head, slots⟩ := b
  have hparts := consistent_mk.mp hb
  have hfit := fitted_stored name value hparts.1
  obtain rfl | ⟨rfl, hlayout⟩ | ⟨id, rfl⟩ := hcases
  · exact ⟨hb, rfl, rfl⟩
  · refine ⟨consistent_mk.mpr ⟨hfit, ?_, hparts.2.2⟩, rfl, rfl⟩
    obtain hlayout | hlayout := hlayout
    · rw [hlayout]
      exact hparts.2.1
    · rw [hlayout]
      simp [Slot.Follow, Slot.shapes, Function.comp_def]
  · refine ⟨consistent_settle hfit (fun s hs c hc => ?_) id, rfl, rfl⟩
    exact (hparts.2.2 s hs c hc).2.2

/-! ## Changing one block of a tree -/

/-- An item of a list with one item changed is the changed one, or it was there before. -/
theorem mem_or_eq_of_mem_modify {α : Type} {f : α → α} {i : Nat} {items : List α} {a : α}
    (h : a ∈ items.modify i f) : a ∈ items ∨ ∃ b, items[i]? = some b ∧ a = f b := by
  obtain ⟨j, hj⟩ := List.mem_iff_getElem?.mp h
  rw [List.getElem?_modify] at hj
  obtain ⟨b, hb, hab⟩ := Option.map_eq_some_iff.mp hj
  by_cases hij : i = j
  · rw [if_pos hij] at hab
    exact .inr ⟨b, hij ▸ hb, hab.symm⟩
  · rw [if_neg hij] at hab
    exact .inl (hab ▸ List.mem_of_getElem? hb)

theorem shapes_modify_within (f : SlotShape → Block → Block) (i : Nat) (slots : List Slot) :
    Slot.shapes (slots.modify i (Slot.within f)) = Slot.shapes slots := by
  refine List.ext_getElem? fun j => ?_
  simp only [Slot.shapes, List.getElem?_map, List.getElem?_modify]
  cases slots[j]? with
  | none => rfl
  | some s => by_cases hij : i = j <;> simp [hij]

/-- The root of a consistent tree can get other slots of the same shapes, with consistent occupants
that agree with it. -/
theorem Consistent.of_slots {head : Head} {slots slots' : List Slot}
    (h : Consistent ⟨head, slots⟩) (hshapes : Slot.shapes slots' = Slot.shapes slots)
    (hin : ∀ s ∈ slots', ∀ c ∈ s.occupant, c.head.inputCount = s.shape.inputs head.inputCount ∧
      c.head.depth = head.depth + 1 ∧ c.Consistent) : Consistent ⟨head, slots'⟩ := by
  have hparts := consistent_mk.mp h
  exact consistent_mk.mpr ⟨hparts.1, hparts.2.1.congr_shape hshapes, hin⟩

/-- **A tree stays consistent if one of its blocks makes way for a consistent block** of the same
number of inputs and the same depth. -/
theorem Consistent.modifyAt {tree b b' : Block} {p : Position} (htree : tree.Consistent)
    (hb : tree.at? p = some b) (hb' : b'.Consistent)
    (hcount : b'.head.inputCount = b.head.inputCount) (hdepth : b'.head.depth = b.head.depth) :
    (tree.modifyAt (fun _ => b') p).Consistent ∧
      (tree.modifyAt (fun _ => b') p).head.inputCount = tree.head.inputCount ∧
      (tree.modifyAt (fun _ => b') p).head.depth = tree.head.depth := by
  induction p generalizing tree with
  | nil =>
    obtain rfl : tree = b := by simpa using hb
    rw [Block.modifyAt]
    exact ⟨hb', hcount, hdepth⟩
  | cons i rest ih =>
    obtain ⟨head, slots⟩ := tree
    rw [Block.modifyAt]
    have hin := (consistent_mk.mp htree).2.2
    refine ⟨htree.of_slots ?_ fun s hs c hc => ?_, rfl, rfl⟩
    · exact shapes_modify_within (fun _ => Block.modifyAt (fun _ => b') rest) i slots
    obtain hs | ⟨t, ht, rfl⟩ := mem_or_eq_of_mem_modify hs
    · exact hin s hs c hc
    · -- the slot on the way: its occupant is changed further down
      obtain ⟨d, hd, rfl⟩ := Option.map_eq_some_iff.mp hc
      obtain ⟨shape, occupant⟩ := t
      obtain rfl : occupant = some d := hd
      have hd := hin _ (List.mem_of_getElem? ht) d rfl
      have hat : d.at? rest = some b := by simpa [at?, ht] using hb
      obtain ⟨hnew, hcount, hdepth⟩ := ih hd.2.2 hat
      exact ⟨hcount.trans hd.1, hdepth.trans hd.2.1, hnew⟩

/-- Every block of a consistent tree is consistent. -/
theorem Consistent.at? {tree b : Block} {p : Position} (htree : tree.Consistent)
    (hb : tree.at? p = some b) : b.Consistent := by
  induction p generalizing tree with
  | nil =>
    obtain rfl : tree = b := by simpa using hb
    exact htree
  | cons i rest ih =>
    obtain ⟨head, slots⟩ := tree
    rw [Block.at?] at hb
    split at hb
    · rename_i shape c hslot
      exact ih ((consistent_mk.mp htree).2.2 _ (List.mem_of_getElem? hslot) c rfl).2.2 hb
    · simp at hb

/-! ## Removing blocks -/

/-- Emptying a slot changes no shape and no other slot. -/
theorem emptyFirst?_spec {id : String} {slots slots' : List Slot}
    (h : emptyFirst? id slots = some slots') :
    Slot.shapes slots' = Slot.shapes slots ∧ ∀ s ∈ slots', ∀ c ∈ s.occupant, s ∈ slots := by
  induction slots generalizing slots' with
  | nil => simp [emptyFirst?] at h
  | cons s rest ih =>
    have hlater : ∀ rest', emptyFirst? id rest = some rest' → s :: rest' = slots' →
        Slot.shapes slots' = Slot.shapes (s :: rest) ∧
          ∀ t ∈ slots', ∀ c ∈ t.occupant, t ∈ s :: rest := by
      rintro rest' hrest' rfl
      obtain ⟨hshapes, hin⟩ := ih hrest'
      refine ⟨congrArg (List.cons s.shape) hshapes, fun t ht c hc => ?_⟩
      obtain rfl | ht := List.mem_cons.mp ht
      · exact List.mem_cons_self
      · exact List.mem_cons_of_mem s (hin t ht c hc)
    rw [emptyFirst?] at h
    split at h
    · split at h
      · obtain rfl := Option.some.inj h
        refine ⟨rfl, fun t ht c hc => ?_⟩
        obtain rfl | ht := List.mem_cons.mp ht
        · simp at hc
        · exact List.mem_cons_of_mem s ht
      · obtain ⟨rest', hrest', heq⟩ := Option.map_eq_some_iff.mp h
        exact hlater rest' hrest' heq
    · obtain ⟨rest', hrest', heq⟩ := Option.map_eq_some_iff.mp h
      exact hlater rest' hrest' heq

/-- Taking a block out below slots changes no shape, and one slot only: that in whose occupant the
block was. -/
theorem detachIn?_spec {id : String} {slots slots' : List Slot}
    (h : detachIn? id slots = some slots') :
    Slot.shapes slots' = Slot.shapes slots ∧ ∀ s ∈ slots', s ∈ slots ∨
      ∃ b b', ⟨s.shape, some b⟩ ∈ slots ∧ detach? id b = some b' ∧ s.occupant = some b' := by
  induction slots generalizing slots' with
  | nil => simp [detachIn?] at h
  | cons s rest ih =>
    have hlater : ∀ rest', detachIn? id rest = some rest' → s :: rest' = slots' →
        Slot.shapes slots' = Slot.shapes (s :: rest) ∧ ∀ t ∈ slots', t ∈ s :: rest ∨
          ∃ b b', ⟨t.shape, some b⟩ ∈ s :: rest ∧ detach? id b = some b' ∧
            t.occupant = some b' := by
      rintro rest' hrest' rfl
      obtain ⟨hshapes, hin⟩ := ih hrest'
      refine ⟨congrArg (List.cons s.shape) hshapes, fun t ht => ?_⟩
      obtain rfl | ht := List.mem_cons.mp ht
      · exact .inl List.mem_cons_self
      · obtain ht | ⟨b, b', hb, hdetach⟩ := hin t ht
        · exact .inl (List.mem_cons_of_mem s ht)
        · exact .inr ⟨b, b', List.mem_cons_of_mem s hb, hdetach⟩
    obtain ⟨shape, occupant⟩ := s
    cases occupant with
    | none =>
      rw [detachIn?] at h
      obtain ⟨rest', hrest', heq⟩ := Option.map_eq_some_iff.mp h
      exact hlater rest' hrest' heq
    | some b =>
      rw [detachIn?] at h
      split at h
      · rename_i b' hb'
        obtain rfl := Option.some.inj h
        refine ⟨rfl, fun t ht => ?_⟩
        obtain rfl | ht := List.mem_cons.mp ht
        · exact .inr ⟨b, b', List.mem_cons_self, hb', rfl⟩
        · exact .inl (List.mem_cons_of_mem _ ht)
      · obtain ⟨rest', hrest', heq⟩ := Option.map_eq_some_iff.mp h
        exact hlater rest' hrest' heq

/-- Taking a block out of a tree keeps it consistent, and its root. -/
theorem Consistent.detach? {id : String} {b b' : Block} (hb : b.Consistent)
    (h : detach? id b = some b') : b'.Consistent ∧ b'.head = b.head := by
  induction b using Block.induction generalizing b' with
  | mk head slots ih =>
    have hin := (consistent_mk.mp hb).2.2
    rw [Block.detach?] at h
    split at h
    · rename_i slots' hslots'
      obtain ⟨hshapes, hkept⟩ := emptyFirst?_spec hslots'
      obtain rfl := Option.some.inj h
      exact ⟨hb.of_slots hshapes fun s hs c hc => hin s (hkept s hs c hc) c hc, rfl⟩
    · obtain ⟨slots', hslots', rfl⟩ := Option.map_eq_some_iff.mp h
      obtain ⟨hshapes, hkept⟩ := detachIn?_spec hslots'
      refine ⟨hb.of_slots hshapes fun s hs c hc => ?_, rfl⟩
      obtain hs | ⟨d, d', hd, hdetach, hoccupant⟩ := hkept s hs
      · exact hin s hs c hc
      · obtain rfl : d' = c := Option.some.inj (hoccupant.symm.trans hc)
        obtain ⟨hcount, hdepth, hconsistent⟩ := hin _ hd d rfl
        obtain ⟨hnew, hhead⟩ := ih _ hd d rfl hconsistent hdetach
        rw [hhead]
        exact ⟨hcount, hdepth, hnew⟩

theorem Consistent.erase {b : Block} (hb : b.Consistent) (id : String) :
    (b.erase id).Consistent := by
  unfold Block.erase
  cases hdetach : b.detach? id with
  | none => exact hb
  | some b' => exact (hb.detach? hdetach).1

/-! ## Putting blocks into slots -/

theorem standard_of_slots {head : Head} {slots slots' : List Slot}
    (h : Every Standard ⟨head, slots⟩) (hshapes : Slot.shapes slots' = Slot.shapes slots)
    (hin : ∀ s ∈ slots', ∀ c ∈ s.occupant, c.Every Standard) : Every Standard ⟨head, slots'⟩ := by
  have hroot : head.Fitted ∧ Slot.Follow head.layout slots := h.root
  exact every_mk.mpr ⟨⟨hroot.1, hroot.2.congr_shape hshapes⟩, hin⟩

/-- Filling a slot changes no shape and no other slot. -/
theorem place_spec (name : String) (occupant : Option Block) (slots : List Slot) :
    Slot.shapes (place.go name occupant slots) = Slot.shapes slots ∧
      ∀ s ∈ place.go name occupant slots, s ∈ slots ∨ s.occupant = occupant := by
  induction slots with
  | nil => simp [place.go]
  | cons s rest ih =>
    rw [place.go]
    split
    · refine ⟨rfl, fun t ht => ?_⟩
      obtain rfl | ht := List.mem_cons.mp ht
      · exact .inr rfl
      · exact .inl (List.mem_cons_of_mem s ht)
    · refine ⟨congrArg (List.cons s.shape) ih.1, fun t ht => ?_⟩
      obtain rfl | ht := List.mem_cons.mp ht
      · exact .inl List.mem_cons_self
      · exact (ih.2 t ht).imp (List.mem_cons_of_mem s) fun h => h

/-- What is put into a slot has standard parameters and slots, and so the tree keeps having them. -/
theorem standard_place {b : Block} (hb : b.Every Standard) (name : String)
    {occupant : Option Block} (hput : ∀ c ∈ occupant, c.Every Standard) :
    (b.place name occupant).Every Standard := by
  obtain ⟨head, slots⟩ := b
  obtain ⟨hshapes, hkept⟩ := place_spec name occupant slots
  refine standard_of_slots hb hshapes fun s hs c hc => ?_
  obtain hs | hs := hkept s hs
  · exact (every_mk.mp hb).2 s hs c hc
  · exact hput c (hs ▸ hc)

theorem standard_modifyAt {f : Block → Block} (hf : ∀ b, b.Every Standard → (f b).Every Standard)
    (p : Position) {tree : Block} (htree : tree.Every Standard) :
    (tree.modifyAt f p).Every Standard := by
  induction p generalizing tree with
  | nil =>
    rw [Block.modifyAt]
    exact hf tree htree
  | cons i rest ih =>
    obtain ⟨head, slots⟩ := tree
    have hin := (every_mk.mp htree).2
    rw [Block.modifyAt]
    refine standard_of_slots htree ?_ fun s hs c hc => ?_
    · exact shapes_modify_within (fun _ => Block.modifyAt f rest) i slots
    obtain hs | ⟨t, ht, rfl⟩ := mem_or_eq_of_mem_modify hs
    · exact hin s hs c hc
    · obtain ⟨d, hd, rfl⟩ := Option.map_eq_some_iff.mp hc
      exact ih (hin t (List.mem_of_getElem? ht) d hd)

end Block

/-! ## Sequences of edits -/

/-- An operation of an editor on a tree. -/
inductive Edit where
  /-- Gives a parameter of the block at a position a value. -/
  | setParam (p : Position) (name : String) (value : Int)
  | remove (id : String)
  | toggleBreakpoint (id : String)
  | check
  | clearTrace
  | copy
  | propagate (count : Int)
  | setDepth (depth : Int)
  /-- Puts a block, or nothing, into a slot of a copy of the tree. -/
  | replace (slot : String) (occupant : Option Block)
  /-- Puts a block, or nothing, into a slot of the block at a position. -/
  | assign (p : Position) (slot : String) (occupant : Option Block)

namespace Edit

/-- The block that is put into a slot. -/
def put? : Edit → Option Block
  | replace _ occupant | assign _ _ occupant => occupant
  | _ => none

/-- The tree after an operation. One that fails leaves the tree as it was, but for the problems that
a check found so far. Numbers of inputs and depths are given anew after a block was put into a
slot. -/
def apply (tree : Block) (desk : Desk) : Edit → Block × Desk
  | setParam p name value =>
    match tree.at? p with
    | none => (tree, desk)
    | some b =>
      let (answer, desk') := (b.setParam .standard name value).run desk
      (tree.modifyAt (fun _ => answer.1) p, desk')
  | remove id => ((tree.remove id).toOption.getD tree, desk)
  | toggleBreakpoint id => (((tree.toggleBreakpoint id).toOption.map Prod.snd).getD tree, desk)
  | check => ((tree.check .standard).1, desk)
  | clearTrace => (tree.clearTrace, desk)
  | copy => (tree.copy.toOption.getD tree, desk)
  | propagate count => (tree.propagate count, desk)
  | setDepth depth => (tree.setDepth depth, desk)
  | replace slot occupant =>
    (((tree.replace slot occupant).toOption.map Block.readjust).getD tree, desk)
  | assign p slot occupant => ((tree.modifyAt (Block.place slot occupant) p).readjust, desk)

/-- The tree after operations, one after the other. -/
def applyAll (tree : Block) (desk : Desk) : List Edit → Block × Desk
  | [] => (tree, desk)
  | e :: rest => applyAll (e.apply tree desk).1 (e.apply tree desk).2 rest

end Edit

namespace Block

theorem Consistent.toggleBreakpoint {b b' : Block} {id : String} {flag : Bool} (hb : b.Consistent)
    (h : b.toggleBreakpoint id = .ok (flag, b')) : b'.Consistent := by
  unfold Block.toggleBreakpoint at h
  dsimp only at h
  split at h
  · rename_i c d hfind hupdate
    obtain ⟨-, rfl⟩ := Prod.mk.inj (Except.ok.inj h)
    have hsame := mapHeads_updateFirst?_eq (f := fun h => { h with breakpoint := false })
      (g := fun h => { h with breakpoint := !h.breakpoint }) (fun _ => rfl) b d hupdate
    exact (consistent_congr hsame (fun _ => ⟨rfl, rfl⟩) (fun _ => rfl) fun _ => rfl).mpr hb
  · cases h

theorem Consistent.clearTrace {b : Block} (hb : b.Consistent) : b.clearTrace.Consistent := by
  have hsame : b.clearTrace.mapHeads (fun h => { h with lastInput := none, lastOutput := none }) =
      b.mapHeads fun h => { h with lastInput := none, lastOutput := none } :=
    mapHeads_mapHeads _ _ b
  exact (consistent_congr hsame (fun _ => ⟨rfl, rfl⟩) (fun _ => rfl) fun _ => rfl).mpr hb

theorem eq_of_copy {b c : Block} (h : b.copy = .ok c) : c = b := by
  unfold copy at h
  split at h
  · exact (Except.ok.inj h).symm
  · cases h

theorem toOption_getD_copy (b : Block) : b.copy.toOption.getD b = b := by
  unfold copy
  split <;> rfl

/-- **An operation on a consistent tree leaves a consistent tree.** -/
theorem Consistent.apply {tree : Block} (htree : tree.Consistent) (desk : Desk) (e : Edit)
    (hput : ∀ c ∈ e.put?, c.Consistent) : (e.apply tree desk).1.Consistent := by
  cases e with
  | setParam p name value =>
    unfold Edit.apply
    dsimp only
    split
    · exact htree
    · rename_i b hb
      obtain ⟨hnew, hcount, hdepth⟩ := (htree.at? hb).setParam name value desk
      exact (htree.modifyAt hb hnew hcount hdepth).1
  | remove id =>
    unfold Edit.apply Block.remove
    cases hcopy : tree.copy with
    | error f => exact htree
    | ok b =>
      obtain rfl := eq_of_copy hcopy
      exact htree.erase id
  | toggleBreakpoint id =>
    unfold Edit.apply
    dsimp only
    cases hflip : tree.toggleBreakpoint id with
    | error f => exact htree
    | ok answer => exact htree.toggleBreakpoint hflip
  | check => exact htree.check .standard
  | clearTrace => exact htree.clearTrace
  | copy =>
    unfold Edit.apply
    dsimp only
    rw [toOption_getD_copy]
    exact htree
  | propagate count => exact htree.propagate count
  | setDepth depth => exact htree.setDepth depth
  | replace slot occupant =>
    unfold Edit.apply Block.replace
    cases hcopy : tree.copy with
    | error f => exact htree
    | ok b =>
      obtain rfl := eq_of_copy hcopy
      refine consistent_readjust (standard_place htree.standard slot fun c hc => ?_)
      exact (hput c hc).standard
  | assign p slot occupant =>
    refine consistent_readjust (standard_modifyAt (fun b hb => ?_) p htree.standard)
    exact standard_place hb slot fun c hc => (hput c hc).standard

/-- **Any sequence of operations on a consistent tree leaves a consistent tree.** -/
theorem Consistent.applyAll {tree : Block} (htree : tree.Consistent) (desk : Desk)
    (edits : List Edit) (hput : ∀ e ∈ edits, ∀ c ∈ e.put?, c.Consistent) :
    (Edit.applyAll tree desk edits).1.Consistent := by
  induction edits generalizing tree desk with
  | nil => exact htree
  | cons e rest ih =>
    rw [List.forall_mem_cons] at hput
    rw [Edit.applyAll]
    exact ih (htree.apply desk e hput.1) _ hput.2

/-- **Trees are consistent, however they are made and edited**: new blocks, the roots of documents
and blocks taken from a library are, and any sequence of operations keeps a tree so. -/
theorem edited_trees_consistent :
    (∀ (kind : Kind) (inputCount depth : Int) (name : Option String) (desk : Desk), ∃ b desk',
      (Catalog.standard.create kind inputCount depth name).outcome desk = (.ok b, desk') ∧
        b.Consistent) ∧
    (∀ (files : Files) (source : Source) (desk desk' : Desk) (s : EditorState) (root : Block),
      (EditorState.load files .standard source).outcome desk = (.ok (.ok s), desk') →
        s.root = some root → root.Consistent) ∧
    (∀ (lib : Library) (name : String) (inputCount depth : Int) (desk desk' : Desk) (b : Block),
      lib.catalog = .standard →
        (lib.instantiate name inputCount depth).outcome desk = (.ok b, desk') → b.Consistent) ∧
    ∀ (tree : Block) (desk : Desk) (edits : List Edit), tree.Consistent →
      (∀ e ∈ edits, ∀ c ∈ e.put?, c.Consistent) →
        (Edit.applyAll tree desk edits).1.Consistent := by
  refine ⟨exists_create, ?_, ?_, ?_⟩
  · intro files source desk desk' s root hload hroot
    obtain ⟨doc, hdoc⟩ := EditorState.exists_of_load hload
    exact consistent_root (EditorState.opened_of_ofSound hdoc) hroot
  · intro lib name inputCount depth desk desk' b hlib hb
    exact consistent_instantiate hlib hb
  · intro tree desk edits htree hput
    exact htree.applyAll desk edits hput

/-- A document with one block. -/
def lone : Json :=
  .obj [("fileType", .str documentMark), ("inputs", .arr []), ("inputCount", .int 2),
    ("rootBlock", .obj [("type", .str "Composition")])]

/-- A library with one block. -/
def shelf : Library where
  entries := [("f", .obj [("type", .str "Custom"), ("name", .str "f")])]

/-- A document is loaded, a block is taken from a library, and addition is edited. -/
theorem edited_trees_consistent_plus :
    let files : Files := fun _ => .error .notFound
    let put : Option Block := some ⟨{ kind := .successor, id := "s" }, []⟩
    (∃ s root desk', (EditorState.load files .standard (.value lone)).outcome {} =
      (.ok (.ok s), desk') ∧ s.root = some root ∧ root.Consistent) ∧
    (∃ b desk', (shelf.instantiate "f" 2 1).outcome {} = (.ok b, desk') ∧ b.Consistent) ∧
    plus.readjust.Consistent ∧ (∀ c ∈ put, c.Consistent) ∧
      (Edit.applyAll plus.readjust {} [.setParam [1] "m" 3, .replace "Base Case" put,
        .remove "previous", .propagate 2]).1.Consistent := by
  intro files put
  have hplus : plus.readjust.Consistent := consistent_readjust (standard_of_conforms conforms_plus)
  have hput : ∀ c ∈ put, c.Consistent := by
    intro c hc
    rw [← Option.some.inj hc]
    exact consistent_mk.mpr ⟨rfl, rfl, by simp⟩
  refine ⟨⟨_, _, _, rfl, rfl, ?_⟩, ⟨_, _, rfl, ?_⟩, hplus, hput, ?_⟩
  · exact edited_trees_consistent.2.1 files (.value lone) {} _ _ _ rfl rfl
  · exact edited_trees_consistent.2.2.1 shelf "f" 2 1 {} _ _ rfl rfl
  · refine edited_trees_consistent.2.2.2 _ {} _ hplus ?_
    simp only [List.forall_mem_cons, Edit.put?]
    exact ⟨by simp, hput, by simp⟩

end Block

end BlockCalculus
