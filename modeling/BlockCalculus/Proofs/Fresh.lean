import BlockCalculus.Proofs.Ids
import BlockCalculus.Proofs.Loading
import Mathlib.Data.List.Nodup
import Mathlib.Data.List.Pairwise

/-!
# Fresh ids

Loading a serialised tree draws an id for every block, the block before the blocks in its slots and
these in the order in which they were saved. Slots that the layout does not have are dropped
afterwards, with the blocks in them, whose ids are lost. Kept blocks stand in the order of the
layout. So the numbers of the ids in a loaded tree have gaps and are out of order, but they rise
from every block to the blocks in its slots.

* `blocksInside`: the blocks of a serialised block, itself included, wherever they are saved.
* `Numbered`: the numbers in a tree are distinct, are in a range of which the root has the first,
  and rise. `Numbered.mk_of_slots` and `SlotsNumbered.reconcile` put it together, by which
  `numbered_of_load` goes along the data.
* `loadFrom_eq`: ids can be drawn from any source, as the numbers tell which id goes where.
* `loading_issues_fresh_ids`: no id in a loaded tree was there before.
-/

namespace BlockCalculus

/-! ## The blocks of a serialised block -/

namespace Json

theorem sizeOf_lt_of_get? {key : String} {j v : Json} (h : j.get? key = some v) :
    sizeOf v < sizeOf j := by
  cases j with
  | obj members =>
    rw [get?] at h
    induction members with
    | nil => cases h
    | cons m rest ih =>
      obtain ⟨k, w⟩ := m
      rw [Members.get?] at h
      split at h
      · cases h
        simp
        omega
      · have := ih h
        simp at this ⊢
        omega
  | _ => cases h

end Json

namespace Document

theorem sizeOf_lt_of_mem_innerBlocks {block c : Json} (h : c ∈ innerBlocks block) :
    sizeOf c < sizeOf block := by
  obtain ⟨slot, hslot, hc⟩ := List.mem_filterMap.mp h
  obtain ⟨name, -, hc⟩ := Option.bind_eq_some_iff.mp hc
  have hinner := Json.sizeOf_lt_of_get? (Json.present?_eq_some.mp hc).1
  cases hvalue : block.get? "children" with
  | none => simp [hvalue] at hslot
  | some value =>
    have houter := Json.sizeOf_lt_of_get? hvalue
    cases value with
    | arr items =>
      have hmem : slot ∈ items := by simpa [hvalue, Json.arr?] using hslot
      have := List.sizeOf_lt_of_mem hmem
      simp at houter
      omega
    | _ => simp [hvalue, Json.arr?] at hslot

/-- The blocks of a serialised block: itself, and those of the blocks in its slots. -/
def blocksInside (block : Json) : List Json :=
  block :: (innerBlocks block).attach.flatMap fun c => blocksInside c.1
termination_by sizeOf block
decreasing_by exact sizeOf_lt_of_mem_innerBlocks c.2

theorem blocksInside_eq (block : Json) :
    blocksInside block = block :: (innerBlocks block).flatMap blocksInside := by
  rw [blocksInside]
  simp

end Document

namespace Block

/-! ## Numbers in a tree -/

/-- The numbers in the tree are distinct and above `first` up to `last`. The root has the first of
them, and the blocks in the slots of a block have larger ones than it. -/
structure Numbered (first last : Nat) (b : Block) : Prop where
  root : b.head.serial = first + 1
  between : b.Every fun c => first < c.head.serial ∧ c.head.serial ≤ last
  rising : b.Every fun c => ∀ s ∈ c.slots, ∀ d ∈ s.occupant, c.head.serial < d.head.serial
  distinct : (b.listing.map fun c => c.head.serial).Nodup

/-- No block of one tree has the number of a block of the other. -/
def Apart (b b' : Block) : Prop :=
  ∀ c ∈ b.listing, ∀ c' ∈ b'.listing, c.head.serial ≠ c'.head.serial

theorem Apart.symm {b b' : Block} (h : b.Apart b') : b'.Apart b :=
  fun c' hc' c hc => (h c hc c' hc').symm

/-- The trees in the slots have no number in common. -/
def SlotsApart (s t : Slot) : Prop :=
  ∀ c ∈ s.occupant, ∀ d ∈ t.occupant, c.Apart d

instance : Std.Symm SlotsApart where
  symm _ _ h d hd c hc := (h c hc d hd).symm

/-- The trees in slots are numbered within one range, and apart from one another. -/
structure SlotsNumbered (first last : Nat) (slots : List Slot) : Prop where
  numbered : ∀ s ∈ slots, ∀ c ∈ s.occupant,
    ∃ first' last', first ≤ first' ∧ last' ≤ last ∧ c.Numbered first' last'
  apart : slots.Pairwise SlotsApart

section Numbered

variable {first middle last : Nat}

theorem SlotsNumbered.nil (first last : Nat) : SlotsNumbered first last [] where
  numbered _ hs := absurd hs List.not_mem_nil
  apart := List.Pairwise.nil

/-- A slot can be put before slots that are numbered from there on where its own tree ends. -/
theorem SlotsNumbered.cons {s : Slot} {slots : List Slot} (hle : first ≤ middle)
    (hle' : middle ≤ last) (hs : ∀ c ∈ s.occupant, c.Numbered first middle)
    (hslots : SlotsNumbered middle last slots) : SlotsNumbered first last (s :: slots) where
  numbered := by
    refine List.forall_mem_cons.mpr ⟨fun c hc => ?_, fun t ht c hc => ?_⟩
    · exact ⟨first, middle, Nat.le_refl first, hle', hs c hc⟩
    · obtain ⟨first', last', hfirst, hlast, hc⟩ := hslots.numbered t ht c hc
      exact ⟨first', last', Nat.le_trans hle hfirst, hlast, hc⟩
  apart := by
    refine List.pairwise_cons.mpr ⟨fun t ht c hc d hd x hx y hy => ?_, hslots.apart⟩
    obtain ⟨first', last', hfirst, -, hnumbered⟩ := hslots.numbered t ht d hd
    have hxle := ((hs c hc).between x hx).2
    have hylt := (hnumbered.between y hy).1
    omega

/-- **Laying slots out anew keeps the trees apart**, whichever are dropped and whatever the order:
no tree gets into two slots, since no two slots of a layout have the same name. -/
theorem SlotsNumbered.reconcile {stored : List Slot} (h : SlotsNumbered first last stored)
    {layout : List SlotShape} (hnames : (layout.map SlotShape.name).Nodup) :
    SlotsNumbered first last (Slot.reconcile stored layout) where
  numbered s hs c hc := by
    obtain ⟨t, ht, hct⟩ := Slot.exists_of_mem_reconcile hs hc
    exact h.numbered t ht c hct
  apart := by
    have horigin {name : String} {c : Block} (hc : c ∈ Slot.lastOccupant? name stored) :
        ∃ t ∈ stored, t.shape.name = name ∧ c ∈ t.occupant := by
      obtain ⟨t, ht, hct⟩ := Option.bind_eq_some_iff.mp hc
      exact ⟨t, List.mem_reverse.mp (List.mem_of_find?_eq_some ht),
        by simpa using List.find?_some ht, hct⟩
    rw [List.Nodup, List.pairwise_map] at hnames
    rw [Slot.reconcile, List.pairwise_map]
    refine hnames.imp fun {shape shape'} hne c hc d hd => ?_
    obtain ⟨t, ht, hname, hct⟩ := horigin hc
    obtain ⟨t', ht', hname', hdt'⟩ := horigin hd
    have hdiffer : t ≠ t' := fun heq => hne (hname.symm.trans (heq ▸ hname'))
    exact h.apart.forall ht ht' hdiffer c hct d hdt'

/-- **A block over numbered slots is numbered**, if it has the number before theirs. -/
theorem Numbered.mk_of_slots {head : Head} {slots : List Slot} (hroot : head.serial = first + 1)
    (hle : first + 1 ≤ last) (h : SlotsNumbered (first + 1) last slots) :
    Numbered first last ⟨head, slots⟩ where
  root := hroot
  between := by
    refine every_mk.mpr ⟨⟨by rw [hroot]; omega, by rw [hroot]; exact hle⟩, fun s hs c hc d hd => ?_⟩
    obtain ⟨first', last', hfirst, hlast, hnumbered⟩ := h.numbered s hs c hc
    have hd := hnumbered.between d hd
    omega
  rising := by
    refine every_mk.mpr ⟨fun s hs c hc => ?_, fun s hs c hc => ?_⟩
    · obtain ⟨first', last', hfirst, -, hnumbered⟩ := h.numbered s hs c hc
      rw [hnumbered.root, hroot]
      omega
    · obtain ⟨_, _, -, -, hnumbered⟩ := h.numbered s hs c hc
      exact hnumbered.rising
  distinct := by
    have hmap : (listing ⟨head, slots⟩).map (fun c => c.head.serial) =
        head.serial :: (Slot.occupants slots).flatMap fun c =>
          c.listing.map fun d => d.head.serial := by
      rw [listing_mk, List.map_cons, List.map_flatMap]
    rw [hmap, List.nodup_cons, List.nodup_flatMap, Slot.occupants, List.pairwise_filterMap]
    refine ⟨?_, fun c hc => ?_, h.apart.imp fun {s t} hst c hc d hd => ?_⟩
    · simp only [List.mem_flatMap, List.mem_filterMap, List.mem_map]
      rintro ⟨c, ⟨s, hs, hc⟩, d, hd, hsame⟩
      obtain ⟨first', last', hfirst, -, hnumbered⟩ := h.numbered s hs c hc
      have hd := (hnumbered.between d hd).1
      omega
    · obtain ⟨s, hs, hc⟩ := List.mem_filterMap.mp hc
      obtain ⟨_, _, -, -, hnumbered⟩ := h.numbered s hs c hc
      exact hnumbered.distinct
    · intro n hn hn'
      obtain ⟨x, hx, rfl⟩ := List.mem_map.mp hn
      obtain ⟨y, hy, hsame⟩ := List.mem_map.mp hn'
      exact hst c hc d hd x hx y hy hsame.symm

end Numbered

/-! ## Loading numbers as it goes -/

/-- What loading a block comes to, with the numbers that it takes from the desk: the first one for
the block itself, and then those for what is in its slots. -/
theorem exists_of_load_numbers {levels : Nat} {depth : Int} {data : Json} {desk desk' : Desk}
    {b : Block} (h : (load .standard (levels + 1) depth data).outcome desk = (.ok b, desk')) :
    ∃ head stored after, head.serial = desk.issued + 1 ∧
      b = ⟨head, Slot.reconcile stored head.layout⟩ ∧
      ((((data.get? "children").bind Json.arr?).getD []).mapM
        (loadSlot (load .standard levels (depth + 1)))).outcome
          { desk with issued := desk.issued + 1 } = (.ok stored, after) ∧
      desk'.issued = after.issued := by
  rw [outcome_load_succ] at h
  split at h
  · cases h
  · rename_i kind hkind
    dsimp only at h
    split at h
    · cases h
    · rename_i stored after hstored
      obtain ⟨hb, hdesk⟩ := Prod.mk.inj h
      refine ⟨_, stored, after, rfl, (Except.ok.inj hb).symm, hstored, ?_⟩
      rw [← hdesk]
      split <;> rfl

/-- Loading a block numbers its tree, and takes as many numbers as there are blocks inside. -/
def Numbers (load : Json → Build Block) (block : Json) : Prop :=
  ∀ ⦃desk desk' : Desk⦄ ⦃b : Block⦄, (load block).outcome desk = (.ok b, desk') →
    b.Numbered desk.issued desk'.issued ∧
      desk'.issued = desk.issued + (Document.blocksInside block).length

/-- A slot takes the numbers of its block, if there is one. -/
theorem numbered_of_loadSlot {load : Json → Build Block} {data : Json} {desk desk' : Desk}
    {s : Slot} (hload : ∀ block, data.present? "block" = some block → Numbers load block)
    (h : (loadSlot load data).outcome desk = (.ok s, desk')) :
    (∀ c ∈ s.occupant, c.Numbered desk.issued desk'.issued) ∧
      desk'.issued = desk.issued +
        ((data.present? "block").toList.flatMap Document.blocksInside).length := by
  unfold loadSlot at h
  cases hblock : data.present? "block" with
  | none =>
    rw [hblock] at h
    cases h
    exact ⟨fun c hc => absurd hc (Option.not_mem_none c), rfl⟩
  | some block =>
    rw [hblock] at h
    obtain ⟨b, between, hb, h⟩ := Build.exists_of_bind h
    cases h
    obtain ⟨hnumbered, hissued⟩ := hload block hblock hb
    refine ⟨fun c hc => ?_, by simpa using hissued⟩
    cases hc
    exact hnumbered

/-- **Slots are numbered one after the other**, in the order in which they were saved. -/
theorem slotsNumbered_of_mapM {load : Json → Build Block} {items : List Json} {desk desk' : Desk}
    {stored : List Slot}
    (hload : ∀ item ∈ items, ∀ block, item.present? "block" = some block → Numbers load block)
    (h : (items.mapM (loadSlot load)).outcome desk = (.ok stored, desk')) :
    SlotsNumbered desk.issued desk'.issued stored ∧
      desk'.issued = desk.issued +
        ((items.filterMap fun item => item.present? "block").flatMap
          Document.blocksInside).length := by
  induction items generalizing desk stored with
  | nil =>
    rw [List.mapM_nil] at h
    cases h
    exact ⟨SlotsNumbered.nil _ _, rfl⟩
  | cons item rest ih =>
    rw [List.mapM_cons] at h
    obtain ⟨s, between, hs, h⟩ := Build.exists_of_bind h
    obtain ⟨slots, between', hslots, h⟩ := Build.exists_of_bind h
    cases h
    obtain ⟨hload, hloads⟩ := List.forall_mem_cons.mp hload
    obtain ⟨hnumbered, hissued⟩ := numbered_of_loadSlot hload hs
    obtain ⟨hrest, hissued'⟩ := ih hloads hslots
    refine ⟨SlotsNumbered.cons (by omega) (by omega) hnumbered hrest, ?_⟩
    have hsplit : (item :: rest).filterMap (fun item => item.present? "block") =
        (item.present? "block").toList ++ rest.filterMap fun item => item.present? "block" := by
      cases hblock : item.present? "block" <;> simp [hblock]
    rw [hsplit, List.flatMap_append, List.length_append, hissued', hissued]
    omega

/-- **Loading numbers the blocks of a tree**, and takes a number for every block that was saved. -/
theorem numbered_of_load {data : Json} (hdata : Document.WellFormedBlock data) (levels : Nat)
    (depth : Int) : Numbers (load .standard levels depth) data := by
  induction levels generalizing depth data with
  | zero =>
    intro desk desk' b h
    cases h
  | succ levels ih =>
    intro desk desk' b h
    obtain ⟨fields, hinner⟩ := Document.wellFormedBlock_iff.mp hdata
    obtain ⟨head, stored, after, hserial, rfl, hstored, hissued⟩ := exists_of_load_numbers h
    obtain ⟨hslots, hafter⟩ := slotsNumbered_of_mapM
      (fun item hitem block hblock =>
        ih (hinner block (mem_innerBlocks fields hitem hblock)) (depth + 1)) hstored
    have hcount : desk'.issued = desk.issued + (Document.blocksInside data).length := by
      rw [hissued, hafter, Document.blocksInside_eq, innerBlocks_eq_filterMap fields,
        List.length_cons]
      dsimp only
      omega
    rw [← hissued] at hslots
    refine ⟨Numbered.mk_of_slots hserial ?_ (hslots.reconcile head.nodup_layout), hcount⟩
    rw [hcount, Document.blocksInside_eq, List.length_cons]
    omega

/-! ## Ids from any source -/

/-- The tree with the ids that a source gives for its numbers. -/
def relabel (fresh : Nat → String) (b : Block) : Block :=
  b.mapHeads fun h => { h with id := fresh h.serial }

theorem relabel_mk (fresh : Nat → String) (head : Head) (slots : List Slot) :
    relabel fresh ⟨head, slots⟩ =
      ⟨{ head with id := fresh head.serial }, slots.map (Slot.within fun _ => relabel fresh)⟩ :=
  mapHeads_mk _ head slots

/-- Loads a serialised tree that has been checked, with ids from a source. -/
def loadFrom (fresh : Nat → String) (c : Catalog) :
    (levels : Nat) → (depth : Int) → Json → Build Block
  | 0, _, _ => throw .nesting
  | levels + 1, depth, data => do
    let some kind := (data.getD "type").str?.bind Kind.ofName?
      | throw (.noKind (data.getD "type"))
    let entry ← Build.ofExcept (c.get kind)
    let serial ← Build.issue
    let params := loadParams entry data
    let head := { loadHead kind serial params depth data with id := fresh serial }
    let stored ← (((data.get? "children").bind Json.arr?).getD []).mapM
      (loadSlot (loadFrom fresh c levels (depth + 1)))
    let layout := entry.layout params
    if (stored.map fun s => s.shape.name) ≠ layout.map SlotShape.name then
      Build.warn (repairWarning head)
    return ⟨head, Slot.reconcile stored layout⟩

/-- Checks and loads a serialised tree, with ids from a source. -/
def ofJsonFrom (fresh : Nat → String) (c : Catalog) (depth : Int) (data : Json) : Build Block := do
  let findings ← Build.ofExcept (Document.checkBlock nestingLimit [] data)
  if findings.isEmpty then loadFrom fresh c loadLimit depth data
  else throw (.invalidBlock findings)

theorem loadSlot_map (f : Block → Block) (load : Json → Build Block) (data : Json) :
    loadSlot (fun block => f <$> load block) data =
      Slot.within (fun _ => f) <$> loadSlot load data := by
  unfold loadSlot
  cases data.present? "block" with
  | none => simp [Slot.within]
  | some block => simp [Slot.within]

theorem mapM_loadSlot_map (f : Block → Block) (load : Json → Build Block) (items : List Json) :
    items.mapM (loadSlot fun block => f <$> load block) =
      List.map (Slot.within fun _ => f) <$> items.mapM (loadSlot load) := by
  induction items with
  | nil => simp
  | cons item rest ih => simp [List.mapM_cons, loadSlot_map, ih]

/-- **The numbers tell which id goes where**: loading with ids from a source is loading, and giving
every block the id for its number. -/
theorem loadFrom_eq (fresh : Nat → String) (c : Catalog) (levels : Nat) (depth : Int)
    (data : Json) :
    loadFrom fresh c levels depth data = relabel fresh <$> load c levels depth data := by
  induction levels generalizing depth data with
  | zero => rfl
  | succ levels ih =>
    have hload : loadFrom fresh c levels (depth + 1) =
        fun block => relabel fresh <$> load c levels (depth + 1) block := funext (ih (depth + 1))
    rw [loadFrom, load, hload, mapM_loadSlot_map]
    cases (data.getD "type").str?.bind Kind.ofName? with
    | none => rfl
    | some kind =>
      simp only [map_bind, bind_map_left]
      refine bind_congr fun entry => bind_congr fun serial => bind_congr fun stored => ?_
      have hnames : (stored.map (Slot.within fun _ => relabel fresh)).map (fun s => s.shape.name) =
          stored.map fun s => s.shape.name := by
        rw [List.map_map]
        rfl
      have hblock : relabel fresh ⟨loadHead kind serial (loadParams entry data) depth data,
            Slot.reconcile stored (entry.layout (loadParams entry data))⟩ =
          ⟨{ loadHead kind serial (loadParams entry data) depth data with id := fresh serial },
            Slot.reconcile (stored.map (Slot.within fun _ => relabel fresh))
              (entry.layout (loadParams entry data))⟩ := by
        rw [relabel_mk, Slot.map_within_reconcile]
        rfl
      rw [hnames, ← hblock]
      split
      · rw [map_bind]
        rfl
      · rfl

/-- The ids in use are from a source as well. -/
theorem loadFrom_freshId (c : Catalog) (levels : Nat) (depth : Int) (data : Json) :
    loadFrom freshId c levels depth data = load c levels depth data := by
  induction levels generalizing depth data with
  | zero => rfl
  | succ levels ih =>
    rw [loadFrom, load, funext (ih (depth + 1))]
    rfl

theorem ofJsonFrom_freshId (c : Catalog) (depth : Int) (data : Json) :
    ofJsonFrom freshId c depth data = ofJson c depth data := by
  rw [ofJsonFrom, ofJson, loadFrom_freshId]

theorem outcome_ofJsonFrom {data : Json}
    (h : Document.checkBlock loadLimit [] data = .ok []) (fresh : Nat → String) (depth : Int)
    (desk : Desk) : (ofJsonFrom fresh .standard depth data).outcome desk =
      (loadFrom fresh .standard loadLimit depth data).outcome desk := by
  unfold ofJsonFrom
  rw [checkBlock_of_le loadLimit_le h]
  rfl

theorem listing_mapHeads (f : Head → Head) (b : Block) :
    (b.mapHeads f).listing = b.listing.map (mapHeads f) := by
  induction b using Block.induction with
  | mk head slots ih =>
    have hoccupants : Slot.occupants (slots.map (Slot.within fun _ => mapHeads f)) =
        (Slot.occupants slots).map (mapHeads f) := by
      unfold Slot.occupants
      rw [List.filterMap_map, List.map_filterMap]
      rfl
    rw [mapHeads_mk, listing_mk, listing_mk, List.map_cons, mapHeads_mk, List.map_flatMap,
      hoccupants, List.flatMap_map]
    refine congrArg (List.cons _) (List.flatMap_congr fun c hc => ?_)
    obtain ⟨s, hs, hc⟩ := List.mem_filterMap.mp hc
    exact ih s hs c hc

theorem mem_listing_relabel {fresh : Nat → String} {b c : Block}
    (h : c ∈ (b.relabel fresh).listing) :
    ∃ d ∈ b.listing, c.head = { d.head with id := fresh d.head.serial } := by
  rw [relabel, listing_mapHeads] at h
  obtain ⟨d, hd, rfl⟩ := List.mem_map.mp h
  exact ⟨d, hd, head_mapHeads _ d⟩

theorem ids_relabel (fresh : Nat → String) (b : Block) :
    (b.relabel fresh).listing.map (fun c => c.head.id) =
      (b.listing.map fun c => c.head.serial).map fresh := by
  rw [relabel, listing_mapHeads, List.map_map, List.map_map]
  refine List.map_congr_left fun c _ => ?_
  rw [Function.comp_apply, head_mapHeads]
  rfl

theorem freshId_injective : Function.Injective freshId :=
  fun _ _ h => toString_inj (String.append_right_inj _ |>.mp h)

/-- **The ids of a numbered tree are fresh**: if its blocks have the ids that a source without
repetitions gives for their numbers, then they are distinct and from the range of the numbers. -/
theorem Numbered.fresh_ids {first last : Nat} {b : Block} (hb : b.Numbered first last)
    {fresh : Nat → String} (hfresh : fresh.Injective) :
    (b.relabel fresh).DistinctIds ∧ ∀ c ∈ (b.relabel fresh).listing,
      (∃ n, first < n ∧ n ≤ last ∧ c.head.id = fresh n) ∧
        ∀ n, n ≤ first → c.head.id ≠ fresh n := by
  constructor
  · rw [DistinctIds, ids_relabel]
    exact hb.distinct.map hfresh
  · intro c hc
    obtain ⟨d, hd, hhead⟩ := mem_listing_relabel hc
    obtain ⟨hlt, hle⟩ := hb.between d hd
    rw [hhead]
    refine ⟨⟨d.head.serial, hlt, hle, rfl⟩, fun n hn heq => ?_⟩
    have hsame : d.head.serial = n := hfresh heq
    omega

/-- Loaded blocks have the ids for their numbers. -/
theorem relabel_of_load {c : Catalog} {levels : Nat} {depth : Int} {data : Json}
    {desk desk' : Desk} {b : Block}
    (h : (load c levels depth data).outcome desk = (.ok b, desk')) : b.relabel freshId = b := by
  have hsame := congrArg (fun work => work.outcome desk) (loadFrom_freshId c levels depth data)
  rw [loadFrom_eq, Build.outcome_map, h] at hsame
  exact Except.ok.inj (Prod.mk.inj hsame).1

/-- **Loading never gives an id twice.** Let a serialised tree that does not nest deeper than can be
loaded pass the check, and let it be loaded at any depth, after any ids were issued. With ids from
any source that never repeats one, that succeeds, the ids in the loaded tree are distinct, and each
of them was issued while it was loaded, so that none is an id that was issued before. The ids in use
are from such a source. Of them, as many are issued as there are blocks in the data, those in slots
that are dropped included. The root has the first one, and a block in a slot has a later one than
the block around it. -/
theorem loading_issues_fresh_ids {path : DocPath} {data : Json}
    (hdata : Document.checkBlock loadLimit path data = .ok []) (depth : Int) (desk : Desk) :
    (∀ fresh : Nat → String, fresh.Injective →
      ∃ b desk', (ofJsonFrom fresh .standard depth data).outcome desk = (.ok b, desk') ∧
        b.DistinctIds ∧ ∀ c ∈ b.listing,
          (∃ n, desk.issued < n ∧ n ≤ desk'.issued ∧ c.head.id = fresh n) ∧
            ∀ n, n ≤ desk.issued → c.head.id ≠ fresh n) ∧
    ofJsonFrom freshId .standard depth data = ofJson .standard depth data ∧
    ∃ b desk', (ofJson .standard depth data).outcome desk = (.ok b, desk') ∧ b.DistinctIds ∧
      desk'.issued = desk.issued + (Document.blocksInside data).length ∧
      b.head.id = freshId (desk.issued + 1) ∧
      (b.Every fun c => c.head.id = freshId c.head.serial) ∧
      b.Every fun c => ∀ s ∈ c.slots, ∀ d ∈ s.occupant, c.head.serial < d.head.serial := by
  have hwell := Document.wellFormed_of_checkBlock hdata
  have hcheck := checkBlock_of_le (Nat.le_refl loadLimit) hdata []
  obtain ⟨b, desk', hload⟩ := load_succeeds hcheck depth desk
  obtain ⟨hnumbered, hcount⟩ := numbered_of_load hwell loadLimit depth hload
  have hfrom (fresh : Nat → String) : (ofJsonFrom fresh .standard depth data).outcome desk =
      (.ok (b.relabel fresh), desk') := by
    rw [outcome_ofJsonFrom hcheck, loadFrom_eq, Build.outcome_map, hload]
    rfl
  refine ⟨fun fresh hfresh => ⟨b.relabel fresh, desk', hfrom fresh, hnumbered.fresh_ids hfresh⟩,
    ofJsonFrom_freshId .standard depth data, ?_⟩
  -- the ids in use are from a source like any other
  have hself : b.relabel freshId = b := relabel_of_load hload
  obtain ⟨hdistinct, -⟩ := hnumbered.fresh_ids freshId_injective
  have hids : b.Every fun c => c.head.id = freshId c.head.serial := by
    intro c hc
    rw [← hself] at hc
    obtain ⟨d, -, hhead⟩ := mem_listing_relabel hc
    rw [hhead]
  rw [hself] at hdistinct
  refine ⟨b, desk', (outcome_ofJson hcheck depth desk).trans hload, hdistinct, hcount, ?_, hids,
    hnumbered.rising⟩
  rw [hids.root, hnumbered.root]

theorem length_blocksInside_misfit : (Document.blocksInside misfit).length = 3 := by
  have hinner : Document.innerBlocks misfit =
      [.obj [("type", .str "Zero")], .obj [("type", .str "Successor")]] := rfl
  have hflat (kind : String) : Document.innerBlocks (.obj [("type", .str kind)]) = [] := rfl
  simp [Document.blocksInside_eq, hinner, hflat]

/-- A composition that was saved with a slot too many takes three ids for three blocks, one of which
is dropped. The ids can as well be strokes, each one longer than the last. -/
theorem loading_issues_fresh_ids_misfit :
    let strokes (n : Nat) : String := String.ofList (List.replicate n '|')
    Document.checkBlock loadLimit [] misfit = .ok [] ∧ strokes.Injective ∧
      (∃ b desk', (ofJsonFrom strokes .standard 0 misfit).outcome { issued := 4 } =
        (.ok b, desk') ∧ b.DistinctIds) ∧
      ∃ b desk', (ofJson .standard 0 misfit).outcome { issued := 4 } = (.ok b, desk') ∧
        b.DistinctIds ∧ desk'.issued = 7 ∧ b.size = 2 ∧ b.head.id = "b5" := by
  intro strokes
  have hcheck : Document.checkBlock loadLimit [] misfit = .ok [] := rfl
  have hstrokes : strokes.Injective := by
    intro m n h
    simpa [strokes] using congrArg (fun s => s.toList.length) h
  obtain ⟨hany, -, b, desk', h, hdistinct, hcount, hroot, -⟩ :=
    loading_issues_fresh_ids hcheck 0 { issued := 4 }
  obtain ⟨b', desk'', h', hdistinct', -⟩ := hany strokes hstrokes
  have hsize : ((ofJson .standard 0 misfit).outcome { issued := 4 }).1.map size = .ok 2 := rfl
  rw [h] at hsize
  rw [length_blocksInside_misfit] at hcount
  exact ⟨hcheck, hstrokes, ⟨b', desk'', h', hdistinct'⟩, b, desk', h, hdistinct, hcount,
    Except.ok.inj hsize, hroot⟩

end Block

end BlockCalculus
