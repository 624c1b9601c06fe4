import BlockCalculus.Proofs.Editing
import Mathlib.Data.List.Chain

/-!
# Changing the number of parts of a composition

The parameter `m` of a composition says how many parts it has. Whenever it is changed, the slots are
laid out anew: parts beyond the new number are lost, and the outer function is told its new number
of inputs, which goes down its whole tree. Over a history of changes only the least number counts
for the parts, and only the last one for the outer function.

* `Slot.composed`: the slots of a composition, by their occupants.
* `Block.sized`: a composition after a history of changes, in terms of the composition before.
* `outcome_withParam_sized`: one change leads from one such block to another.
* `outcome_resize_sized`: so does a history of changes.
* `resized_composition`: the main result.
-/

namespace BlockCalculus

/-! ## The slots of a composition -/

namespace Slot

/-- A name that no slot has finds nothing. -/
theorem lastOccupant?_of_not_mem {slots : List Slot} {name : String}
    (h : name ∉ slots.map fun s => s.shape.name) : lastOccupant? name slots = none := by
  have hnone : slots.reverse.find? (fun s => s.shape.name == name) = none := by
    refine List.find?_eq_none.mpr fun s hs hname => h ?_
    exact List.mem_map.mpr ⟨s, List.mem_reverse.mp hs, by simpa using hname⟩
  rw [lastOccupant?, hnone, Option.bind_none]

/-- Slots of distinct names stay as they are if they are laid out as they are. -/
theorem reconcile_shapes {slots : List Slot} (hnames : (slots.map fun s => s.shape.name).Nodup) :
    reconcile slots (shapes slots) = slots := by
  unfold reconcile shapes
  rw [List.map_map]
  refine (List.map_congr_left (g := fun s => s) fun s hs => ?_).trans (List.map_id' slots)
  have hfound := lastOccupant?_of_mem hnames hs
  obtain ⟨shape, occupant⟩ := s
  exact congrArg (Slot.mk shape) hfound

/-- The slots of a composition of `size` parts: the outer function, and the parts by number. -/
def composed (size : Int) (outer : Option Block) (part : Nat → Option Block) : List Slot :=
  ⟨{ name := "f", descriptor := 1, exact := some (max size 0) }, outer⟩ ::
    (List.range size.toNat).map fun i => ⟨{ name := "g" ++ toString (i + 1) }, part (i + 1)⟩

section Composed

variable {size size' : Int} {outer : Option Block} {part part' : Nat → Option Block}

@[simp] theorem shapes_composed : shapes (composed size outer part) = compositionSlots size := by
  simp [shapes, composed, compositionSlots, Function.comp_def]

/-- The names in the layout of a composition are distinct. -/
theorem nodup_names {slots : List Slot} (h : shapes slots = compositionSlots size) :
    (slots.map fun s => s.shape.name).Nodup := by
  have hnames : slots.map (fun s => s.shape.name) = (shapes slots).map SlotShape.name := by
    simp [shapes, Function.comp_def]
  rw [hnames, h]
  exact nodup_compositionSlots size

/-- Only the parts that there are count, and a negative number of parts is zero. -/
theorem composed_congr (hsize : max size 0 = max size' 0)
    (hpart : ∀ i, 1 ≤ i → i ≤ size.toNat → part i = part' i) :
    composed size outer part = composed size' outer part' := by
  have hnat : size.toNat = size'.toNat := by omega
  unfold composed
  rw [hsize, ← hnat]
  congr 1
  refine List.map_congr_left fun i hi => ?_
  rw [hpart (i + 1) (by omega) (by have := List.mem_range.mp hi; omega)]

theorem lastOccupant?_outer : lastOccupant? "f" (composed size outer part) = outer :=
  lastOccupant?_of_mem (nodup_names shapes_composed) List.mem_cons_self

theorem lastOccupant?_part (i : Nat) :
    lastOccupant? ("g" ++ toString (i + 1)) (composed size outer part) =
      if i + 1 ≤ size.toNat then part (i + 1) else none := by
  split
  · rename_i hi
    have hmem : ⟨{ name := "g" ++ toString (i + 1) }, part (i + 1)⟩ ∈ composed size outer part :=
      List.mem_cons_of_mem _ (List.mem_map.mpr ⟨i, List.mem_range.mpr (by omega), rfl⟩)
    exact lastOccupant?_of_mem (nodup_names shapes_composed) hmem
  · rename_i hi
    refine lastOccupant?_of_not_mem fun hmem => ?_
    obtain ⟨s, hs, hname⟩ := List.mem_map.mp hmem
    rcases List.mem_cons.mp hs with rfl | hs
    · exact Rule.part_ne_outer (i + 1) hname.symm
    · obtain ⟨j, hj, rfl⟩ := List.mem_map.mp hs
      have hij : j + 1 = i + 1 := toString_inj (String.append_right_inj _ |>.mp hname)
      have hlt := List.mem_range.mp hj
      omega

/-- **Laying a composition out for another number of parts** keeps the outer function and the parts
that there are. -/
theorem reconcile_composed (size' : Int) :
    reconcile (composed size outer part) (compositionSlots size') =
      composed size' outer fun i => if i ≤ size.toNat then part i else none := by
  unfold reconcile compositionSlots
  rw [List.map_cons, List.map_map]
  refine congrArg₂ List.cons ?_ (List.map_congr_left fun i _ => ?_)
  · rw [lastOccupant?_outer]
  · rw [Function.comp_apply, lastOccupant?_part]

/-- Slots in the layout of a composition are its slots, by what their names lead to. -/
theorem eq_composed {slots : List Slot} (h : shapes slots = compositionSlots size) :
    slots = composed size (lastOccupant? "f" slots) fun i =>
      lastOccupant? ("g" ++ toString i) slots := by
  have hself := reconcile_shapes (nodup_names h)
  rw [h] at hself
  refine hself.symm.trans ?_
  unfold reconcile compositionSlots composed
  rw [List.map_cons, List.map_map]
  rfl

theorem settle_composed (head : Head) :
    Block.settle head (composed size outer part) =
      composed size
        (outer.map fun b => (b.propagate (max size 0)).setDepth (head.depth + 1)) fun i =>
          (part i).map fun b => (b.propagate head.inputCount).setDepth (head.depth + 1) := by
  simp [Block.settle, composed, SlotShape.inputs, Function.comp_def]

end Composed

end Slot

namespace Block

/-! ## Giving again what there is -/

/-- Going down a tree changes nothing if every block has already what is put into it. -/
theorem Descends.eq_self {ι : Type} {next : ι → SlotShape → ι} {put : ι → Head → Head}
    {op : ι → Block → Block} (h : Descends next put op) {P : Block → Prop} (index : Block → ι)
    (hput : ∀ b, put (index b) b.head = b.head)
    (hnext : ∀ b, P b → ∀ s ∈ b.slots, ∀ c ∈ s.occupant, index c = next (index b) s.shape)
    {b : Block} (hb : b.Every P) : op (index b) b = b := by
  induction b using Block.induction with
  | mk head slots ih =>
    obtain ⟨hroot, hin⟩ := every_mk.mp hb
    have hslots : slots.map (Slot.within fun shape => op (next (index ⟨head, slots⟩) shape)) =
        slots := by
      refine Slot.map_within_eq_self fun s hs c hc => ?_
      rw [← hnext _ hroot s hs c hc]
      exact ih s hs c hc (hin s hs c hc)
    rw [h, hslots]
    exact congrArg (fun head => Block.mk head slots) (hput ⟨head, slots⟩)

/-- Numbers of inputs that follow from the root can be given again. -/
theorem propagate_of_countsFollow {b : Block} (h : b.Every CountsFollow) :
    b.propagate b.head.inputCount = b := by
  have hcount := descends_propagate (fun n shape => shape.inputs n) id fun _ _ => rfl
  exact hcount.eq_self (fun b => b.head.inputCount) (fun _ => rfl) (fun _ hb => hb) h

/-- Depths that follow from the root can be given again. -/
theorem setDepth_of_depthsFollow {b : Block} (h : b.Every DepthsFollow) :
    b.setDepth b.head.depth = b := by
  have hdepth := descends_setDepth (fun d _ => d + 1) id fun _ _ => rfl
  exact hdepth.eq_self (fun b => b.head.depth) (fun _ => rfl) (fun _ hb => hb) h

/-- Among slots of distinct names the first of a name is the last. -/
theorem child?_eq_lastOccupant? {b : Block}
    (hnames : (b.slots.map fun s => s.shape.name).Nodup) (name : String) :
    b.child? name = Slot.lastOccupant? name b.slots := by
  unfold child? slot?
  cases hfind : b.slots.find? fun s => s.shape.name == name with
  | none =>
    rw [Slot.lastOccupant?_of_not_mem, Option.bind_none]
    intro hmem
    obtain ⟨s, hs, hname⟩ := List.mem_map.mp hmem
    exact List.find?_eq_none.mp hfind s hs (by simpa using hname)
  | some s =>
    have hname : s.shape.name = name := by simpa using List.find?_some hfind
    rw [Option.bind_some, ← hname]
    exact (Slot.lastOccupant?_of_mem hnames (List.mem_of_find?_eq_some hfind)).symm

/-! ## Parameters at a desk -/

/-- Gives a parameter a value, or fails. -/
def withParam (c : Catalog) (name : String) (value : Int) (b : Block) : Build Block := do
  let (changed, fault) ← b.setParam c name value
  match fault with
  | none => return changed
  | some f => throw f

/-- A parameter that is there gets its value, and the slots are laid out anew. -/
theorem outcome_withParam {c : Catalog} {name : String} {value : Int} {b b' : Block}
    {changed : Bool} {desk desk' : Desk} (hparam : (b.param? name).isNone = false)
    (h : (refresh c ⟨stored name value b.head, b.slots⟩).outcome desk =
      (.ok (changed, b'), desk')) :
    (b.withParam c name value).outcome desk = (.ok b', desk') := by
  have hset : (b.setParam c name value).run desk = ((b', none), desk') := by
    unfold setParam
    rw [hparam, if_neg Bool.false_ne_true, StateT.run_bind]
    unfold Build.outcome stored at h
    rw [h]
    rfl
  have hlift : (liftM (b.setParam c name value) : Build (Block × Option Fault)).outcome desk =
      (.ok (b', none), desk') := by
    have hrun : (liftM (b.setParam c name value) : Build (Block × Option Fault)).outcome desk =
        (.ok ((b.setParam c name value).run desk).1, ((b.setParam c name value).run desk).2) := rfl
    rw [hrun, hset]
  unfold withParam
  rw [Build.outcome_bind_of_ok hlift]
  rfl

/-! ## One change of the number of parts -/

theorem compositionSlots_eq_iff {size size' : Int} :
    compositionSlots size = compositionSlots size' ↔ max size 0 = max size' 0 := by
  constructor
  · intro h
    unfold compositionSlots at h
    injection h with hhead
    injection hhead with _ _ hexact
    exact Option.some.inj hexact
  · intro h
    have hnat : size.toNat = size'.toNat := by omega
    unfold compositionSlots
    rw [h, hnat]

/-- The slots of a composition follow from its number of parts. -/
theorem layout_of_params {head : Head} {m : Int} (hkind : head.kind = .composition)
    (hparams : head.params = [⟨"m", m, 0⟩]) : head.layout = compositionSlots m := by
  simp [Head.layout, hkind, hparams, Catalog.entryOf, Catalog.composition, Entry.layout,
    Param.value?]

/-- The outer function and the parts of a block have the depth that follows from it, and the parts
its number of inputs. -/
structure Settled (b : Block) : Prop where
  outer : ∀ c ∈ b.child? "f", c.setDepth (b.head.depth + 1) = c
  part : ∀ i : Nat, ∀ c ∈ b.child? ("g" ++ toString i),
    (c.propagate b.head.inputCount).setDepth (b.head.depth + 1) = c

/-- The block with `size` parts, of which those up to the number `least` are the ones it has. -/
def sized (b : Block) (id : String) (size least : Int) : Block :=
  ⟨{ b.head with id, params := [⟨"m", size, 0⟩] },
    Slot.composed size ((b.child? "f").map (propagate (max size 0))) fun i =>
      if (i : Int) ≤ least then b.child? ("g" ++ toString i) else none⟩

section Sized

variable {b : Block} {id : String} {size least value : Int}

theorem slots_sized : (b.sized id size least).slots =
    Slot.composed size ((b.child? "f").map (propagate (max size 0))) fun i =>
      if (i : Int) ≤ least then b.child? ("g" ++ toString i) else none :=
  rfl

theorem shapes_sized : Slot.shapes (b.sized id size least).slots = compositionSlots size := by
  rw [slots_sized, Slot.shapes_composed]

theorem names_sized : (b.sized id size least).slots.map (fun s => s.shape.name) =
    "f" :: (List.range size.toNat).map fun i => "g" ++ toString (i + 1) := by
  simp [slots_sized, Slot.composed, Function.comp_def]

theorem layout_sized (hkind : b.head.kind = .composition) :
    (b.sized id size least).head.layout = compositionSlots size :=
  layout_of_params hkind rfl

theorem child?_sized_outer :
    (b.sized id size least).child? "f" = (b.child? "f").map (propagate (max size 0)) := by
  rw [child?_eq_lastOccupant? (Slot.nodup_names shapes_sized), slots_sized,
    Slot.lastOccupant?_outer]

theorem child?_sized_part {i : Nat} (hi : 1 ≤ i) (hsize : i ≤ size.toNat) :
    (b.sized id size least).child? ("g" ++ toString i) =
      if (i : Int) ≤ least then b.child? ("g" ++ toString i) else none := by
  obtain ⟨j, rfl⟩ := Nat.exists_eq_add_of_le' hi
  rw [child?_eq_lastOccupant? (Slot.nodup_names shapes_sized), slots_sized,
    Slot.lastOccupant?_part, if_pos hsize]

theorem settle_sized (hb : b.Settled) (hleast : least ≤ size) :
    settle b.head (Slot.reconcile (b.sized id size least).slots (compositionSlots value)) =
      (b.sized id value (min least value)).slots := by
  rw [slots_sized, slots_sized, Slot.reconcile_composed, Slot.settle_composed]
  have houter : ((b.child? "f").map (propagate (max size 0))).map (fun c =>
      (c.propagate (max value 0)).setDepth (b.head.depth + 1)) =
        (b.child? "f").map (propagate (max value 0)) := by
    rw [Option.map_map]
    refine Option.map_congr fun c hc => ?_
    rw [Function.comp_apply, propagate_propagate, setDepth_propagate, hb.outer c hc]
  rw [houter]
  refine Slot.composed_congr rfl fun i hi hvalue => ?_
  by_cases hkept : (i : Int) ≤ min least value
  · rw [if_pos hkept, if_pos (by omega), if_pos (by omega)]
    refine (Option.map_congr (g := fun c => c) fun c hc => ?_).trans Option.map_id'
    exact hb.part i c hc
  · rw [if_neg hkept, if_neg (c := (i : Int) ≤ least) (by omega), ite_self, Option.map_none]

/-- Where no part and no number of inputs changes, neither do the slots. -/
theorem slots_sized_of_eq (hsize : max value 0 = max size 0) (hleast : least ≤ size) :
    (b.sized id size least).slots = (b.sized id value (min least value)).slots := by
  rw [slots_sized, slots_sized, hsize]
  refine Slot.composed_congr hsize.symm fun i hi hnat => ?_
  have hsame : value = size := by omega
  rw [hsame, Int.min_eq_left hleast]

/-- **One change of the number of parts**: the parts beyond it are lost. The block gets a new id if
the number is another one, where a negative number counts as zero. -/
theorem outcome_withParam_sized (hkind : b.head.kind = .composition) (hb : b.Settled)
    (hleast : least ≤ size) (id : String) (value : Int) (desk : Desk) :
    ((b.sized id size least).withParam .standard "m" value).outcome desk =
      if max value 0 = max size 0 then (.ok (b.sized id value (min least value)), desk)
      else (.ok (b.sized (freshId (desk.issued + 1)) value (min least value)),
        { desk with issued := desk.issued + 1 }) := by
  have hlayout : (stored "m" value (b.sized id size least).head).layout =
      compositionSlots value := by
    change (b.sized id value least).head.layout = _
    exact layout_sized hkind
  have hcounted : (Catalog.entryOf (stored "m" value (b.sized id size least).head).kind).counted =
      true := by
    simp [stored, sized, hkind, Catalog.entryOf, Catalog.composition]
  have hrefresh := outcome_refresh
    ⟨stored "m" value (b.sized id size least).head, (b.sized id size least).slots⟩ desk
  dsimp only at hrefresh
  rw [hlayout, shapes_sized] at hrefresh
  split
  · rename_i hsame
    rw [if_neg fun h => h.2 (compositionSlots_eq_iff.mpr hsame)] at hrefresh
    rw [outcome_withParam rfl hrefresh, slots_sized_of_eq hsame hleast]
    rfl
  · rename_i hother
    rw [if_pos ⟨hcounted, fun h => hother (compositionSlots_eq_iff.mp h)⟩] at hrefresh
    have hsettle : settle (stored "m" value (b.sized id size least).head)
        (Slot.reconcile (b.sized id size least).slots (compositionSlots value)) =
          (b.sized id value (min least value)).slots :=
      settle_sized hb hleast
    rw [outcome_withParam rfl hrefresh, hsettle]
    rfl

/-! ## A history of changes -/

/-- Gives a composition numbers of parts, one after the other. -/
def resize (values : List Int) (b : Block) : Build Block :=
  values.foldlM (fun b value => b.withParam .standard "m" value) b

/-- How many of a sequence of numbers of parts, the first being `size`, differ from the one before,
where a negative number counts as zero. -/
def sizeChanges (size : Int) : List Int → Nat
  | [] => 0
  | value :: rest => (if max value 0 = max size 0 then 0 else 1) + sizeChanges value rest

theorem sizeChanges_eq_zero_iff {values : List Int} :
    sizeChanges size values = 0 ↔ (size :: values).IsChain fun m n => max n 0 = max m 0 := by
  induction values generalizing size with
  | nil => simp [sizeChanges]
  | cons value rest ih => simp [sizeChanges, ih]

/-- **A history of changes**: of the parts those are left that every number in it allows for, and
every change of the number takes one new id. -/
theorem outcome_resize_sized (hkind : b.head.kind = .composition) (hb : b.Settled)
    (hleast : least ≤ size) (id : String) (values : List Int) (desk : Desk) :
    ((b.sized id size least).resize values).outcome desk =
      (.ok (b.sized
        (if sizeChanges size values = 0 then id
          else freshId (desk.issued + sizeChanges size values))
        (values.getLastD size) (values.foldl min least)),
        { desk with issued := desk.issued + sizeChanges size values }) := by
  unfold resize
  induction values generalizing id size least desk with
  | nil => rfl
  | cons value rest ih =>
    have hstep := outcome_withParam_sized hkind hb hleast id value desk
    have hleast' : min least value ≤ value := by omega
    rw [List.foldlM_cons, List.getLastD_cons, List.foldl_cons, sizeChanges]
    by_cases hsame : max value 0 = max size 0
    · rw [if_pos hsame] at hstep
      rw [Build.outcome_bind_of_ok hstep, ih hleast', if_pos hsame, Nat.zero_add]
    · rw [if_neg hsame] at hstep
      rw [Build.outcome_bind_of_ok hstep, ih hleast', if_neg hsame, ← Nat.add_assoc,
        if_neg (c := 1 + _ = 0) (by omega)]
      by_cases hrest : sizeChanges value rest = 0
      · rw [if_pos hrest, hrest]
      · rw [if_neg hrest]

end Sized

/-! ## The composition before the changes -/

/-- The outer function takes as many inputs as there are parts, and the parts take those of the
composition. -/
theorem inputs_of_mem_compositionSlots {size : Int} {shape : SlotShape}
    (h : shape ∈ compositionSlots size) (count : Int) :
    shape.inputs count = if shape.name = "f" then max size 0 else count := by
  rcases List.mem_cons.mp h with rfl | h
  · rfl
  · obtain ⟨i, -, rfl⟩ := List.mem_map.mp h
    exact (if_neg (Rule.part_ne_outer (i + 1))).symm

/-- A child of a consistent block is consistent, with the number of inputs and the depth that follow
from the block. -/
theorem Consistent.child? {b c : Block} {name : String} (hb : b.Consistent)
    (hc : b.child? name = some c) :
    ∃ shape ∈ Slot.shapes b.slots, shape.name = name ∧
      c.head.inputCount = shape.inputs b.head.inputCount ∧ c.head.depth = b.head.depth + 1 ∧
        c.Consistent := by
  obtain ⟨s, hs, hoccupant⟩ := Option.bind_eq_some_iff.mp hc
  have hmem : s ∈ b.slots := List.mem_of_find?_eq_some hs
  have hname : s.shape.name = name := by simpa using List.find?_some hs
  obtain ⟨head, slots⟩ := b
  have hin := (consistent_mk.mp hb).2.2 s hmem c hoccupant
  exact ⟨s.shape, List.mem_map_of_mem hmem, hname, hin⟩

section Composition

variable {b : Block} {m : Int}

theorem settled_of_consistent (hb : b.Consistent)
    (hshapes : Slot.shapes b.slots = compositionSlots m) : b.Settled where
  outer c hc := by
    obtain ⟨shape, -, -, -, hdepth, hconsistent⟩ := hb.child? hc
    rw [← hdepth, setDepth_of_depthsFollow hconsistent.depths]
  part i c hc := by
    obtain ⟨shape, hshape, hname, hcount, hdepth, hconsistent⟩ := hb.child? hc
    rw [inputs_of_mem_compositionSlots (hshapes ▸ hshape), hname,
      if_neg (Rule.part_ne_outer i)] at hcount
    rw [← hcount, ← hdepth, propagate_of_countsFollow hconsistent.counts,
      setDepth_of_depthsFollow hconsistent.depths]

/-- The parameters of a composition are its number of parts. -/
theorem params_of_composition (hkind : b.head.kind = .composition) (hfit : b.head.Fitted)
    (hm : b.param? "m" = some m) : b.head.params = [⟨"m", m, 0⟩] := by
  unfold Head.Fitted at hfit
  unfold param? at hm
  rw [hkind] at hfit
  cases hparams : b.head.params with
  | nil => simp [hparams, Param.value?] at hm
  | cons p rest =>
    obtain ⟨name, value, minimum⟩ := p
    obtain ⟨⟨rfl, rfl⟩, rfl⟩ : (name = "m" ∧ minimum = 0) ∧ rest = [] := by
      simpa [hparams, Catalog.entryOf, Catalog.composition] using hfit
    obtain rfl : value = m := by simpa [hparams, Param.value?] using hm
    rfl

/-- The slots of a composition, by its children. -/
theorem slots_eq_composed (hshapes : Slot.shapes b.slots = compositionSlots m) :
    b.slots = Slot.composed m (b.child? "f") fun i => b.child? ("g" ++ toString i) := by
  simp only [child?_eq_lastOccupant? (Slot.nodup_names hshapes)]
  exact Slot.eq_composed hshapes

/-- A composition with its own number of parts is what it is, but for its id. -/
theorem sized_eq (hb : b.Consistent) (hshapes : Slot.shapes b.slots = compositionSlots m)
    (hparams : b.head.params = [⟨"m", m, 0⟩]) (id : String) :
    b.sized id m m = ⟨{ b.head with id }, b.slots⟩ := by
  have houter : (b.child? "f").map (propagate (max m 0)) = b.child? "f" := by
    refine (Option.map_congr (g := fun c => c) fun c hc => ?_).trans Option.map_id'
    obtain ⟨shape, hshape, hname, hcount, -, hconsistent⟩ := hb.child? hc
    rw [inputs_of_mem_compositionSlots (hshapes ▸ hshape), hname, if_pos rfl] at hcount
    rw [← hcount, propagate_of_countsFollow hconsistent.counts]
  have hslots : (b.sized id m m).slots = b.slots := by
    refine Eq.trans ?_ (slots_eq_composed hshapes).symm
    rw [slots_sized, houter]
    exact Slot.composed_congr rfl fun i _ hi => if_pos (by omega)
  refine congrArg₂ Block.mk ?_ hslots
  rw [← hparams]

theorem sized_self (hb : b.Consistent) (hshapes : Slot.shapes b.slots = compositionSlots m)
    (hparams : b.head.params = [⟨"m", m, 0⟩]) : b.sized b.head.id m m = b := by
  rw [sized_eq hb hshapes hparams]
  cases b
  rfl

/-- The least of numbers that are all as large as the first is the first. -/
theorem foldl_min_eq {values : List Int} (h : ∀ v ∈ values, m ≤ v) : values.foldl min m = m := by
  induction values with
  | nil => rfl
  | cons v rest ih =>
    rw [List.forall_mem_cons] at h
    rw [List.foldl_cons, Int.min_eq_left h.1, ih h.2]

/-- **Changing the number of parts loses only what it must.** After any history of changes, a
consistent composition has the slots for the last number of parts. Its outer function is the one it
had, told the last number of inputs; a part is the one it had if no number in the history left it
out, and missing otherwise. The id is a new one if and only if the number of parts changed on the
way, where a negative number counts as zero. So a composition that only grew and came back is what
it was, but for its id. Laying out its slots once more changes nothing. -/
theorem resized_composition (b : Block) (hb : b.Consistent) (hkind : b.head.kind = .composition)
    (hshapes : Slot.shapes b.slots = b.head.layout) (m : Int) (hm : b.param? "m" = some m)
    (values : List Int) (desk : Desk) :
    let last := values.getLastD m
    let least := values.foldl min m
    ∃ b' desk', (b.resize values).outcome desk = (.ok b', desk') ∧
      b'.head = { b.head with id := b'.head.id, params := [⟨"m", last, 0⟩] } ∧
      b'.slots.map (fun s => s.shape.name) =
        "f" :: (List.range last.toNat).map (fun i => "g" ++ toString (i + 1)) ∧
      Slot.shapes b'.slots = b'.head.layout ∧
      b'.child? "f" = (b.child? "f").map (propagate (max last 0)) ∧
      (∀ i : Nat, 1 ≤ i → i ≤ last.toNat → b'.child? ("g" ++ toString i) =
        if (i : Int) ≤ least then b.child? ("g" ++ toString i) else none) ∧
      ((∃ n, desk.issued < n ∧ n ≤ desk'.issued ∧ b'.head.id = freshId n) ↔
        ¬ (m :: values).IsChain fun before after => max after 0 = max before 0) ∧
      (((m :: values).IsChain fun before after => max after 0 = max before 0) →
        b'.head.id = b.head.id ∧ desk' = desk) ∧
      ((∀ v ∈ values, m ≤ v) → last = m → b' = ⟨{ b.head with id := b'.head.id }, b.slots⟩) ∧
      (refresh .standard b').outcome desk' = (.ok (false, b'), desk') := by
  have hparams := params_of_composition hkind hb.standard.root.1 hm
  rw [layout_of_params hkind hparams] at hshapes
  have hrun := outcome_resize_sized hkind (settled_of_consistent hb hshapes) (Int.le_refl m)
    b.head.id values desk
  rw [sized_self hb hshapes hparams] at hrun
  refine ⟨_, _, hrun, rfl, ?_, ?_, child?_sized_outer, ?_, ?_, ?_, ?_, ?_⟩
  · exact names_sized
  · rw [shapes_sized, layout_sized hkind]
  · exact fun i hi hlast => child?_sized_part hi hlast
  · rw [← sizeChanges_eq_zero_iff]
    constructor
    · rintro ⟨n, hn, hissued, -⟩ hzero
      dsimp only at hissued
      omega
    · intro hchanged
      exact ⟨desk.issued + sizeChanges m values, by omega, Nat.le_refl _, if_neg hchanged⟩
  · rw [← sizeChanges_eq_zero_iff]
    intro hzero
    rw [hzero]
    exact ⟨rfl, rfl⟩
  · intro hgrown hlast
    dsimp only
    rw [hlast, foldl_min_eq hgrown, sized_eq hb hshapes hparams]
  · rw [outcome_refresh, if_neg]
    rw [shapes_sized, layout_sized hkind]
    exact fun h => h.2 rfl

end Composition

/-- The second of two results, which is missing. -/
def second : Block :=
  let outer : Head :=
    { kind := .projection, id := "p", params := [⟨"i", 2, 1⟩], inputCount := 2, depth := 1 }
  let first : Head := { kind := .zero, id := "z", inputCount := 1, depth := 1 }
  ⟨{ kind := .composition, id := "c", params := [⟨"m", 2, 0⟩], inputCount := 1 },
    [⟨{ name := "f", descriptor := 1, exact := some 2 }, some ⟨outer, []⟩⟩,
      ⟨{ name := "g1" }, some ⟨first, []⟩⟩, ⟨{ name := "g2" }, none⟩]⟩

theorem consistent_second : second.Consistent := by
  have hleaf (head : Head) (hfit : head.Fitted) (hlayout : head.layout = []) :
      Consistent ⟨head, []⟩ :=
    consistent_mk.mpr ⟨hfit, hlayout ▸ rfl, fun _ h => absurd h List.not_mem_nil⟩
  refine consistent_mk.mpr ⟨rfl, rfl, ?_⟩
  rw [List.forall_mem_cons, List.forall_mem_cons, List.forall_mem_singleton]
  refine ⟨?_, ?_, ?_⟩
  · rintro c ⟨rfl⟩
    exact ⟨rfl, rfl, hleaf _ rfl rfl⟩
  · rintro c ⟨rfl⟩
    exact ⟨rfl, rfl, hleaf _ rfl rfl⟩
  · rintro c ⟨⟩

/-- It shrinks to one part and grows to three. -/
theorem resized_composition_second :
    second.Consistent ∧ second.head.kind = .composition ∧
      Slot.shapes second.slots = second.head.layout ∧ second.param? "m" = some 2 ∧
      ∃ b' desk', (second.resize [1, 3]).outcome {} = (.ok b', desk') ∧
        b'.child? "f" = (second.child? "f").map (propagate 3) ∧
        b'.child? "g1" = second.child? "g1" ∧ b'.child? "g3" = none ∧
        ∃ n, 0 < n ∧ n ≤ desk'.issued ∧ b'.head.id = freshId n := by
  obtain ⟨b', desk', hrun, -, -, -, houter, hpart, hfresh, -⟩ :=
    resized_composition second consistent_second rfl rfl 2 rfl [1, 3] {}
  refine ⟨consistent_second, rfl, rfl, rfl, b', desk', hrun, houter, ?_, ?_, ?_⟩
  · exact hpart 1 (by decide) (by decide)
  · exact hpart 3 (by decide) (by decide)
  · exact hfresh.mpr (by decide)

end Block

end BlockCalculus
