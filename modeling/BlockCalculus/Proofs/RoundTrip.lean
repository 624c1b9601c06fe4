import BlockCalculus.Document.Codec
import BlockCalculus.Proofs.Desk
import BlockCalculus.Proofs.Grammar
import BlockCalculus.Proofs.Numbering

/-!
# Saving and loading trees

Writing a tree and loading it are not each other's mirror images: loading takes parameters and slots
from the catalogue, stored slots are matched by name, and what does not match is repaired. Still, a
tree in standard layout comes back as it was, and loading gives nothing but such trees.

* `checkBlock_toJson`: what is written passes the check.
* `outcome_load_succ`: what loading comes to, one block at a time. The rest follows from it.
* `outcome_load_toJson`: what is written is loaded as it was, without a warning.
* `loaded_of_load`: what is loaded is in standard layout. The induction is on the levels left, since
  a serialised block is any JSON value.
* `load_succeeds`: what passes the check can be loaded.
* `save_load_round_trip`: the main result.
-/

namespace BlockCalculus

/-! ## Reading what was written -/

section Written

variable (h : Head) (slots : List Json)

@[simp] theorem get?_toJson_id : (h.toJson slots).get? "id" = some (.str h.id) := by
  simp [Head.toJson, Json.get?, Json.Members.get?]

@[simp] theorem get?_toJson_type : (h.toJson slots).get? "type" = some (.str h.kind.name) := by
  simp [Head.toJson, Json.get?, Json.Members.get?]

@[simp] theorem get?_toJson_children : (h.toJson slots).get? "children" = some (.arr slots) := by
  simp [Head.toJson, Json.get?, Json.Members.get?]

@[simp] theorem get?_toJson_params :
    (h.toJson slots).get? "num_values" = some (.arr (h.params.map Param.toJson)) := by
  simp [Head.toJson, Json.get?, Json.Members.get?]

@[simp] theorem get?_toJson_collapsed :
    (h.toJson slots).get? "collapsed" = some (.bool h.collapsed) := by
  simp [Head.toJson, Json.get?, Json.Members.get?]

@[simp] theorem get?_toJson_immutable :
    (h.toJson slots).get? "immutable" = some (.bool h.immutable) := by
  simp [Head.toJson, Json.get?, Json.Members.get?]

@[simp] theorem get?_toJson_breakpoint :
    (h.toJson slots).get? "hasBreakpoint" = some (.bool h.breakpoint) := by
  simp [Head.toJson, Json.get?, Json.Members.get?]

@[simp] theorem get?_toJson_inputCount :
    (h.toJson slots).get? "inputCount" = some (.int h.inputCount) := by
  simp [Head.toJson, Json.get?, Json.Members.get?]

@[simp] theorem get?_toJson_name : (h.toJson slots).get? "name" = h.name.map .str := by
  cases hname : h.name <;> simp [Head.toJson, Json.get?, Json.Members.get?, Json.member?, hname]

@[simp] theorem get?_param_name (p : Param) : p.toJson.get? "name" = some (.str p.name) := by
  simp [Param.toJson, Json.get?, Json.Members.get?]

@[simp] theorem get?_param_value (p : Param) : p.toJson.get? "value" = some (.int p.value) := by
  simp [Param.toJson, Json.get?, Json.Members.get?]

@[simp] theorem get?_slot_name (shape : SlotShape) (occupant : Json) :
    (shape.toJson occupant).get? "name" = some (.str shape.name) := by
  simp [SlotShape.toJson, Json.get?, Json.Members.get?]

@[simp] theorem get?_slot_block (shape : SlotShape) (occupant : Json) :
    (shape.toJson occupant).get? "block" = some occupant := by
  simp [SlotShape.toJson, Json.get?, Json.Members.get?]

end Written

namespace Block

/-- A written head is read back. -/
theorem loadHead_toJson (h : Head) (slots : List Json) (serial : Nat) (depth : Int) :
    loadHead h.kind serial h.params depth (h.toJson slots) =
      { h with id := freshId serial, serial, depth, problems := [], lastInput := none,
               lastOutput := none } := by
  cases hname : h.name <;> simp [loadHead, flag, Json.getD, Json.isSet, Json.str?, Json.int?, hname]

/-- No standard entry has more than one parameter. -/
theorem params_entryOf (kind : Kind) :
    (Catalog.entryOf kind).params = [] ∨ ∃ p, (Catalog.entryOf kind).params = [p] := by
  cases kind
  case projection | composition => exact .inr ⟨_, rfl⟩
  all_goals exact .inl rfl

/-- Written parameters are read back. -/
theorem loadParams_toJson {h : Head} (hfit : h.Fitted) (slots : List Json) :
    loadParams (Catalog.entryOf h.kind) (h.toJson slots) = h.params := by
  unfold Head.Fitted at hfit
  unfold loadParams
  obtain hnone | ⟨p, hone⟩ := params_entryOf h.kind
  · rw [hnone] at hfit ⊢
    exact (List.map_eq_nil_iff.mp hfit).symm
  · rw [hone] at hfit ⊢
    obtain ⟨q, hq, hsame⟩ : ∃ q, h.params = [q] ∧ (q.name, q.minimum) = (p.name, p.minimum) := by
      simpa [List.map_eq_singleton_iff] using hfit
    obtain ⟨hname, hmin⟩ := Prod.mk.inj hsame
    simp [storedParam?, hq, Json.arr?, Json.getD, Json.str?, Json.int?, ← hname, ← hmin]

/-- An occupant is found in a written slot. -/
@[simp] theorem present?_slot_some (shape : SlotShape) (b : Block) :
    (shape.toJson b.toJson).present? "block" = some b.toJson := by
  obtain ⟨head, slots⟩ := b
  simp [Json.present?, toJson, Head.toJson]

@[simp] theorem present?_slot_none (shape : SlotShape) :
    (shape.toJson .null).present? "block" = none := by
  simp [Json.present?]

/-! ## What was written passes the check -/

open Document

theorem checkParamList_toJson (path : DocPath) (params : List Param) (index : Nat) :
    checkParamList path index (params.map Param.toJson) = [] := by
  induction params generalizing index with
  | nil => rfl
  | cons p rest ih => simp [checkParamList, isParam, Json.str?, Json.int?, ih]

/-- Written slots of distinct names pass the check if what is in them does. -/
theorem checkSlots_toJsonAll {inner : DocPath → Json → Except Fault (List Finding)}
    {slots : List Slot}
    (hinner : ∀ s ∈ slots, ∀ c ∈ s.occupant, ∀ path, inner path c.toJson = .ok [])
    (hnames : (slots.map fun s => s.shape.name).Nodup) (path : DocPath) (index : Nat)
    {seen : List String} (hseen : ∀ s ∈ slots, s.shape.name ∉ seen) :
    Document.checkSlots inner path index seen (toJsonAll slots) = .ok [] := by
  induction slots generalizing index seen with
  | nil => rw [toJsonAll, Document.checkSlots]
  | cons s rest ih =>
    obtain ⟨shape, occupant⟩ := s
    rw [List.map_cons, List.nodup_cons] at hnames
    have hfresh : shape.name ∉ seen := hseen _ List.mem_cons_self
    have hothers : ∀ t ∈ rest, t.shape.name ∉ shape.name :: seen := by
      intro t ht hmem
      obtain heq | hmem := List.mem_cons.mp hmem
      · exact hnames.1 (heq ▸ List.mem_map_of_mem (f := fun s => s.shape.name) ht)
      · exact hseen t (List.mem_cons_of_mem _ ht) hmem
    have hrest := ih (fun s hs => hinner s (List.mem_cons_of_mem _ hs)) hnames.2 (index + 1) hothers
    cases occupant with
    | none =>
      simp [toJsonAll, Document.checkSlots, Json.str?, hfresh, hrest, bind, Except.bind, pure,
        Except.pure]
    | some c =>
      have hc := hinner _ List.mem_cons_self c rfl
      simp [toJsonAll, Document.checkSlots, Json.str?, hfresh, hrest, hc, bind, Except.bind, pure,
        Except.pure]

theorem nodup_names {head : Head} {slots : List Slot} (h : Slot.shapes slots = head.layout) :
    (slots.map fun s => s.shape.name).Nodup := by
  have hnodup := head.nodup_layout
  rw [← h] at hnodup
  simpa [Slot.shapes, Function.comp_def] using hnodup

/-- A written head passes the check if its slots do. -/
theorem checkBlock_head_toJson {levels : Nat} {path : DocPath} (h : Head) {slots : List Json}
    (hslots : Document.checkSlots (checkBlock levels) path 0 [] slots = .ok []) :
    checkBlock (levels + 1) path (h.toJson slots) = .ok [] := by
  have hobj : ∃ members, (h.toJson slots).obj? = some members := ⟨_, rfl⟩
  obtain ⟨members, hobj⟩ := hobj
  have hkind : checkKind path (h.toJson slots) = .ok [] := by
    simp [checkKind, Json.getD, Json.str?, Kind.ofName?_name]
  have hid : checkText "id" path (h.toJson slots) = [] := by
    simp [checkText, Json.present?, Json.str?]
  have hname : checkText "name" path (h.toJson slots) = [] := by
    cases hname : h.name <;> simp [checkText, Json.present?, Json.str?, hname]
  have hcount : checkCount path (h.toJson slots) = [] := by simp [checkCount, Json.int?]
  have hparams : checkParams path (h.toJson slots) = [] := by
    simp [checkParams, Json.arr?, checkParamList_toJson]
  have hchildren : checkChildren (checkBlock levels) path (h.toJson slots) = .ok [] := by
    simp [checkChildren, Json.arr?, hslots]
  rw [checkBlock, hobj]
  simp only [hkind, hid, hname, hcount, hparams, hchildren]
  rfl

/-- **A tree in standard layout is written as a sound document.** -/
theorem checkBlock_toJson {b : Block} (hb : b.Conforms) {levels : Nat} (hle : b.height ≤ levels)
    (path : DocPath) : checkBlock levels path b.toJson = .ok [] := by
  induction b using Block.induction generalizing levels path with
  | mk head slots ih =>
    rw [conforms_mk] at hb
    rw [height] at hle
    obtain ⟨levels, rfl⟩ : ∃ n, levels = n + 1 := Nat.exists_eq_add_of_le' (by omega)
    have hinner : ∀ s ∈ slots, ∀ c ∈ s.occupant, ∀ path,
        checkBlock levels path c.toJson = .ok [] := by
      intro s hs c hc path
      exact ih s hs c hc (hb.2 s hs c hc) (heightAll_le_iff.mp (by omega) s hs c hc) path
    rw [toJson]
    exact checkBlock_head_toJson head
      (checkSlots_toJsonAll hinner (nodup_names hb.1.2) path 0 fun _ _ => List.not_mem_nil)

/-! ## Loading, one block at a time -/

/-- **What loading a serialised block comes to**: a block with the slots of its layout, filled with
what was loaded from the stored ones, and a warning if the names of those are not the names of the
layout. -/
theorem outcome_load_succ (levels : Nat) (depth : Int) (data : Json) (desk : Desk) :
    (load .standard (levels + 1) depth data).outcome desk =
      match (data.getD "type").str?.bind Kind.ofName? with
      | none => (.error (.noKind (data.getD "type")), desk)
      | some kind =>
        let params := loadParams (Catalog.entryOf kind) data
        let head := loadHead kind (desk.issued + 1) params depth data
        let stored := (((data.get? "children").bind Json.arr?).getD []).mapM
          (loadSlot (load .standard levels (depth + 1)))
        match stored.outcome { desk with issued := desk.issued + 1 } with
        | (.error f, desk') => (.error f, desk')
        | (.ok slots, desk') =>
          (.ok ⟨head, Slot.reconcile slots head.layout⟩,
            if (slots.map fun s => s.shape.name) = head.layout.map SlotShape.name then desk'
            else { desk' with warnings := desk'.warnings ++ [repairWarning head] }) := by
  rw [load]
  cases hkind : (data.getD "type").str?.bind Kind.ofName? with
  | none => rfl
  | some kind =>
    simp only [Build.outcome_bind, Build.outcome_ofExcept, Catalog.get, Catalog.lookup?_standard,
      Build.outcome_issue]
    generalize Build.outcome _ _ = result
    obtain ⟨_ | slots, desk'⟩ := result
    · rfl
    · have hlayout (serial : Nat) (params : List Param) :
          (loadHead kind serial params depth data).layout = (Catalog.entryOf kind).layout params :=
        rfl
      simp only [hlayout, ne_eq, ite_not]
      split <;> rfl

/-- What a block was loaded from: its head and, matched by name, the stored slots. -/
theorem exists_of_load_succ {levels : Nat} {depth : Int} {data : Json} {desk desk' : Desk}
    {b : Block} (h : (load .standard (levels + 1) depth data).outcome desk = (.ok b, desk')) :
    ∃ kind serial stored before after,
      (data.getD "type").str?.bind Kind.ofName? = some kind ∧
      ((((data.get? "children").bind Json.arr?).getD []).mapM
        (loadSlot (load .standard levels (depth + 1)))).outcome before = (.ok stored, after) ∧
      let head := loadHead kind serial (loadParams (Catalog.entryOf kind) data) depth data
      b = ⟨head, Slot.reconcile stored head.layout⟩ := by
  rw [outcome_load_succ] at h
  split at h
  · simp at h
  · rename_i kind hkind
    dsimp only at h
    split at h
    · simp at h
    · rename_i stored between hstored
      obtain ⟨hb, -⟩ := Prod.mk.inj h
      exact ⟨kind, _, stored, _, between, hkind, hstored, (Except.ok.inj hb).symm⟩

/-! ## Loading what was written -/

/-- The tree without what checks and evaluations left behind. -/
def unmarked (b : Block) : Block :=
  b.mapHeads fun h => { h with problems := [], lastInput := none, lastOutput := none }

theorem unmarked_mk (head : Head) (slots : List Slot) :
    unmarked ⟨head, slots⟩ =
      ⟨{ head with problems := [], lastInput := none, lastOutput := none },
        slots.map (Slot.within fun _ => unmarked)⟩ :=
  mapHeads_mk _ head slots

/-- Written slots are loaded with their names and their occupants, if `load` gives every occupant
`c` back as `f c`, numbered by the desk. -/
theorem outcome_mapM_loadSlot {load : Json → Build Block} {f : Block → Block} {slots : List Slot}
    (hload : ∀ s ∈ slots, ∀ c ∈ s.occupant, ∀ desk, (load c.toJson).outcome desk =
      (.ok ((f c).renumber (desk.issued + 1)),
        { desk with issued := desk.issued + (f c).size })) (desk : Desk) :
    ((toJsonAll slots).mapM (loadSlot load)).outcome desk =
      (.ok ((renumberAll (desk.issued + 1) (slots.map (Slot.within fun _ => f))).map Slot.bare),
        { desk with issued := desk.issued + sizeAll (slots.map (Slot.within fun _ => f)) }) := by
  induction slots generalizing desk with
  | nil => rfl
  | cons s rest ih =>
    obtain ⟨shape, occupant⟩ := s
    have hrest := ih fun s hs => hload s (List.mem_cons_of_mem _ hs)
    cases occupant with
    | none =>
      have hslot : (loadSlot load (shape.toJson .null)).outcome desk =
          (.ok (Slot.bare ⟨shape, none⟩), desk) := by
        simp [loadSlot, Json.getD, Json.str?, Slot.bare]
      rw [toJsonAll, List.mapM_cons, Build.outcome_bind_of_ok hslot,
        Build.outcome_bind_of_ok (hrest desk)]
      simp [Slot.within, renumberAll, sizeAll]
    | some c =>
      have hc := hload _ List.mem_cons_self c rfl desk
      have hslot : (loadSlot load (shape.toJson c.toJson)).outcome desk =
          (.ok (Slot.bare ⟨shape, some ((f c).renumber (desk.issued + 1))⟩),
            { desk with issued := desk.issued + (f c).size }) := by
        simp [loadSlot, Json.getD, Json.str?, Slot.bare, hc, Except.map]
      rw [toJsonAll, List.mapM_cons, Build.outcome_bind_of_ok hslot,
        Build.outcome_bind_of_ok (hrest _)]
      simp [Slot.within, renumberAll, sizeAll, Nat.add_assoc, Nat.add_comm, Nat.add_left_comm]

/-- **A written tree in standard layout is loaded as it was**, at the depth asked for, with new
numbers and without marks, and no warning is raised. -/
theorem outcome_load_toJson {b : Block} (hb : b.Conforms) {levels : Nat} (hle : b.height ≤ levels)
    (depth : Int) (desk : Desk) :
    (load .standard levels depth b.toJson).outcome desk =
      (.ok ((b.unmarked.setDepth depth).renumber (desk.issued + 1)),
        { desk with issued := desk.issued + b.size }) := by
  induction b using Block.induction generalizing levels depth desk with
  | mk head slots ih =>
    rw [conforms_mk] at hb
    rw [height] at hle
    obtain ⟨levels, rfl⟩ : ∃ n, levels = n + 1 := Nat.exists_eq_add_of_le' (by omega)
    have hload : ∀ s ∈ slots, ∀ c ∈ s.occupant, ∀ desk,
        (load .standard levels (depth + 1) c.toJson).outcome desk =
          (.ok ((c.unmarked.setDepth (depth + 1)).renumber (desk.issued + 1)),
            { desk with issued := desk.issued + (c.unmarked.setDepth (depth + 1)).size }) := by
      intro s hs c hc desk
      rw [size_setDepth, unmarked, size_mapHeads]
      exact ih s hs c hc (hb.2 s hs c hc) (heightAll_le_iff.mp (by omega) s hs c hc) _ desk
    have hsize : sizeAll (slots.map (Slot.within fun _ c => c.unmarked.setDepth (depth + 1))) =
        sizeAll slots := by
      refine sizeAll_map_within fun s _ c _ => ?_
      rw [size_setDepth, unmarked, size_mapHeads]
    have hstored := outcome_mapM_loadSlot hload { desk with issued := desk.issued + 1 }
    rw [unmarked_mk, setDepth_mk, Slot.map_within_within, renumber, outcome_load_succ, toJson]
    generalize hnew : renumberAll (desk.issued + 1 + 1) _ = new at hstored ⊢
    have hshapes : Slot.shapes new = head.layout := by
      rw [← hnew, shapes_renumberAll, Slot.shapes_map_within, hb.1.2]
    have hnames : (new.map Slot.bare).map (fun s => s.shape.name) =
        head.layout.map SlotShape.name := by
      simp [← hshapes, Slot.shapes, Slot.bare, Function.comp_def]
    have hnew : Slot.reconcile (new.map Slot.bare) head.layout = new :=
      hshapes ▸ Slot.reconcile_bare (nodup_names hshapes)
    simp only [Json.getD, get?_toJson_type, Option.getD_some, Json.str?, Option.bind_some,
      Kind.ofName?_name, loadParams_toJson hb.1.1, loadHead_toJson, get?_toJson_children,
      Json.arr?, hstored]
    split
    · rw [hsize, size, Nat.add_right_comm]
      exact congrArg (fun slots => (Except.ok (Block.mk _ slots), _)) hnew
    · rename_i hother
      exact absurd hnames hother

/-! ## What loading gives -/

/-- What loading gives at a depth: a tree in standard layout, of at most `levels` levels, without
marks, and with the depths that follow from that of its root. -/
structure Loaded (levels : Nat) (depth : Int) (b : Block) : Prop where
  conforms : b.Conforms
  height_le : b.height ≤ levels
  unmarked_eq : b.unmarked = b
  setDepth_eq : b.setDepth depth = b

theorem fitted_loadHead (kind : Kind) (serial : Nat) (depth : Int) (data : Json) :
    (loadHead kind serial (loadParams (Catalog.entryOf kind) data) depth data).Fitted := by
  simp [Head.Fitted, loadHead, loadParams, Function.comp_def]

theorem exists_of_loadSlot {load : Json → Build Block} {data : Json} {desk desk' : Desk} {s : Slot}
    (h : (loadSlot load data).outcome desk = (.ok s, desk')) {c : Block} (hc : c ∈ s.occupant) :
    ∃ block, data.present? "block" = some block ∧ (load block).outcome desk = (.ok c, desk') := by
  unfold loadSlot at h
  dsimp only at h
  split at h
  · rename_i block hblock
    obtain ⟨b, between, hb, h⟩ := Build.exists_of_bind h
    rw [Build.outcome_pure] at h
    obtain ⟨hs, rfl⟩ := Prod.mk.inj h
    rw [← Except.ok.inj hs] at hc
    obtain rfl : b = c := Option.some.inj hc
    exact ⟨block, hblock, hb⟩
  · rw [Build.outcome_pure] at h
    rw [← Except.ok.inj (Prod.mk.inj h).1] at hc
    simp at hc

/-- A loaded head over loaded occupants, laid out by the head, is what loading gives. -/
theorem loaded_mk {levels : Nat} (kind : Kind) (serial : Nat) (depth : Int) (data : Json)
    {slots : List Slot}
    (hshapes : Slot.shapes slots =
      (loadHead kind serial (loadParams (Catalog.entryOf kind) data) depth data).layout)
    (hin : ∀ s ∈ slots, ∀ c ∈ s.occupant, c.Loaded levels (depth + 1)) :
    Loaded (levels + 1) depth
      ⟨loadHead kind serial (loadParams (Catalog.entryOf kind) data) depth data, slots⟩ where
  conforms := conforms_mk.mpr
    ⟨⟨fitted_loadHead .., hshapes⟩, fun s hs c hc => (hin s hs c hc).conforms⟩
  height_le := by
    rw [height]
    exact Nat.succ_le_succ (heightAll_le_iff.mpr fun s hs c hc => (hin s hs c hc).height_le)
  unmarked_eq := by
    rw [unmarked_mk, Slot.map_within_eq_self fun s hs c hc => (hin s hs c hc).unmarked_eq]
    rfl
  setDepth_eq := by
    rw [setDepth_mk, Slot.map_within_eq_self fun s hs c hc => (hin s hs c hc).setDepth_eq]
    rfl

/-- **Whatever is loaded is in standard layout**, whatever it was loaded from. -/
theorem loaded_of_load {levels : Nat} {depth : Int} {data : Json} {desk desk' : Desk} {b : Block}
    (h : (load .standard levels depth data).outcome desk = (.ok b, desk')) :
    b.Loaded levels depth := by
  induction levels generalizing depth data desk desk' b with
  | zero => simp [load] at h
  | succ levels ih =>
    obtain ⟨kind, serial, stored, _, _, -, hstored, rfl⟩ := exists_of_load_succ h
    refine loaded_mk _ _ depth data (Slot.shapes_reconcile ..) fun s hs c hc => ?_
    -- an occupant was the occupant of a stored slot, and so it was loaded one level below
    obtain ⟨t, ht, hct⟩ := Slot.exists_of_mem_reconcile hs hc
    obtain ⟨item, -, before, after, hitem⟩ := Build.exists_of_mapM hstored t ht
    obtain ⟨block, -, hblock⟩ := exists_of_loadSlot hitem hct
    exact ih hblock

theorem loaded_of_ofJson {depth : Int} {data : Json} {desk desk' : Desk} {b : Block}
    (h : (ofJson .standard depth data).outcome desk = (.ok b, desk')) :
    b.Loaded loadLimit depth := by
  unfold ofJson at h
  obtain ⟨findings, between, -, h⟩ := Build.exists_of_bind h
  split at h
  · exact loaded_of_load h
  · simp at h

/-! ## What passes the check can be loaded -/

theorem exists_kind_of_checkKind {path : DocPath} {data : Json}
    (h : checkKind path data = .ok []) :
    ∃ kind, (data.getD "type").str?.bind Kind.ofName? = some kind := by
  unfold checkKind at h
  split at h
  · simp at h
  · simp at h
  · split at h
    · rename_i hkind
      exact Option.isSome_iff_exists.mp hkind
    · simp at h

/-- Blocks in slots that pass the check pass it. -/
theorem checked_of_checkSlots {inner : DocPath → Json → Except Fault (List Finding)}
    {path : DocPath} {index : Nat} {seen : List String} {slots : List Json}
    (h : Document.checkSlots inner path index seen slots = .ok []) :
    ∀ slot ∈ slots, ∀ block, slot.present? "block" = some block →
      ∃ path, inner path block = .ok [] := by
  induction slots generalizing index seen with
  | nil => simp
  | cons slot rest ih =>
    rw [Document.checkSlots] at h
    dsimp only at h
    split at h
    · obtain ⟨others, -, h⟩ := exists_of_bind_eq_ok h
      cases h
    · intro t ht block hblock
      cases hpresent : slot.present? "block" with
      | none =>
        simp only [hpresent] at h
        obtain ⟨below, -, h⟩ := exists_of_bind_eq_ok h
        obtain ⟨others, hothers, h⟩ := exists_of_bind_eq_ok h
        obtain rfl : others = [] := (List.append_eq_nil_iff.mp (Except.ok.inj h)).2
        obtain rfl | ht := List.mem_cons.mp ht
        · simp [hpresent] at hblock
        · exact ih hothers t ht block hblock
      | some first =>
        simp only [hpresent] at h
        obtain ⟨below, hbelow, h⟩ := exists_of_bind_eq_ok h
        obtain ⟨others, hothers, h⟩ := exists_of_bind_eq_ok h
        obtain ⟨hfound, rfl⟩ := List.append_eq_nil_iff.mp (Except.ok.inj h)
        obtain rfl : below = [] := (List.append_eq_nil_iff.mp hfound).2
        obtain rfl | ht := List.mem_cons.mp ht
        · obtain rfl : first = block := Option.some.inj (hpresent.symm.trans hblock)
          exact ⟨_, hbelow⟩
        · exact ih hothers t ht block hblock

/-- A block that passes the check has a kind, and what is in its slots passes the check. -/
theorem of_checkBlock_succ {levels : Nat} {path : DocPath} {data : Json}
    (h : checkBlock (levels + 1) path data = .ok []) :
    (∃ kind, (data.getD "type").str?.bind Kind.ofName? = some kind) ∧
      ∀ slot ∈ ((data.get? "children").bind Json.arr?).getD [], ∀ block,
        slot.present? "block" = some block → ∃ path, checkBlock levels path block = .ok [] := by
  rw [checkBlock] at h
  split at h
  · simp at h
  · obtain ⟨kind, hkind, h⟩ := exists_of_bind_eq_ok h
    obtain ⟨children, hchildren, h⟩ := exists_of_bind_eq_ok h
    obtain ⟨rfl, rfl⟩ : kind = [] ∧ children = [] := by
      simp only [pure, Except.pure, Except.ok.injEq, List.append_eq_nil_iff] at h
      exact ⟨h.1.1.1.1.1, h.2⟩
    refine ⟨exists_kind_of_checkKind hkind, ?_⟩
    unfold checkChildren at hchildren
    cases hvalue : data.get? "children" with
    | none => simp
    | some value =>
      simp only [hvalue] at hchildren
      split at hchildren
      · simp at hchildren
      · rename_i slots hslots
        simpa [hslots] using checked_of_checkSlots hchildren

theorem nestsWithin_of_checkBlock {levels : Nat} {path : DocPath} {block : Json}
    (h : checkBlock levels path block = .ok []) : NestsWithin levels block := by
  induction levels generalizing path block with
  | zero => simp [checkBlock] at h
  | succ levels ih =>
    intro inner hinner
    obtain ⟨slot, hslot, hsome⟩ := List.mem_filterMap.mp hinner
    obtain ⟨name, -, hpresent⟩ := Option.bind_eq_some_iff.mp hsome
    obtain ⟨path, hchecked⟩ := (of_checkBlock_succ h).2 slot hslot inner hpresent
    exact ih hchecked

/-- What passes the check passes it wherever it stands, and with more levels. -/
theorem checkBlock_of_le {levels levels' : Nat} (hle : levels ≤ levels') {path : DocPath}
    {data : Json} (h : checkBlock levels path data = .ok []) (path' : DocPath) :
    checkBlock levels' path' data = .ok [] := by
  have hnest := nestsWithin_of_checkBlock h
  have hboth := (checkBlock_reports hnest path).eq_ok_nil_iff.mp h
  exact (checkBlock_reports (hnest.mono hle) path').eq_ok_nil_iff.mpr hboth

/-- **What passes the check can be loaded.** -/
theorem load_succeeds {levels : Nat} {path : DocPath} {data : Json}
    (h : checkBlock levels path data = .ok []) (depth : Int) :
    (load .standard levels depth data).Succeeds := by
  induction levels generalizing path data depth with
  | zero => simp [checkBlock] at h
  | succ levels ih =>
    obtain ⟨⟨kind, hkind⟩, hslots⟩ := of_checkBlock_succ h
    have hstored : ((((data.get? "children").bind Json.arr?).getD []).mapM
        (loadSlot (load .standard levels (depth + 1)))).Succeeds := by
      refine Build.Succeeds.mapM fun slot hslot => ?_
      unfold loadSlot
      dsimp only
      split
      · rename_i block hblock
        obtain ⟨path, hpath⟩ := hslots slot hslot block hblock
        exact (ih hpath _).bind fun b desk => ⟨_, desk, rfl⟩
      · exact fun desk => ⟨_, desk, rfl⟩
    intro desk
    obtain ⟨stored, desk', hdesk'⟩ := hstored { desk with issued := desk.issued + 1 }
    rw [outcome_load_succ, hkind]
    dsimp only
    rw [hdesk']
    exact ⟨_, _, rfl⟩

/-! ## The round trip -/

theorem encode_eq_ok {b : Block} (h : b.height ≤ nestingLimit) : b.encode = .ok b.toJson := by
  rw [encode, bounded, if_pos h]
  rfl

/-- What passes the check, with as many levels as can be loaded, is loaded. -/
theorem outcome_ofJson {data : Json} (h : checkBlock loadLimit [] data = .ok []) (depth : Int)
    (desk : Desk) : (ofJson .standard depth data).outcome desk =
      (load .standard loadLimit depth data).outcome desk := by
  unfold ofJson
  rw [checkBlock_of_le loadLimit_le h]
  rfl

/-- Saving `t` and loading it at `depth` gives `expected`, whatever is on the desk: nothing but
numbers is taken from the desk, and they are the ids of the blocks in the order of the tree. -/
def Restores (t : Block) (depth : Int) (expected : Block) : Prop :=
  ∃ data, t.encode = .ok data ∧ ∀ desk, ∃ b,
    (ofJson .standard depth data).outcome desk =
        (.ok b, { desk with issued := desk.issued + t.size }) ∧
      b.anonymous = expected.anonymous ∧
      b.listing.map (fun c => c.head.id) = (List.range' (desk.issued + 1) t.size).map freshId

theorem Conforms.restores {t : Block} (ht : t.Conforms) (hle : t.height ≤ loadLimit)
    (depth : Int) : t.Restores depth (t.unmarked.setDepth depth) := by
  refine ⟨t.toJson, encode_eq_ok (Nat.le_trans hle loadLimit_le), fun desk => ?_⟩
  refine ⟨(t.unmarked.setDepth depth).renumber (desk.issued + 1), ?_, anonymous_renumber .., ?_⟩
  · rw [outcome_ofJson (checkBlock_toJson ht hle []), outcome_load_toJson ht hle]
  · rw [ids_listing_renumber, size_setDepth, unmarked, size_mapHeads]

/-- **Saving a tree and loading it is the identity** on trees in standard layout, but for ids,
depths and marks. What is loaded from a serialised block that passes the check is such a tree, so
from the first load on nothing changes but ids, and nothing is repaired. -/
theorem save_load_round_trip :
    (∀ (t : Block) (depth : Int), t.Conforms → t.height ≤ loadLimit →
      t.Restores depth (t.unmarked.setDepth depth)) ∧
    ∀ (data : Json) (depth : Int) (desk : Desk), checkBlock loadLimit [] data = .ok [] →
      ∃ b desk', (ofJson .standard depth data).outcome desk = (.ok b, desk') ∧
        b.Conforms ∧ b.height ≤ loadLimit ∧ b.Restores depth b := by
  refine ⟨fun t depth ht hle => ht.restores hle depth, fun data depth desk hcheck => ?_⟩
  obtain ⟨b, desk', hload⟩ := load_succeeds hcheck depth desk
  have hb := loaded_of_load hload
  refine ⟨b, desk', ?_, hb.conforms, hb.height_le, ?_⟩
  · rw [outcome_ofJson hcheck, hload]
  · have hrestores := hb.conforms.restores hb.height_le depth
    rwa [hb.unmarked_eq, hb.setDepth_eq] at hrestores

theorem conforms_plus : plus.Conforms := by
  simp only [plus, conforms_mk, Head.Fitted, List.forall_mem_cons, List.not_mem_nil,
    Option.mem_def, Option.some.injEq, forall_eq', IsEmpty.forall_iff, implies_true, and_true]
  decide

/-- A composition that was saved with a slot that it does not have, and without those it has. -/
def misfit : Json :=
  .obj [("type", .str "Composition"),
    ("num_values", .arr [.obj [("name", .str "m"), ("value", .int 2)]]),
    ("children", .arr [.obj [("name", .str "g2"), ("block", .obj [("type", .str "Zero")])],
      .obj [("name", .str "h"), ("block", .obj [("type", .str "Successor")])]])]

/-- Addition is saved and loaded, and a composition with other slots than it should have is repaired
once. -/
theorem save_load_round_trip_plus :
    (plus.Conforms ∧ plus.height ≤ loadLimit ∧
      plus.Restores 3 (plus.unmarked.setDepth 3)) ∧
    checkBlock loadLimit [] misfit = .ok [] ∧
      ∃ b desk', (ofJson .standard 0 misfit).outcome {} = (.ok b, desk') ∧
        b.Conforms ∧ b.height ≤ loadLimit ∧ b.Restores 0 b := by
  have hle : plus.height ≤ loadLimit := by decide
  have hcheck : checkBlock loadLimit [] misfit = .ok [] := rfl
  exact ⟨⟨conforms_plus, hle, save_load_round_trip.1 plus 3 conforms_plus hle⟩, hcheck,
    save_load_round_trip.2 misfit 0 {} hcheck⟩

end Block

end BlockCalculus
