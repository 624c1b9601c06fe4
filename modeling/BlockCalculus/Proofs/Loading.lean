import BlockCalculus.Proofs.Grammar
import BlockCalculus.Proofs.Reload

/-!
# Loading accepted documents

The check of a document and its loading are two programs. Loading asks for more than the check in
two places: a saved block has to have a name, its own or the key it is saved under, and the problems
of the root have to be put into words, which fails on integers of too many digits. Nothing else
stands in the way of a document that was accepted.

* `load_steady`: what is loaded is the same at every desk, but for ids.
* `registerAll_cases`: the saved blocks are registered if they all have names.
* `checkWithin_decides`: a check of a tree that is not too deep gets to the end if and only if all
  problems can be put into words (`Tellable`).
* `tellable_propagate`: they can as long as parameters and the number of inputs have fewer digits
  than a text may have. On the way down a number of inputs grows by one for each level at most.
* `accepted_document_loads`: the main result.
-/

namespace BlockCalculus

open Document

/-! ## Loading is steady -/

namespace Slot

theorem lastOccupant?_map_within (f : Block → Block) (name : String) (slots : List Slot) :
    lastOccupant? name (slots.map (within fun _ => f)) = (lastOccupant? name slots).map f := by
  unfold lastOccupant?
  rw [← List.map_reverse, List.find?_map]
  cases hfind : slots.reverse.find? fun s => s.shape.name == name with
  | none => simp [Function.comp_def, hfind]
  | some s => simp [Function.comp_def, hfind]

/-- Occupants can be changed before slots are laid out anew or after. -/
theorem map_within_reconcile (f : Block → Block) (old : List Slot) (layout : List SlotShape) :
    (reconcile old layout).map (within fun _ => f) =
      reconcile (old.map (within fun _ => f)) layout := by
  simp [reconcile, within, lastOccupant?_map_within]

end Slot

namespace Block

theorem anonymous_mk (head : Head) (slots : List Slot) :
    anonymous ⟨head, slots⟩ =
      ⟨{ head with id := "", serial := 0 }, slots.map (Slot.within fun _ => anonymous)⟩ :=
  mapHeads_mk _ head slots

theorem loadSlot_steady {load : Json → Build Block} (h : ∀ block, (load block).Steady anonymous)
    (data : Json) : (loadSlot load data).Steady (Slot.within fun _ => anonymous) := by
  unfold loadSlot
  dsimp only
  split
  · rename_i block _
    intro desk₁ desk₁' desk₂ desk₂' s₁ s₂ h₁ h₂
    obtain ⟨b₁, between₁, hb₁, h₁⟩ := Build.exists_of_bind h₁
    obtain ⟨b₂, between₂, hb₂, h₂⟩ := Build.exists_of_bind h₂
    obtain ⟨rfl, -⟩ : _ = s₁ ∧ between₁ = desk₁' := by simpa using h₁
    obtain ⟨rfl, -⟩ : _ = s₂ ∧ between₂ = desk₂' := by simpa using h₂
    simp [Slot.within, h block hb₁ hb₂]
  · intro desk₁ desk₁' desk₂ desk₂' s₁ s₂ h₁ h₂
    obtain ⟨rfl, -⟩ : _ = s₁ ∧ desk₁ = desk₁' := by simpa using h₁
    obtain ⟨rfl, -⟩ : _ = s₂ ∧ desk₂ = desk₂' := by simpa using h₂
    rfl

/-- **Nothing but ids is taken from the desk.** -/
theorem load_steady (levels : Nat) (depth : Int) (data : Json) :
    (load .standard levels depth data).Steady anonymous := by
  induction levels generalizing depth data with
  | zero =>
    intro desk₁ desk₁' desk₂ desk₂' b₁ b₂ h₁
    simp [load] at h₁
  | succ levels ih =>
    intro desk₁ desk₁' desk₂ desk₂' b₁ b₂ h₁ h₂
    obtain ⟨kind₁, serial₁, stored₁, _, _, hkind₁, hstored₁, rfl⟩ := exists_of_load_succ h₁
    obtain ⟨kind₂, serial₂, stored₂, _, _, hkind₂, hstored₂, rfl⟩ := exists_of_load_succ h₂
    obtain rfl : kind₁ = kind₂ := Option.some.inj (hkind₁.symm.trans hkind₂)
    have hsame : stored₁.map (Slot.within fun _ => anonymous) =
        stored₂.map (Slot.within fun _ => anonymous) :=
      Build.Steady.mapM (fun slot _ => loadSlot_steady (ih (depth + 1)) slot) hstored₁ hstored₂
    rw [anonymous_mk, anonymous_mk, Slot.map_within_reconcile, Slot.map_within_reconcile, hsame]
    rfl

/-! ## Where loaded blocks come from -/

/-- In a serialised block every slot has a name, so that no block is passed over. -/
theorem innerBlocks_eq_filterMap {block : Json} (h : BlockFields block) :
    innerBlocks block =
      (((block.get? "children").bind Json.arr?).getD []).filterMap fun slot =>
        slot.present? "block" := by
  cases hvalue : block.get? "children" with
  | none => simp [innerBlocks, slotBlocks, hvalue]
  | some value =>
    obtain ⟨slots, names, rfl, hnames, -⟩ := h.slots value hvalue
    simp only [innerBlocks, slotBlocks, hvalue, Json.arr?, Option.bind_some, Option.getD_some]
    refine List.filterMap_congr fun slot hslot => ?_
    have hmem : slotName? slot ∈ names.map some := hnames ▸ List.mem_map_of_mem hslot
    obtain ⟨name, -, hname⟩ := List.mem_map.mp hmem
    rw [← hname, Option.bind_some]

theorem mem_innerBlocks {block slot c : Json} (h : BlockFields block)
    (hslot : slot ∈ ((block.get? "children").bind Json.arr?).getD [])
    (hc : slot.present? "block" = some c) : c ∈ innerBlocks block := by
  rw [innerBlocks_eq_filterMap h]
  exact List.mem_filterMap.mpr ⟨slot, hslot, hc⟩

/-- The head was loaded from the serialised block. -/
def IsFrom (block : Json) (h : Head) : Prop :=
  ∃ kind serial depth, (block.getD "type").str?.bind Kind.ofName? = some kind ∧
    h = loadHead kind serial (loadParams (Catalog.entryOf kind) block) depth block

theorem head_of_load {levels : Nat} {depth : Int} {data : Json} {desk desk' : Desk} {b : Block}
    (h : (load .standard levels depth data).outcome desk = (.ok b, desk')) :
    IsFrom data b.head := by
  cases levels with
  | zero => simp [load] at h
  | succ levels =>
    obtain ⟨kind, serial, stored, _, _, hkind, -, rfl⟩ := exists_of_load_succ h
    exact ⟨kind, serial, depth, hkind, rfl⟩

/-- **Every block of a loaded tree was loaded from a block inside.** -/
theorem every_of_load {levels : Nat} {depth : Int} {data : Json} {desk desk' : Desk} {b : Block}
    (hdata : WellFormedBlock data)
    (h : (load .standard levels depth data).outcome desk = (.ok b, desk')) :
    b.Every fun c => ∃ block, Inside data block ∧ IsFrom block c.head := by
  induction levels generalizing depth data desk desk' b with
  | zero => simp [load] at h
  | succ levels ih =>
    have hroot := head_of_load h
    obtain ⟨kind, serial, stored, _, _, -, hstored, rfl⟩ := exists_of_load_succ h
    obtain ⟨fields, hinner⟩ := wellFormedBlock_iff.mp hdata
    refine every_mk.mpr ⟨⟨data, .refl, hroot⟩, fun s hs c hc => ?_⟩
    obtain ⟨t, ht, hct⟩ := Slot.exists_of_mem_reconcile hs hc
    obtain ⟨item, hitem, before, after, hslot⟩ := Build.exists_of_mapM hstored t ht
    obtain ⟨block, hpresent, hblock⟩ := exists_of_loadSlot hslot hct
    have hmem : block ∈ innerBlocks data := mem_innerBlocks fields hitem hpresent
    refine (ih (hinner block hmem) hblock).imp fun d hd => ?_
    obtain ⟨origin, hinside, hfrom⟩ := hd
    exact ⟨origin, .head hmem hinside, hfrom⟩

/-! ## Problems in words -/

/-- Whatever a check finds wrong with a block of the tree can be put into words. -/
def Tellable (c : Catalog) (b : Block) : Prop :=
  b.Every fun d => ∀ p ∈ c.problems d.head, p.isWritable = true

theorem tellable_congr {c : Catalog} {b b' : Block} (h : b.anonymous = b'.anonymous)
    (count : Int) : (b.propagate count).Tellable c ↔ (b'.propagate count).Tellable c := by
  have hcomm (b : Block) : (b.propagate count).anonymous = b.anonymous.propagate count :=
    mapHeads_propagate (fun _ _ => rfl) count b
  have hsame : (b.propagate count).anonymous = (b'.propagate count).anonymous := by
    rw [hcomm, hcomm, h]
  refine every_congr hsame fun d => ?_
  rw [head_mapHeads, (unseen_anonymous c).own]

/-- The fault with which a check ends, given whether all problems can be put into words. -/
def Decides (fault : Option Fault) (tellable : Prop) : Prop :=
  fault = none ∧ tellable ∨ fault = some .unwritable ∧ ¬ tellable

theorem checkSlots_decides {c : Catalog} {levels : Nat} {slots : List Slot}
    (h : ∀ s ∈ slots, ∀ d ∈ s.occupant, Decides (checkWithin c levels d).2 (d.Tellable c)) :
    Decides (checkSlots c levels slots).fault
      (∀ s ∈ slots, ∀ d ∈ s.occupant, d.Tellable c) := by
  induction slots with
  | nil =>
    rw [checkSlots]
    exact .inl ⟨rfl, by simp⟩
  | cons s rest ih =>
    obtain ⟨shape, occupant⟩ := s
    rw [List.forall_mem_cons] at h ⊢
    have hrest := ih h.2
    cases occupant with
    | none =>
      rw [checkSlots]
      simpa [SlotsChecked.after] using hrest
    | some b =>
      have hb := h.1 b rfl
      rw [checkSlots]
      generalize checkWithin c levels b = result at hb
      obtain ⟨b', fault⟩ := result
      rcases hb with ⟨rfl, htellable⟩ | ⟨rfl, htellable⟩
      · simpa [SlotsChecked.after, htellable] using hrest
      · exact .inr ⟨rfl, by simp [htellable]⟩

/-- **A check gets to the end of a tree if and only if all problems can be put into words**, if the
tree is not too deep. -/
theorem checkWithin_decides {c : Catalog} {b : Block} {levels : Nat} (hle : b.height ≤ levels) :
    Decides (checkWithin c levels b).2 (b.Tellable c) := by
  induction b using Block.induction generalizing levels with
  | mk head slots ih =>
    rw [height] at hle
    obtain ⟨levels, rfl⟩ : ∃ n, levels = n + 1 := Nat.exists_eq_add_of_le' (by omega)
    have hslots := checkSlots_decides (c := c) fun s hs d hd =>
      ih s hs d hd (heightAll_le_iff.mp (Nat.le_of_succ_le_succ hle) s hs d hd)
    rw [checkWithin, Tellable, every_mk]
    rcases hslots with ⟨hfault, hin⟩ | ⟨hfault, hin⟩
    · simp only [hfault]
      split
      · rename_i hown
        exact .inl ⟨rfl, List.all_eq_true.mp hown, hin⟩
      · rename_i hown
        exact .inr ⟨rfl, fun hall => hown (List.all_eq_true.mpr hall.1)⟩
    · simp only [hfault]
      exact .inr ⟨rfl, fun hall => hin hall.2⟩

theorem checked_cases {c : Catalog} {b : Block} (hle : b.height ≤ nestingLimit) :
    (∃ root, b.checked c = .ok root) ∧ b.Tellable c ∨
      b.checked c = .error .unwritable ∧ ¬ b.Tellable c := by
  have hcheck := checkWithin_decides (c := c) hle
  unfold checked check
  generalize checkWithin c nestingLimit b = result at hcheck ⊢
  obtain ⟨root, fault⟩ := result
  rcases hcheck with ⟨rfl, htellable⟩ | ⟨rfl, htellable⟩
  · exact .inl ⟨⟨root, rfl⟩, htellable⟩
  · exact .inr ⟨rfl, htellable⟩

end Block

/-! ## Short numbers -/

/-- The integer has fewer digits than a text may have. -/
def Text.IsShort (n : Int) : Prop :=
  n.natAbs < Nat.pow 10 (digitLimit - 1)

theorem Text.pow_ten_le {m k : Nat} (h : m ≤ k) : Nat.pow 10 m ≤ Nat.pow 10 k :=
  Nat.pow_le_pow_right (by decide) h

/-- An integer that is short but for as many steps as there can be levels can be written. -/
theorem Text.isWritable_of_lt {n : Int}
    (h : n.natAbs < Nat.pow 10 (digitLimit - 1) + nestingLimit) : isWritable n = true := by
  obtain ⟨k, hk, hthree⟩ : ∃ k, digitLimit = k + 1 ∧ 3 ≤ k := ⟨4299, rfl, by decide⟩
  have hlevels : nestingLimit ≤ Nat.pow 10 k :=
    Nat.le_trans (by decide : nestingLimit ≤ Nat.pow 10 3) (pow_ten_le hthree)
  have hsucc : Nat.pow 10 (k + 1) = Nat.pow 10 k * 10 := rfl
  rw [hk, Nat.add_sub_cancel] at h
  rw [isWritable, hk, hsucc, decide_eq_true_eq]
  omega

theorem Text.IsShort.isWritable {n : Int} (h : IsShort n) : isWritable n = true :=
  isWritable_of_lt (Nat.lt_add_right _ h)

theorem Text.isShort_of_lt {n : Int} (h : n.natAbs < 1000) : IsShort n :=
  Nat.lt_of_lt_of_le h (pow_ten_le (by decide : 3 ≤ digitLimit - 1))

/-- The parameters have short values. -/
def Head.ShortParams (h : Head) : Prop :=
  ∀ name v, Param.value? name h.params = some v → Text.IsShort v

/-- Nothing but the number of inputs and the parameters is told of a block. -/
theorem Head.isWritable_problems {h : Head} (hcount : Text.isWritable h.inputCount = true)
    (hparams : h.ShortParams) : ∀ p ∈ Catalog.standard.problems h, p.isWritable = true := by
  rw [Block.catalog_problems_standard]
  unfold Kind.problems
  cases h.kind with
  | successor =>
    dsimp only
    split <;> simp [Problem.isWritable, hcount]
  | projection =>
    dsimp only
    split
    · simp [Problem.isWritable]
    · split
      · simp [Problem.isWritable]
      · rename_i i hi
        have hshort := (hparams _ _ hi).isWritable
        split <;> simp [Problem.isWritable, hcount, hshort]
  | composition =>
    dsimp only
    split
    · simp [Problem.isWritable]
    · rename_i m hm
      have hshort := (hparams _ _ hm).isWritable
      split <;> simp [Problem.isWritable, hshort]
  | primitiveRecursion =>
    dsimp only
    split <;> simp [Problem.isWritable]
  | zero | minimization | custom => simp

/-- A slot asks for one input more or less than the block around has, or for a short number. -/
theorem Head.natAbs_inputs {h : Head} (hparams : h.ShortParams) {shape : SlotShape}
    (hshape : shape ∈ h.layout) (outer : Int) :
    (shape.inputs outer).natAbs ≤ outer.natAbs + 1 ∨ Text.IsShort (shape.inputs outer) := by
  unfold layout Entry.layout at hshape
  split at hshape
  · rcases List.mem_cons.mp hshape with rfl | hpart
    · refine .inr ?_
      have hsize : Text.IsShort ((Param.value? "m" h.params).getD 1) := by
        cases hm : Param.value? "m" h.params with
        | none => exact Text.isShort_of_lt (by decide)
        | some m => exact hparams _ _ hm
      have hmax (m : Int) : (max m 0).natAbs ≤ m.natAbs := by omega
      exact Nat.lt_of_le_of_lt (hmax _) hsize
    · obtain ⟨i, -, rfl⟩ := List.mem_map.mp hpart
      exact .inl (Nat.le_succ _)
  · refine .inl ?_
    have hshift : shape.exact = none ∧ ∀ d ∈ shape.shift, d.natAbs ≤ 1 := by
      revert hshape
      cases h.kind <;> revert shape <;> decide
    unfold SlotShape.inputs
    rw [hshift.1]
    cases hd : shape.shift with
    | none => exact Nat.le_succ _
    | some d =>
      have := hshift.2 d hd
      dsimp only
      omega

namespace Block

/-- **The problems of a tree with short parameters can be put into words**, for a short number of
inputs. The induction is on the tree, and the number of inputs and the levels left are bounded
together. -/
theorem tellable_propagate {b : Block} (hb : b.Conforms)
    (hshort : b.Every fun c => c.head.ShortParams) {levels : Nat} (hle : b.height ≤ levels)
    (hlevels : levels ≤ nestingLimit) {count : Int}
    (hcount : count.natAbs + levels < Nat.pow 10 (Text.digitLimit - 1) + nestingLimit) :
    (b.propagate count).Tellable .standard := by
  induction b using Block.induction generalizing levels count with
  | mk head slots ih =>
    obtain ⟨⟨-, hshapes⟩, hin⟩ := conforms_mk.mp hb
    obtain ⟨hparams, hshorts⟩ := every_mk.mp hshort
    rw [height] at hle
    obtain ⟨levels, rfl⟩ : ∃ n, levels = n + 1 := Nat.exists_eq_add_of_le' (by omega)
    rw [propagate_mk, Tellable, every_mk, List.forall_mem_map]
    constructor
    · exact Head.isWritable_problems (Text.isWritable_of_lt (by dsimp only; omega)) hparams
    · intro s hs
      rw [Slot.forall_occupant_within]
      intro c hc
      have hshape : s.shape ∈ head.layout := hshapes ▸ List.mem_map_of_mem hs
      have hnext : (s.shape.inputs count).natAbs + levels <
          Nat.pow 10 (Text.digitLimit - 1) + nestingLimit := by
        rcases Head.natAbs_inputs hparams hshape count with hstep | hsmall
        · omega
        · unfold Text.IsShort at hsmall
          omega
      exact ih s hs c hc (hin s hs c hc) (hshorts s hs c hc)
        (heightAll_le_iff.mp (Nat.le_of_succ_le_succ hle) s hs c hc) (by omega) hnext

theorem default_entryOf {kind : Kind} {spec : ParamSpec}
    (h : spec ∈ (Catalog.entryOf kind).params) : spec.default = 1 := by
  revert spec
  cases kind <;> decide

theorem shortParams_of_isFrom {block : Json} {h : Head} (hfrom : IsFrom block h)
    (hshort : ∀ name v, storedParam? name block = some v → Text.IsShort v) : h.ShortParams := by
  obtain ⟨kind, serial, depth, -, rfl⟩ := hfrom
  intro name v hv
  obtain ⟨p, hp, rfl⟩ := Option.map_eq_some_iff.mp hv
  obtain ⟨spec, hspec, rfl⟩ := List.mem_map.mp (List.mem_of_find?_eq_some hp)
  dsimp only
  cases hstored : storedParam? spec.name block with
  | none =>
    rw [Option.getD_none, default_entryOf hspec]
    exact Text.isShort_of_lt (by decide)
  | some v => exact hshort _ _ hstored

end Block

/-! ## What was accepted -/

namespace Document

/-- A block that passes the check is of the grammar. -/
theorem wellFormed_of_checkBlock {levels : Nat} {path : DocPath} {block : Json}
    (h : checkBlock levels path block = .ok []) : WellFormedBlock block :=
  ((checkBlock_reports (Block.nestsWithin_of_checkBlock h) path).eq_ok_nil_iff.mp h).2

theorem checked_of_checkSaved {saved : Json.Members} (h : checkSaved saved = .ok []) :
    ∀ e ∈ saved, checkBlock nestingLimit [] e.2 = .ok [] ∧
      e.2.get? "type" = some (.str Kind.custom.name) := by
  induction saved with
  | nil => simp
  | cons e rest ih =>
    obtain ⟨name, block⟩ := e
    rw [checkSaved] at h
    obtain ⟨found, hfound, h⟩ := exists_of_bind_eq_ok h
    obtain ⟨others, hothers, h⟩ := exists_of_bind_eq_ok h
    obtain ⟨hnone, rfl⟩ := List.append_eq_nil_iff.mp (Except.ok.inj h)
    obtain ⟨rfl, hforeign⟩ := List.append_eq_nil_iff.mp hnone
    have hkind : (block.getD "type").str? = some customName := by simpa using hforeign
    refine List.forall_mem_cons.mpr ⟨⟨Block.checkBlock_of_le (Nat.le_refl _) hfound _, ?_⟩,
      ih hothers⟩
    exact (Json.getD_eq Json.noConfusion).mp (Json.str?_eq_some.mp hkind)

/-- What is known of a document that was accepted. -/
structure Accepted (doc : Json) : Prop where
  object : ∃ members, doc = .obj members
  root : ∀ data ∈ doc.present? "rootBlock", checkBlock nestingLimit [] data = .ok []
  saved : ∀ e ∈ savedBlocks doc, checkBlock nestingLimit [] e.2 = .ok [] ∧
    e.2.get? "type" = some (.str Kind.custom.name)

theorem check_of_validate {doc : Json} {verdict : Verdict} (h : validate doc = .ok verdict)
    (hvalid : verdict.valid = true) : check doc = .ok [] := by
  unfold validate at h
  obtain ⟨findings, hcheck, -⟩ := exists_of_bind_eq_ok h
  obtain ⟨verdict', h', hnone, -⟩ := validate_of_check hcheck
  obtain rfl : verdict' = verdict := Except.ok.inj (h'.symm.trans h)
  rw [hcheck, hnone.mp hvalid]

theorem accepted_of_check {doc : Json} (h : check doc = .ok []) : Accepted doc := by
  unfold check at h
  split at h
  · simp at h
  · rename_i members hobj
    obtain ⟨root, hroot, h⟩ := exists_of_bind_eq_ok h
    obtain ⟨customs, hcustoms, h⟩ := exists_of_bind_eq_ok h
    obtain ⟨hnone, rfl⟩ := List.append_eq_nil_iff.mp (Except.ok.inj h)
    obtain ⟨-, rfl⟩ := List.append_eq_nil_iff.mp hnone
    refine ⟨⟨members, Json.obj?_eq_some.mp hobj⟩, fun data hdata => ?_, ?_⟩
    · unfold checkRoot at hroot
      rw [Option.mem_def.mp hdata] at hroot
      exact Block.checkBlock_of_le (Nat.le_refl _) hroot _
    · unfold savedBlocks
      unfold checkCustoms at hcustoms
      cases hvalue : doc.get? "customBlocks" with
      | none => simp
      | some value =>
        simp only [hvalue] at hcustoms
        split at hcustoms
        · simp at hcustoms
        · rename_i saved hsaved
          simpa [hsaved] using checked_of_checkSaved hcustoms

/-- With so few levels as can be loaded, the check of a block comes to the same. -/
theorem checkBlock_loadLimit {block : Json} (hcheck : checkBlock nestingLimit [] block = .ok [])
    (hnest : NestsWithin loadLimit block) : checkBlock loadLimit [] block = .ok [] := by
  have hboth := (checkBlock_reports (hnest.mono loadLimit_le) []).eq_ok_nil_iff.mp hcheck
  exact (checkBlock_reports hnest []).eq_ok_nil_iff.mpr hboth

/-- A saved block has a name: its own, or the key that it is saved under. -/
def HasName (e : String × Json) : Prop :=
  e.1 ≠ "" ∨ ∃ own, e.2.get? "name" = some (.str own) ∧ own ≠ ""

end Document

namespace Library

/-! ## Registering saved blocks -/

theorem named_spec (name : String) (b : Block) :
    (named name b).head.kind = b.head.kind ∧ ∃ key, (named name b).head.name = some key ∧
      (key ≠ "" ↔ name ≠ "" ∨ ∃ own, b.head.name = some own ∧ own ≠ "") := by
  unfold named
  split
  · rename_i hname
    exact ⟨rfl, name, rfl, by simp [hname]⟩
  · rename_i hname
    exact ⟨rfl, name, rfl, by simp [hname]⟩
  · rename_i own hown hname
    have hne : own ≠ "" := fun h => hown (h ▸ rfl)
    exact ⟨rfl, own, hname, iff_of_true hne (.inr ⟨own, hname, hne⟩)⟩

theorem register_unnamed {b : Block} (hkind : b.head.kind = .custom)
    (hname : b.head.name = some "") (lib : Library) : lib.register b = .error .unnamed := by
  unfold register
  rw [if_neg (not_not_intro hkind), hname]
  rfl

/-- A saved block that passes the check is registered if it has a name. -/
theorem registerData_cases {lib : Library} (hlib : lib.catalog = .standard) {e : String × Json}
    (hcheck : checkBlock loadLimit [] e.2 = .ok [])
    (hcustom : e.2.get? "type" = some (.str Kind.custom.name)) (desk : Desk) :
    (∃ lib' desk', (lib.registerData e.1 e.2).outcome desk = (.ok lib', desk') ∧
        lib'.catalog = .standard) ∧ HasName e ∨
      (∃ desk', (lib.registerData e.1 e.2).outcome desk = (.error .unnamed, desk')) ∧
        ¬ HasName e := by
  obtain ⟨name, data⟩ := e
  obtain ⟨b, desk', hload⟩ := Block.load_succeeds hcheck 0 desk
  obtain ⟨kind, serial, depth, hkind, hhead⟩ := Block.head_of_load hload
  have hkind : b.head.kind = .custom := by
    rw [(Json.getD_eq Json.noConfusion).mpr hcustom, Json.str?, Option.bind_some,
      Kind.ofName?_name] at hkind
    rw [hhead, ← Option.some.inj hkind]
    rfl
  have hname (own : String) :
      b.head.name = some own ↔ data.get? "name" = some (.str own) := by
    rw [hhead, ← Json.getD_eq Json.noConfusion, ← Json.str?_eq_some]
    rfl
  have hregister : (lib.registerData name data).outcome desk =
      (lib.register (named name b), desk') := by
    unfold registerData
    rw [hlib, Build.outcome_bind_of_ok ((Block.outcome_ofJson hcheck 0 desk).trans hload),
      Build.outcome_ofExcept]
  obtain ⟨hsame, key, hkey, hne⟩ := named_spec name b
  simp only [hname] at hne
  rw [hregister]
  by_cases hnamed : HasName (name, data)
  · have hheight := (loaded_named (Block.loaded_of_load hload) name).height_le
    rw [register_eq (hsame.trans hkind) hkey (hne.mpr hnamed) (Nat.le_trans hheight loadLimit_le)]
    exact .inl ⟨⟨_, desk', rfl, hlib⟩, hnamed⟩
  · obtain rfl : key = "" := not_not.mp (mt hne.mp hnamed)
    rw [register_unnamed (hsame.trans hkind) hkey]
    exact .inr ⟨⟨desk', rfl⟩, hnamed⟩

/-- **Saved blocks that pass the check are registered if they all have names.** -/
theorem registerAll_cases {lib : Library} (hlib : lib.catalog = .standard) {saved : Json.Members}
    (hsaved : ∀ e ∈ saved, checkBlock loadLimit [] e.2 = .ok [] ∧
      e.2.get? "type" = some (.str Kind.custom.name)) (desk : Desk) :
    (∃ lib' desk', (registerAll saved lib).outcome desk = (.ok lib', desk')) ∧
        (∀ e ∈ saved, HasName e) ∨
      (∃ desk', (registerAll saved lib).outcome desk = (.error .unnamed, desk')) ∧
        ¬ ∀ e ∈ saved, HasName e := by
  induction saved generalizing lib desk with
  | nil => exact .inl ⟨⟨lib, desk, rfl⟩, by simp⟩
  | cons e rest ih =>
    rw [List.forall_mem_cons] at hsaved
    rw [registerAll, List.forall_mem_cons]
    rcases registerData_cases hlib hsaved.1.1 hsaved.1.2 desk with
      ⟨⟨lib', desk', hfirst, hlib'⟩, hname⟩ | ⟨⟨desk', hfirst⟩, hname⟩
    · rw [Build.outcome_bind_of_ok hfirst]
      simpa [hname] using ih hlib' hsaved.2 desk'
    · refine .inr ⟨⟨desk', ?_⟩, fun hall => hname hall.1⟩
      rw [Build.outcome_bind, hfirst]

end Library

namespace EditorState

/-! ## Documents -/

/-- The number of inputs that a document gives its root. -/
def inputsOf (doc : Json) : Int :=
  max 0 (((doc.getD "inputCount").int?).getD 0)

/-- What is wrong with the root of a document, once it is loaded and has its number of inputs, can
be put into words. -/
def RootTellable (doc : Json) : Prop :=
  ∀ data ∈ doc.present? "rootBlock", ∀ {b : Block} {desk desk' : Desk},
    (Block.load .standard loadLimit 0 data).outcome desk = (.ok b, desk') →
      (b.propagate (inputsOf doc)).Tellable .standard

/-- The number of inputs and the parameters inside the root are short. -/
structure ShortNumbers (doc : Json) : Prop where
  inputCount : ∀ n, doc.get? "inputCount" = some (.int n) → Text.IsShort n
  params : ∀ data ∈ doc.present? "rootBlock", ∀ block, Inside data block →
    ∀ name v, Block.storedParam? name block = some v → Text.IsShort v

theorem isShort_inputsOf {doc : Json} (h : ShortNumbers doc) : Text.IsShort (inputsOf doc) := by
  unfold inputsOf
  cases hcount : (doc.getD "inputCount").int? with
  | none => exact Text.isShort_of_lt (by decide)
  | some n =>
    have hget := (Json.getD_eq Json.noConfusion).mp (Json.int?_eq_some.mp hcount)
    have hmax : (max 0 n).natAbs ≤ n.natAbs := by omega
    exact Nat.lt_of_le_of_lt hmax (h.inputCount n hget)

theorem rootTellable_of_short {doc : Json} (hdoc : Accepted doc) (h : ShortNumbers doc) :
    RootTellable doc := by
  intro data hdata b desk desk' hload
  have hb := Block.loaded_of_load hload
  have hwell := wellFormed_of_checkBlock (hdoc.root data hdata)
  have hshort : b.Every fun c => c.head.ShortParams := by
    refine (Block.every_of_load hwell hload).imp fun c hc => ?_
    obtain ⟨block, hinside, hfrom⟩ := hc
    exact Block.shortParams_of_isFrom hfrom (h.params data hdata block hinside)
  exact Block.tellable_propagate hb.conforms hshort (Nat.le_trans hb.height_le loadLimit_le)
    (Nat.le_refl _) (Nat.add_lt_add_right (isShort_inputsOf h) _)

section Accepted

variable {doc : Json} (hdoc : Accepted doc)
  (hnest : ∀ block ∈ topBlocks doc, NestsWithin loadLimit block)

include hdoc hnest

/-- The saved blocks of an accepted document are registered if they all have names. -/
theorem registerSaved_cases (desk : Desk) :
    let registered :=
      (Library.registerAll (savedBlocks doc) { catalog := .standard }).outcome desk
    (∃ library desk', registered = (.ok library, desk')) ∧ (∀ e ∈ savedBlocks doc, HasName e) ∨
      (∃ desk', registered = (.error .unnamed, desk')) ∧ ¬ ∀ e ∈ savedBlocks doc, HasName e :=
  Library.registerAll_cases rfl (fun e he => ⟨checkBlock_loadLimit (hdoc.saved e he).1
    (hnest _ (List.mem_append_right _ (List.mem_map_of_mem he))), (hdoc.saved e he).2⟩) desk

theorem ofSound_unnamed (hnames : ¬ ∀ e ∈ savedBlocks doc, HasName e) (desk : Desk) :
    ∃ desk', (ofSound .standard doc).outcome desk = (.error .unnamed, desk') := by
  rcases registerSaved_cases hdoc hnest desk with ⟨-, hall⟩ | ⟨⟨desk', hlibrary⟩, -⟩
  · exact absurd hall hnames
  · unfold savedBlocks at hlibrary
    refine ⟨desk', ?_⟩
    rw [outcome_ofSound, hlibrary]

/-- Once the saved blocks have names, it is the root that decides. -/
theorem ofSound_cases (hnames : ∀ e ∈ savedBlocks doc, HasName e) (desk : Desk) :
    (∃ s desk', (ofSound .standard doc).outcome desk = (.ok s, desk')) ∧ RootTellable doc ∨
      (∃ desk', (ofSound .standard doc).outcome desk = (.error .unwritable, desk')) ∧
        ¬ RootTellable doc := by
  rcases registerSaved_cases hdoc hnest desk with ⟨⟨library, between, hlibrary⟩, -⟩ | ⟨-, hnot⟩
  · unfold savedBlocks at hlibrary
    rw [outcome_ofSound, hlibrary]
    cases hroot : doc.present? "rootBlock" with
    | none => exact .inl ⟨⟨_, _, rfl⟩, by simp [RootTellable, hroot]⟩
    | some data =>
      have hcheck := checkBlock_loadLimit (hdoc.root data hroot)
        (hnest data (List.mem_append_left _ (Option.mem_toList.mpr hroot)))
      obtain ⟨b, desk', hload⟩ := Block.load_succeeds hcheck 0 between
      have hheight : (b.propagate (inputsOf doc)).height ≤ nestingLimit := by
        rw [Block.height_congr (Block.mapHeads_propagate_eq
          (f := fun h => { h with inputCount := 0 }) (fun _ _ => rfl) _ b)]
        exact Nat.le_trans (Block.loaded_of_load hload).height_le loadLimit_le
      -- another desk would give the root other ids, which are not told
      have htellable : RootTellable doc ↔ (b.propagate (inputsOf doc)).Tellable .standard := by
        constructor
        · exact fun h => h data hroot hload
        · intro h data' hdata' b' desk₁ desk₁' hload'
          obtain rfl : data = data' := Option.some.inj (hroot.symm.trans hdata')
          exact (Block.tellable_congr (Block.load_steady _ _ _ hload' hload) _).mpr h
      have hchecked := Block.checked_cases (c := .standard) hheight
      unfold inputsOf at hchecked
      dsimp only
      rw [hload, htellable]
      dsimp only
      rcases hchecked with ⟨⟨root, hchecked⟩, htell⟩ | ⟨hchecked, htell⟩
      · rw [hchecked]
        exact .inl ⟨⟨_, desk', rfl⟩, htell⟩
      · rw [hchecked]
        exact .inr ⟨⟨desk', rfl⟩, htell⟩
  · exact absurd hnames hnot

end Accepted

/-- A document that passes the check is set up. -/
theorem outcome_load_of_check {doc : Json} (h : check doc = .ok []) (files : Files) (desk : Desk) :
    (load files .standard (.value doc)).outcome desk =
      (((ofSound .standard doc).outcome desk).1.map .ok,
        ((ofSound .standard doc).outcome desk).2) := by
  have hread : readSource files (.value doc) = .ok (.ok doc) := by
    obtain ⟨members, rfl⟩ := (accepted_of_check h).object
    rfl
  rw [outcome_load, hread]
  dsimp only
  rw [h]

/-- **What loading an accepted document comes to**, if it does not nest deeper than can be loaded.
It comes to a state if and only if all saved blocks have names and what is wrong with the root can
be put into words, which is so if the numbers in the document have fewer digits than a text may
have. Otherwise loading fails for that reason. -/
theorem accepted_document_loads {doc : Json} {verdict : Verdict}
    (h : validate doc = .ok verdict) (hvalid : verdict.valid = true)
    (hnest : ∀ block ∈ topBlocks doc, NestsWithin loadLimit block) (files : Files) (desk : Desk) :
    let loaded := (load files .standard (.value doc)).outcome desk
    ((∃ s desk', loaded = (.ok (.ok s), desk')) ↔
      (∀ e ∈ savedBlocks doc, HasName e) ∧ RootTellable doc) ∧
    ((¬ ∀ e ∈ savedBlocks doc, HasName e) → ∃ desk', loaded = (.error .unnamed, desk')) ∧
    ((∀ e ∈ savedBlocks doc, HasName e) → ¬ RootTellable doc →
      ∃ desk', loaded = (.error .unwritable, desk')) ∧
    (ShortNumbers doc → RootTellable doc) := by
  intro loaded
  have hcheck := check_of_validate h hvalid
  have hdoc := accepted_of_check hcheck
  have hloaded : loaded = _ := outcome_load_of_check hcheck files desk
  rw [hloaded]
  by_cases hnames : ∀ e ∈ savedBlocks doc, HasName e
  · rcases ofSound_cases hdoc hnest hnames desk with ⟨⟨s, desk', hs⟩, htell⟩ | ⟨⟨desk', hs⟩, htell⟩
    · rw [hs]
      exact ⟨iff_of_true ⟨s, desk', rfl⟩ ⟨hnames, htell⟩, absurd hnames,
        fun _ hnot => absurd htell hnot, fun _ => htell⟩
    · rw [hs]
      exact ⟨iff_of_false (by simp [Except.map]) fun hboth => htell hboth.2, absurd hnames,
        fun _ _ => ⟨desk', rfl⟩, rootTellable_of_short hdoc⟩
  · obtain ⟨desk', hs⟩ := ofSound_unnamed hdoc hnest hnames desk
    rw [hs]
    exact ⟨iff_of_false (by simp [Except.map]) fun hboth => hnames hboth.1, fun _ => ⟨desk', rfl⟩,
      fun hall => absurd hall hnames, rootTellable_of_short hdoc⟩

theorem shortNumbers_worn : ShortNumbers worn := by
  have hroot : worn.present? "rootBlock" = some Block.misfit := rfl
  have hinner : innerBlocks Block.misfit =
      [.obj [("type", .str "Zero")], .obj [("type", .str "Successor")]] := rfl
  refine ⟨?_, ?_⟩
  · rintro n ⟨⟩
    exact Text.isShort_of_lt (by decide)
  · rw [hroot]
    rintro data ⟨⟩
    have hflat (kind : String) : ∀ c, Inside (.obj [("type", .str kind)]) c →
        ∀ name v, Block.storedParam? name c = some v → Text.IsShort v :=
      forall_inside_of_flat rfl (fun name v hv => by cases hv)
    rw [forall_inside_iff, hinner]
    refine ⟨fun name v hv => ?_, ?_⟩
    · obtain ⟨entry, hfind, hvalue⟩ := Option.bind_eq_some_iff.mp hv
      obtain rfl : entry = .obj [("name", .str "m"), ("value", .int 2)] :=
        List.mem_singleton.mp (List.mem_of_find?_eq_some hfind)
      obtain rfl : 2 = v := Option.some.inj hvalue
      exact Text.isShort_of_lt (by decide)
    · simp only [List.forall_mem_cons, List.not_mem_nil, IsEmpty.forall_iff, implies_true, and_true]
      exact ⟨hflat _, hflat _⟩

/-- A document whose only saved block has no name. -/
def nameless : Json :=
  .obj [("fileType", .str documentMark), ("inputs", .arr []), ("inputCount", .int 0),
    ("customBlocks", .obj [("", .obj [("type", .str "Custom"), ("name", .null)])])]

/-- A recursion in which a successor takes the place of a function of one input more than `n`. -/
def vast (n : Nat) : Json :=
  .obj [("fileType", .str documentMark), ("inputs", .arr []), ("inputCount", .int n),
    ("rootBlock", .obj [("type", .str "Primitive Recursion"),
      ("children", .arr [.obj [("name", .str "Recursive Case"),
        ("block", .obj [("type", .str "Successor")])]])])]

/-- That the successor has a wrong number of inputs is told with the number, which has too many
digits if `n` has all that it may have. -/
theorem not_rootTellable_vast {n : Nat} (hn : Nat.pow 10 Text.digitLimit = n + 1) :
    ¬ RootTellable (vast n) := by
  intro h
  have hten : 10 ≤ n + 1 := hn ▸ Text.pow_ten_le (by decide : 1 ≤ Text.digitLimit)
  obtain ⟨root, inner, desk', hload, hkind⟩ : ∃ (root inner : Head) (desk' : Desk),
      (Block.load .standard loadLimit 0 (.obj [("type", .str "Primitive Recursion"),
        ("children", .arr [.obj [("name", .str "Recursive Case"),
          ("block", .obj [("type", .str "Successor")])]])])).outcome {} =
        (.ok ⟨root, [⟨Catalog.baseCase, none⟩, ⟨Catalog.recursiveCase, some ⟨inner, []⟩⟩]⟩, desk') ∧
      inner.kind = .successor := ⟨_, _, _, rfl, rfl⟩
  have htell := h _ rfl hload
  have hcount : inputsOf (vast n) = n := Int.max_eq_right (Int.natCast_nonneg n)
  rw [hcount, Block.propagate_mk, Block.Tellable, Block.every_mk] at htell
  have hinner := (htell.2 ⟨Catalog.recursiveCase, some (Block.propagate (n + 1) ⟨inner, []⟩)⟩
    (by simp [Slot.within, SlotShape.inputs, Catalog.recursiveCase]) _ rfl).root
  have hne : (n : Int) + 1 ≠ 1 := by omega
  rw [Block.head_propagate, Block.catalog_problems_standard] at hinner
  have hwritable : Text.isWritable (n + 1) = true := by
    simpa [hkind, Kind.problems, hne, Problem.isWritable] using hinner
  rw [Text.isWritable, hn, decide_eq_true_eq] at hwritable
  omega

/-- A worn document loads, one with a nameless block does not, and one whose number of inputs has
all the digits that it may have does not either. -/
theorem accepted_document_loads_worn :
    let files : Files := fun _ => .error .notFound
    (∃ s desk', (load files .standard (.value worn)).outcome {} = (.ok (.ok s), desk')) ∧
    (∃ desk', (load files .standard (.value nameless)).outcome {} = (.error .unnamed, desk')) ∧
    ∃ n desk', Nat.pow 10 Text.digitLimit = n + 1 ∧
      (load files .standard (.value (vast n))).outcome {} = (.error .unwritable, desk') := by
  intro files
  have hworn : validate worn = .ok .accepted := rfl
  have hnameless : validate nameless = .ok .accepted := rfl
  have hvast (n : Nat) : validate (vast n) = .ok .accepted := rfl
  have hnest {block : Json} (h : checkBlock loadLimit [] block = .ok []) :
      NestsWithin loadLimit block := Block.nestsWithin_of_checkBlock h
  refine ⟨?_, ?_, ?_⟩
  · have htop : ∀ block ∈ topBlocks worn, NestsWithin loadLimit block :=
      List.forall_mem_cons.mpr ⟨hnest rfl, List.forall_mem_cons.mpr ⟨hnest rfl,
        List.forall_mem_singleton.mpr (hnest rfl)⟩⟩
    have hloads := accepted_document_loads hworn rfl htop files {}
    have hnames : savedBlocks worn = [("key", .obj [("type", .str "Custom"), ("name", .str "own")]),
        ("plain", .obj [("type", .str "Custom")])] := rfl
    refine hloads.1.mpr ⟨?_, hloads.2.2.2 shortNumbers_worn⟩
    simp [hnames, HasName]
  · have htop : ∀ block ∈ topBlocks nameless, NestsWithin loadLimit block :=
      List.forall_mem_singleton.mpr (hnest rfl)
    refine (accepted_document_loads hnameless rfl htop files {}).2.1 fun hall => ?_
    have hname := hall ("", .obj [("type", .str "Custom"), ("name", .null)]) (.head _)
    simp [HasName, Json.get?, Json.Members.get?] at hname
  · obtain ⟨n, hn⟩ := Text.exists_pow_digitLimit
    have htop : ∀ block ∈ topBlocks (vast n), NestsWithin loadLimit block :=
      List.forall_mem_singleton.mpr (hnest rfl)
    obtain ⟨desk', hfails⟩ := (accepted_document_loads (hvast n) rfl htop files {}).2.2.1
      (fun _ hsaved => absurd hsaved List.not_mem_nil) (not_rootTellable_vast hn)
    exact ⟨n, desk', hn, hfails⟩

end EditorState

end BlockCalculus
