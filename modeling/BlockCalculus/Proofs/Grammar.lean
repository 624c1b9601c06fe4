import BlockCalculus.Document.Check
import Mathlib.Data.List.Nodup
import Mathlib.Logic.Relation

/-!
# The grammar of documents

`WellFormed` says what an editor document is, and `WellFormedBlock` what a serialised block is,
field by field and without a word on checks: which members have to be there, which may be absent,
which may be `null`. The check goes through a document, collects findings, and goes on after each of
them; it accepts exactly the documents of the grammar.

A check ends early only on a kind that is an array or an object, and then nothing is reported.
`Plain` says that this does not happen: it looks at the blocks that the check comes upon, which are
those that stand at the top of the document and, from there on, in the slots of blocks (`Inside`).

* `Reports`: what a check comes to, given when it is to end early and when it is to find nothing.
  Checks that are made one after the other report together (`Reports.bind`).
* `checkBlock_reports`, `check_reports`: blocks and documents. The induction is on the levels left,
  which are enough for a value whose blocks do not nest deeper (`NestsWithin`).
* `validation_reports`: a verdict is passed on every document, or a kind is at fault.
* `validation_accepts_grammar`: the documents accepted are those of the grammar.
-/

namespace BlockCalculus

/-! ## Views of values -/

namespace Json

theorem str?_eq_some {v : Json} {s : String} : v.str? = some s ↔ v = .str s := by
  cases v <;> simp [str?]

theorem int?_eq_some {v : Json} {n : Int} : v.int? = some n ↔ v = .int n := by
  cases v <;> simp [int?]

theorem arr?_eq_some {v : Json} {items : List Json} : v.arr? = some items ↔ v = .arr items := by
  cases v <;> simp [arr?]

theorem obj?_eq_some {v : Json} {members : Members} :
    v.obj? = some members ↔ v = .obj members := by
  cases v <;> simp [obj?]

/-- What is not an object has no members. -/
theorem get?_of_obj?_eq_none {v : Json} (h : v.obj? = none) (key : String) :
    v.get? key = none := by
  cases v with
  | obj members => cases h
  | _ => rfl

theorem isSome_str? {v : Json} : v.str?.isSome = true ↔ ∃ s, v = .str s := by
  simp [Option.isSome_iff_exists, str?_eq_some]

theorem isSome_int? {v : Json} : v.int?.isSome = true ↔ ∃ n, v = .int n := by
  simp [Option.isSome_iff_exists, int?_eq_some]

/-- A member that is not `null` is read as it is stored. -/
theorem getD_eq {j v : Json} (hv : v ≠ .null) {key : String} :
    j.getD key = v ↔ j.get? key = some v := by
  unfold getD
  cases j.get? key with
  | none => simpa using Ne.symm hv
  | some w => simp

theorem present?_eq_some {j v : Json} {key : String} :
    j.present? key = some v ↔ j.get? key = some v ∧ v ≠ .null := by
  unfold present?
  split
  · simp_all
  · rename_i h
    simp only [h, reduceCtorEq, Option.some.injEq, false_iff, not_and, not_not]
    exact Eq.symm
  · rename_i w hw h
    simp only [h, Option.some.injEq]
    exact ⟨fun hwv => ⟨hwv, fun hv => hw (hwv.trans hv)⟩, And.left⟩

theorem present?_eq_none {j : Json} {key : String} :
    j.present? key = none ↔ ∀ v, j.get? key = some v → v = .null := by
  simp only [Option.eq_none_iff_forall_ne_some, ne_eq, present?_eq_some, not_and, not_not]

end Json

theorem Kind.ofName?_eq_some {s : String} {k : Kind} : ofName? s = some k ↔ s = k.name := by
  constructor
  · intro h
    have hname := List.find?_some (p := fun k : Kind => k.name == s) h
    exact (beq_iff_eq.mp hname).symm
  · rintro rfl
    exact ofName?_name k

namespace Document

/-! ## The blocks of a document -/

/-- The name of a serialised slot. -/
def slotName? (slot : Json) : Option String :=
  (slot.get? "name").bind Json.str?

/-- The blocks in serialised slots. What has no name is no slot. -/
def slotBlocks (slots : List Json) : List Json :=
  slots.filterMap fun slot => (slotName? slot).bind fun _ => slot.present? "block"

/-- The blocks in the slots of a serialised block. -/
def innerBlocks (block : Json) : List Json :=
  slotBlocks (((block.get? "children").bind Json.arr?).getD [])

/-- The block is the given one, or is in a slot of a block inside it. -/
abbrev Inside : Json → Json → Prop :=
  Relation.ReflTransGen fun outer inner => inner ∈ innerBlocks outer

/-- What holds inside a block holds of the block and inside the blocks in its slots. -/
theorem forall_inside_iff {P : Json → Prop} {block : Json} :
    (∀ c, Inside block c → P c) ↔
      P block ∧ ∀ inner ∈ innerBlocks block, ∀ c, Inside inner c → P c := by
  constructor
  · intro h
    exact ⟨h block .refl, fun inner hinner c hc => h c (.head hinner hc)⟩
  · rintro ⟨hroot, hinner⟩ c hc
    rcases hc.cases_head with rfl | ⟨inner, hmem, hc⟩
    · exact hroot
    · exact hinner inner hmem c hc

theorem forall_inside_of_flat {P : Json → Prop} {block : Json} (h : innerBlocks block = [])
    (hblock : P block) : ∀ c, Inside block c → P c :=
  forall_inside_iff.mpr ⟨hblock, by simp [h]⟩

/-- The saved custom blocks of a document, by their keys. -/
def savedBlocks (doc : Json) : Json.Members :=
  ((doc.get? "customBlocks").bind Json.obj?).getD []

/-- The blocks at the top of a document: its root and its custom blocks. -/
def topBlocks (doc : Json) : List Json :=
  (doc.present? "rootBlock").toList ++ (savedBlocks doc).map Prod.snd

/-- The document has the block, at its top or inside a block there. -/
def HasBlock (doc block : Json) : Prop :=
  ∃ top ∈ topBlocks doc, Inside top block

/-- At most `levels` blocks are inside one another. -/
def NestsWithin : (levels : Nat) → Json → Prop
  | 0, _ => False
  | levels + 1, block => ∀ inner ∈ innerBlocks block, NestsWithin levels inner

theorem nestsWithin_of_flat {block : Json} (h : innerBlocks block = []) (levels : Nat) :
    NestsWithin (levels + 1) block := by
  simp [NestsWithin, h]

theorem NestsWithin.mono {levels levels' : Nat} (hle : levels ≤ levels') {block : Json}
    (h : NestsWithin levels block) : NestsWithin levels' block := by
  induction levels generalizing levels' block with
  | zero => exact h.elim
  | succ levels ih =>
    obtain ⟨levels', rfl⟩ := Nat.exists_eq_add_of_le' (Nat.lt_of_lt_of_le (Nat.succ_pos _) hle)
    exact fun inner hinner => ih (Nat.le_of_succ_le_succ hle) (h inner hinner)

/-- The value is an array or an object. -/
def Structured (v : Json) : Prop :=
  (∃ items, v = .arr items) ∨ ∃ members, v = .obj members

/-- No kind inside the block is an array or an object. -/
def Plain (block : Json) : Prop :=
  ∀ inner, Inside block inner → ¬ Structured (inner.getD "type")

theorem plain_iff {block : Json} :
    Plain block ↔ ¬ Structured (block.getD "type") ∧ ∀ inner ∈ innerBlocks block, Plain inner :=
  forall_inside_iff

/-! ## The grammar -/

/-- What the members of a serialised block have to be, apart from the blocks in its slots. All but
the kind may be absent. -/
structure BlockFields (block : Json) : Prop where
  kind : ∃ kind : Kind, block.get? "type" = some (.str kind.name)
  id : ∀ v, block.get? "id" = some v → v = .null ∨ ∃ s, v = .str s
  name : ∀ v, block.get? "name" = some v → v = .null ∨ ∃ s, v = .str s
  inputCount : ∀ v, block.get? "inputCount" = some v → ∃ n, v = .int n
  params : ∀ v, block.get? "num_values" = some v → ∃ entries, v = .arr entries ∧
    ∀ entry ∈ entries, ∃ name value,
      entry.get? "name" = some (.str name) ∧ entry.get? "value" = some (.int value)
  /-- Slots have names, and no two the same. -/
  slots : ∀ v, block.get? "children" = some v → ∃ slots names, v = .arr slots ∧
    slots.map slotName? = List.map some names ∧ names.Nodup

/-- A serialised block: its members are as they should be, and so are the blocks in its slots. -/
inductive WellFormedBlock : Json → Prop where
  | mk {block : Json} (fields : BlockFields block)
      (inner : ∀ c ∈ innerBlocks block, WellFormedBlock c) : WellFormedBlock block

theorem wellFormedBlock_iff {block : Json} :
    WellFormedBlock block ↔ BlockFields block ∧ ∀ c ∈ innerBlocks block, WellFormedBlock c :=
  ⟨fun ⟨fields, inner⟩ => ⟨fields, inner⟩, fun ⟨fields, inner⟩ => ⟨fields, inner⟩⟩

/-- An editor document. -/
structure WellFormed (doc : Json) : Prop where
  mark : doc.get? "fileType" = some (.str documentMark)
  inputs : ∃ items, doc.get? "inputs" = some (.arr items) ∧ ∀ item ∈ items, ∃ n, item = .int n
  inputCount : ∃ n, doc.get? "inputCount" = some (.int n)
  root : ∀ v, doc.get? "rootBlock" = some v → v = .null ∨ WellFormedBlock v
  customs : ∀ v, doc.get? "customBlocks" = some v → ∃ members, v = .obj members ∧
    ∀ e ∈ members, WellFormedBlock e.2 ∧ e.2.get? "type" = some (.str Kind.custom.name)

/-! ## Checks that report -/

/-- What a check comes to. Either it gets to the end, if the value is `plain`, and finds nothing if
and only if the value is `sound`; or a kind is at fault. -/
def Reports (plain sound : Prop) : Except Fault (List Finding) → Prop
  | .ok findings => plain ∧ (findings = [] ↔ sound)
  | .error f => ¬ plain ∧ ∃ isArray, f = .structuredKind isArray

section Reports

variable {plain plain' sound sound' : Prop} {check : Except Fault (List Finding)}

theorem reports_ok {findings : List Finding} (h : findings = [] ↔ sound) :
    Reports True sound (.ok findings) :=
  ⟨trivial, h⟩

theorem Reports.congr (h : Reports plain sound check) (hplain : plain' ↔ plain)
    (hsound : sound' ↔ sound) : Reports plain' sound' check := by
  rwa [hplain, hsound]

/-- A check ends without findings if and only if the value is plain and sound. -/
theorem Reports.eq_ok_nil_iff (h : Reports plain sound check) :
    check = .ok [] ↔ plain ∧ sound := by
  cases check with
  | error f => exact iff_of_false nofun fun hboth => h.1 hboth.1
  | ok findings =>
    rw [Except.ok.injEq, h.2]
    exact ⟨fun hsound => ⟨h.1, hsound⟩, And.right⟩

/-- Checks made one after the other report together. -/
theorem Reports.bind {next : List Finding → Except Fault (List Finding)}
    (h : Reports plain sound check)
    (hnext : ∀ found, (found = [] ↔ sound) → Reports plain' sound' (next found)) :
    Reports (plain ∧ plain') sound' (check >>= next) := by
  cases check with
  | error f => exact ⟨fun hboth => h.1 hboth.1, h.2⟩
  | ok found =>
    have hrest := hnext found h.2
    change Reports (plain ∧ plain') sound' (next found)
    cases hall : next found with
    | error f =>
      rw [hall] at hrest
      exact ⟨fun hboth => hrest.1 hboth.2, hrest.2⟩
    | ok all =>
      rw [hall] at hrest
      exact ⟨⟨h.1, hrest.1⟩, hrest.2⟩

end Reports

/-! ## Checks of the members of a block -/

theorem checkKind_reports (path : DocPath) (block : Json) :
    Reports (¬ Structured (block.getD "type"))
      (∃ kind : Kind, block.get? "type" = some (.str kind.name)) (checkKind path block) := by
  unfold checkKind
  split
  · rename_i items hvalue
    exact ⟨not_not_intro (.inl ⟨items, hvalue⟩), true, rfl⟩
  · rename_i members hvalue
    exact ⟨not_not_intro (.inr ⟨members, hvalue⟩), false, rfl⟩
  · rename_i harr hobj
    have hplain : ¬ Structured (block.getD "type") := by
      rintro (⟨items, h⟩ | ⟨members, h⟩)
      · exact harr items h
      · exact hobj members h
    have hkind : ((block.getD "type").str?.bind Kind.ofName?).isSome = true ↔
        ∃ kind : Kind, block.get? "type" = some (.str kind.name) := by
      simp only [Option.isSome_iff_exists, Option.bind_eq_some_iff, Json.str?_eq_some,
        Kind.ofName?_eq_some]
      constructor
      · rintro ⟨kind, s, hs, rfl⟩
        exact ⟨kind, (Json.getD_eq Json.noConfusion).mp hs⟩
      · rintro ⟨kind, h⟩
        exact ⟨kind, _, (Json.getD_eq Json.noConfusion).mpr h, rfl⟩
    split
    · rename_i h
      exact ⟨hplain, by simpa using hkind.mp h⟩
    · rename_i h
      exact ⟨hplain, by simpa using mt hkind.mpr h⟩

theorem checkText_eq_nil {key : String} {path : DocPath} {block : Json} :
    checkText key path block = [] ↔
      ∀ v, block.get? key = some v → v = .null ∨ ∃ s, v = .str s := by
  unfold checkText
  split
  · rename_i h
    exact iff_of_true rfl fun v hv => .inl (Json.present?_eq_none.mp h v hv)
  · rename_i value h
    obtain ⟨hget, hne⟩ := Json.present?_eq_some.mp h
    simp [hget, hne, Json.isSome_str?]

theorem checkCount_eq_nil {path : DocPath} {block : Json} :
    checkCount path block = [] ↔
      ∀ v, block.get? "inputCount" = some v → ∃ n, v = .int n := by
  unfold checkCount
  split
  · simp_all
  · simp_all [Json.isSome_int?]

theorem isParam_iff {entry : Json} :
    isParam entry = true ↔ ∃ name value,
      entry.get? "name" = some (.str name) ∧ entry.get? "value" = some (.int value) := by
  simp [isParam, Option.isSome_iff_exists, Option.bind_eq_some_iff, Json.str?_eq_some,
    Json.int?_eq_some]

theorem checkParamList_eq_nil {path : DocPath} {index : Nat} {entries : List Json} :
    checkParamList path index entries = [] ↔ ∀ entry ∈ entries, isParam entry = true := by
  induction entries generalizing index with
  | nil => simp [checkParamList]
  | cons entry rest ih => simp [checkParamList, ih]

theorem checkParams_eq_nil {path : DocPath} {block : Json} :
    checkParams path block = [] ↔
      ∀ v, block.get? "num_values" = some v → ∃ entries, v = .arr entries ∧
        ∀ entry ∈ entries, ∃ name value,
          entry.get? "name" = some (.str name) ∧ entry.get? "value" = some (.int value) := by
  unfold checkParams
  split
  · simp_all
  · rename_i value hget
    simp only [hget, Option.some.injEq, forall_eq', ← Json.arr?_eq_some]
    split
    · simp_all
    · simp_all [checkParamList_eq_nil, isParam_iff]

/-! ## Checks of slots -/

/-- The slots have names, no two the same, and none that is taken. -/
def NamedApart (seen : List String) (slots : List Json) : Prop :=
  ∃ names : List String,
    slots.map slotName? = names.map some ∧ names.Nodup ∧ ∀ name ∈ names, name ∉ seen

theorem namedApart_nil (seen : List String) : NamedApart seen [] :=
  ⟨[], rfl, .nil, nofun⟩

theorem namedApart_cons {seen : List String} {slot : Json} {rest : List Json} :
    NamedApart seen (slot :: rest) ↔
      ∃ name, slotName? slot = some name ∧ name ∉ seen ∧ NamedApart (name :: seen) rest := by
  constructor
  · rintro ⟨names, hnames, hnodup, hseen⟩
    obtain ⟨name, names, rfl⟩ : ∃ name others, names = name :: others := by
      cases names with
      | nil => cases hnames
      | cons name others => exact ⟨name, others, rfl⟩
    simp only [List.map_cons, List.cons.injEq] at hnames
    obtain ⟨hfresh, hnodup⟩ := List.nodup_cons.mp hnodup
    refine ⟨name, hnames.1, hseen name (by simp), names, hnames.2, hnodup, fun other hother => ?_⟩
    rintro (_ | ⟨_, hmem⟩)
    · exact hfresh hother
    · exact hseen other (by simp [hother]) hmem
  · rintro ⟨name, hname, hfresh, names, hnames, hnodup, hseen⟩
    have hnot : name ∉ names := fun h => hseen name h (by simp)
    refine ⟨name :: names, by simp [hname, hnames], hnodup.cons hnot, ?_⟩
    rintro other (_ | ⟨_, hmem⟩)
    · exact hfresh
    · exact fun h => hseen other hmem (by simp [h])

theorem slotBlocks_cons_unnamed {slot : Json} (h : slotName? slot = none) (rest : List Json) :
    slotBlocks (slot :: rest) = slotBlocks rest := by
  simp [slotBlocks, h]

theorem slotBlocks_cons_named {slot : Json} {name : String} (h : slotName? slot = some name)
    (rest : List Json) :
    slotBlocks (slot :: rest) = (slot.present? "block").toList ++ slotBlocks rest := by
  cases hblock : slot.present? "block" <;> simp [slotBlocks, h, hblock]

section Blocks

variable {inner : DocPath → Json → Except Fault (List Finding)} {plain sound : Json → Prop}

/-- The induction is on the slots. A name that is seen is taken for the slots that follow. -/
theorem checkSlots_reports {slots : List Json}
    (h : ∀ path, ∀ c ∈ slotBlocks slots, Reports (plain c) (sound c) (inner path c))
    (path : DocPath) (index : Nat) (seen : List String) :
    Reports (∀ c ∈ slotBlocks slots, plain c)
      (NamedApart seen slots ∧ ∀ c ∈ slotBlocks slots, sound c)
      (checkSlots inner path index seen slots) := by
  induction slots generalizing index seen with
  | nil => exact ⟨nofun, iff_of_true rfl ⟨namedApart_nil seen, nofun⟩⟩
  | cons slot rest ih =>
    unfold checkSlots
    cases hname : slotName? slot with
    | none =>
      rw [slotBlocks_cons_unnamed hname] at h ⊢
      have hunnamed : ¬ NamedApart seen (slot :: rest) := by
        simp [namedApart_cons, hname]
      rw [slotName?] at hname
      simp only [hname]
      refine ((ih h (index + 1) seen).bind fun found _ => reports_ok ?_).congr (by simp) Iff.rfl
      simp [hunnamed]
    | some name =>
      rw [slotBlocks_cons_named hname] at h ⊢
      have hnamed : NamedApart seen (slot :: rest) ↔
          name ∉ seen ∧ NamedApart (name :: seen) rest := by
        simp [namedApart_cons, hname]
      rw [slotName?] at hname
      simp only [hname]
      have hrest := ih (fun path c hc => h path c (List.mem_append_right _ hc)) (index + 1)
        (name :: seen)
      cases hblock : slot.present? "block" with
      | none =>
        refine (hrest.bind fun others hothers => reports_ok ?_).congr (by simp) Iff.rfl
        simp [hnamed, hothers, and_assoc]
      | some block =>
        have hbelow := h (path ++ [.item "children" index] ++ [.key "block"]) block
          (by simp [hblock])
        refine (hbelow.bind fun below hbelow => hrest.bind fun others hothers =>
          reports_ok ?_).congr (by simp) Iff.rfl
        simp only [List.append_eq_nil_iff, hbelow, hothers, hnamed, ite_eq_right_iff,
          Option.toList_some, List.singleton_append, List.mem_cons, forall_eq_or_imp,
          List.contains_iff_mem, reduceCtorEq, imp_false]
        constructor
        · rintro ⟨⟨hfresh, hsound⟩, hapart, hsounds⟩
          exact ⟨⟨hfresh, hapart⟩, hsound, hsounds⟩
        · rintro ⟨⟨hfresh, hapart⟩, hsound, hsounds⟩
          exact ⟨⟨hfresh, hsound⟩, hapart, hsounds⟩

theorem checkChildren_reports {block : Json}
    (h : ∀ path, ∀ c ∈ innerBlocks block, Reports (plain c) (sound c) (inner path c))
    (path : DocPath) :
    Reports (∀ c ∈ innerBlocks block, plain c)
      ((∀ v, block.get? "children" = some v → ∃ slots names, v = .arr slots ∧
          slots.map slotName? = List.map some names ∧ names.Nodup) ∧
        ∀ c ∈ innerBlocks block, sound c)
      (checkChildren inner path block) := by
  unfold checkChildren
  unfold innerBlocks at h ⊢
  split
  · rename_i hget
    simp [hget, slotBlocks, Reports]
  · rename_i value hget
    split
    · rename_i harr
      have hno : ∀ slots, value ≠ .arr slots := by
        rintro slots rfl
        cases harr
      simp [hget, harr, slotBlocks, Reports, hno]
    · rename_i slots harr
      simp only [hget, harr, Option.bind_some, Option.getD_some] at h ⊢
      obtain rfl := Json.arr?_eq_some.mp harr
      refine (checkSlots_reports h path 0 []).congr Iff.rfl (and_congr_left fun _ => ?_)
      simp [NamedApart]

end Blocks

/-! ## Checks of blocks and documents -/

theorem checkBlock_reports {levels : Nat} {block : Json} (h : NestsWithin levels block)
    (path : DocPath) :
    Reports (Plain block) (WellFormedBlock block) (checkBlock levels path block) := by
  induction levels generalizing path block with
  | zero => exact h.elim
  | succ levels ih =>
    unfold checkBlock
    rw [plain_iff, wellFormedBlock_iff]
    split
    · -- without members there is no kind and there are no slots
      rename_i hobj
      have hget := Json.get?_of_obj?_eq_none hobj
      refine (reports_ok (iff_of_false (by simp) ?_)).congr ?_ Iff.rfl
      · rintro ⟨fields, -⟩
        simpa [hget] using fields.kind
      · simp [innerBlocks, hget, slotBlocks, Json.getD, Structured]
    · have hinner : ∀ path, ∀ c ∈ innerBlocks block,
          Reports (Plain c) (WellFormedBlock c) (checkBlock levels path c) :=
        fun path c hc => ih (h c hc) path
      have hchildren := checkChildren_reports hinner path
      refine ((checkKind_reports path block).bind fun kind hkind =>
        hchildren.bind fun children hchildren => reports_ok ?_).congr (by simp) Iff.rfl
      simp only [List.append_eq_nil_iff, hkind, hchildren, checkText_eq_nil, checkCount_eq_nil,
        checkParams_eq_nil]
      constructor
      · rintro ⟨⟨⟨⟨⟨kind, id⟩, name⟩, inputCount⟩, params⟩, slots, inner⟩
        exact ⟨⟨kind, id, name, inputCount, params, slots⟩, inner⟩
      · rintro ⟨⟨kind, id, name, inputCount, params, slots⟩, inner⟩
        exact ⟨⟨⟨⟨⟨kind, id⟩, name⟩, inputCount⟩, params⟩, slots, inner⟩

theorem checkMark_eq_nil {doc : Json} :
    checkMark doc = [] ↔ doc.get? "fileType" = some (.str documentMark) := by
  simp [checkMark, Json.str?_eq_some, Json.getD_eq]

theorem checkInputs_eq_nil {doc : Json} :
    checkInputs doc = [] ↔
      ∃ items, doc.get? "inputs" = some (.arr items) ∧ ∀ item ∈ items, ∃ n, item = .int n := by
  unfold checkInputs
  simp only [← Json.getD_eq (v := .arr _) Json.noConfusion, ← Json.arr?_eq_some]
  split
  · rename_i items harr
    simp [harr, Json.isSome_int?]
  · rename_i harr
    simp [harr]

theorem checkInputCount_eq_nil {doc : Json} :
    checkInputCount doc = [] ↔ ∃ n, doc.get? "inputCount" = some (.int n) := by
  simp [checkInputCount, Json.isSome_int?, Json.getD_eq]

theorem checkRoot_reports {doc : Json}
    (h : ∀ block ∈ doc.present? "rootBlock", NestsWithin nestingLimit block) :
    Reports (∀ block ∈ doc.present? "rootBlock", Plain block)
      (∀ v, doc.get? "rootBlock" = some v → v = .null ∨ WellFormedBlock v) (checkRoot doc) := by
  unfold checkRoot
  split
  · rename_i block hroot
    obtain ⟨hget, hne⟩ := Json.present?_eq_some.mp hroot
    exact (checkBlock_reports (h block hroot) _).congr (by simp [hroot]) (by simp [hget, hne])
  · rename_i hroot
    refine (reports_ok (iff_of_true rfl ?_)).congr (by simp [hroot]) Iff.rfl
    exact fun v hv => .inl (Json.present?_eq_none.mp hroot v hv)

theorem checkSaved_reports {saved : Json.Members}
    (h : ∀ e ∈ saved, NestsWithin nestingLimit e.2) :
    Reports (∀ e ∈ saved, Plain e.2)
      (∀ e ∈ saved, WellFormedBlock e.2 ∧ e.2.get? "type" = some (.str Kind.custom.name))
      (checkSaved saved) := by
  induction saved with
  | nil => exact ⟨nofun, iff_of_true rfl nofun⟩
  | cons e rest ih =>
    obtain ⟨name, block⟩ := e
    unfold checkSaved
    have hblock := checkBlock_reports (h (name, block) (by simp)) [.key "customBlocks", .key name]
    have hrest := ih fun e he => h e (by simp [he])
    refine (hblock.bind fun found hfound => hrest.bind fun others hothers =>
      reports_ok ?_).congr (by simp) Iff.rfl
    have hkind : (block.getD "type").str? = some customName ↔
        block.get? "type" = some (.str Kind.custom.name) := by
      simp [Json.str?_eq_some, Json.getD_eq, customName]
    simp only [List.append_eq_nil_iff, hothers, List.mem_cons, forall_eq_or_imp]
    by_cases hsound : found = []
    · simp [hsound, ← hkind, hfound.mp hsound]
    · simp [hsound, mt hfound.mpr hsound]

theorem checkCustoms_reports {doc : Json}
    (h : ∀ e ∈ savedBlocks doc, NestsWithin nestingLimit e.2) :
    Reports (∀ e ∈ savedBlocks doc, Plain e.2)
      (∀ v, doc.get? "customBlocks" = some v → ∃ members, v = .obj members ∧
        ∀ e ∈ members, WellFormedBlock e.2 ∧ e.2.get? "type" = some (.str Kind.custom.name))
      (checkCustoms doc) := by
  unfold checkCustoms
  unfold savedBlocks at h ⊢
  split
  · rename_i hget
    simp [hget, Reports]
  · rename_i value hget
    split
    · rename_i hobj
      simp [hget, hobj, Reports, ← Json.obj?_eq_some]
    · rename_i saved hobj
      simp only [hget, hobj, Option.bind_some, Option.getD_some] at h ⊢
      obtain rfl := Json.obj?_eq_some.mp hobj
      exact (checkSaved_reports h).congr Iff.rfl (by simp)

theorem check_reports {doc : Json} (h : ∀ block ∈ topBlocks doc, NestsWithin nestingLimit block) :
    Reports (∀ block ∈ topBlocks doc, Plain block) (WellFormed doc) (check doc) := by
  have htop {P : Json → Prop} : (∀ block ∈ topBlocks doc, P block) ↔
      (∀ block ∈ doc.present? "rootBlock", P block) ∧ ∀ e ∈ savedBlocks doc, P e.2 := by
    simp only [topBlocks, List.mem_append, or_imp, forall_and, List.forall_mem_map,
      Option.mem_toList, Option.mem_def]
  obtain ⟨hroot, hsaved⟩ := htop.mp h
  rw [htop]
  unfold check
  split
  · rename_i hobj
    have hget := Json.get?_of_obj?_eq_none hobj
    refine (reports_ok (iff_of_false (by simp) fun hwell => ?_)).congr ?_ Iff.rfl
    · simpa [hget] using hwell.mark
    · simp [savedBlocks, Json.present?, hget]
  · refine ((checkRoot_reports hroot).bind fun root hroot => (checkCustoms_reports hsaved).bind
      fun customs hcustoms => reports_ok ?_).congr (by simp) Iff.rfl
    simp only [List.append_eq_nil_iff, hroot, hcustoms, checkMark_eq_nil, checkInputs_eq_nil,
      checkInputCount_eq_nil]
    constructor
    · rintro ⟨⟨⟨⟨mark, inputs⟩, inputCount⟩, root⟩, customs⟩
      exact ⟨mark, inputs, inputCount, root, customs⟩
    · rintro ⟨mark, inputs, inputCount, root, customs⟩
      exact ⟨⟨⟨⟨mark, inputs⟩, inputCount⟩, root⟩, customs⟩

/-! ## Verdicts -/

theorem forall_hasBlock_iff {doc : Json} :
    (∀ block, HasBlock doc block → ¬ Structured (block.getD "type")) ↔
      ∀ top ∈ topBlocks doc, Plain top := by
  constructor
  · intro h top htop block hblock
    exact h block ⟨top, htop, hblock⟩
  · rintro h block ⟨top, htop, hblock⟩
    exact h top htop block hblock

theorem validate_of_check {doc : Json} {findings : List Finding} (h : check doc = .ok findings) :
    ∃ verdict, validate doc = .ok verdict ∧ (verdict.valid = true ↔ findings = []) ∧
      verdict.findings = findings := by
  unfold validate
  rw [h]
  cases findings with
  | nil => exact ⟨.accepted, rfl, iff_of_true rfl rfl, rfl⟩
  | cons finding rest => exact ⟨.rejected _, rfl, by simp [Verdict.rejected], rfl⟩

/-- A verdict is passed on every document none of whose blocks has an array or an object for a kind,
whatever else is in it, and the verdict has findings if and only if it is not favourable. Any block
that has an array or an object for a kind, however deep in the document, is a fault instead. -/
theorem validation_reports {doc : Json}
    (hnest : ∀ block ∈ topBlocks doc, NestsWithin nestingLimit block) :
    ((∀ block, HasBlock doc block → ¬ Structured (block.getD "type")) →
      ∃ verdict, validate doc = .ok verdict ∧
        (verdict.valid = true ∧ verdict.findings = [] ∨
          verdict.valid = false ∧ verdict.findings ≠ [])) ∧
    ∀ block, HasBlock doc block → Structured (block.getD "type") →
      ∃ isArray, validate doc = .error (.structuredKind isArray) := by
  rw [forall_hasBlock_iff]
  have hreports := check_reports hnest
  cases hcheck : check doc with
  | ok findings =>
    rw [hcheck] at hreports
    refine ⟨fun _ => ?_, fun block hblock hstructured => ?_⟩
    · obtain ⟨verdict, hvalidate, hvalid, hfindings⟩ := validate_of_check hcheck
      refine ⟨verdict, hvalidate, ?_⟩
      rw [hfindings, ← hvalid, ne_eq, ← hvalid, Bool.not_eq_true]
      cases verdict.valid <;> simp
    · exact absurd hstructured (forall_hasBlock_iff.mpr hreports.1 block hblock)
  | error f =>
    rw [hcheck] at hreports
    obtain ⟨hnot, isArray, rfl⟩ := hreports
    refine ⟨fun hplain => absurd hplain hnot, fun _ _ _ => ⟨isArray, ?_⟩⟩
    rw [validate, hcheck]
    rfl

/-- A block in which nothing is as it should be, with a block of the given kind in it. -/
def jumbledBlock (kind : Json) : Json :=
  .obj [("type", .null), ("id", .int 7), ("num_values", .arr [.null]),
    ("children", .arr [.str "n", .obj [("name", .str "f"), ("block", .obj [("type", kind)])]])]

/-- A document in which nothing is as it should be. -/
def jumbled (kind : Json) : Json :=
  .obj [("fileType", .int 2), ("inputs", .obj []), ("inputCount", .bool true),
    ("rootBlock", jumbledBlock kind), ("customBlocks", .arr [])]

/-- The findings on a jumble are reported, unless a kind in it is an array. -/
theorem validation_reports_jumbled :
    (∃ verdict, validate (jumbled (.bool false)) = .ok verdict ∧
      (verdict.valid = true ∧ verdict.findings = [] ∨
        verdict.valid = false ∧ verdict.findings ≠ [])) ∧
    ∃ isArray, validate (jumbled (.arr [])) = .error (.structuredKind isArray) := by
  have htop (kind : Json) : topBlocks (jumbled kind) = [jumbledBlock kind] := rfl
  have hroot (kind : Json) : innerBlocks (jumbledBlock kind) = [.obj [("type", kind)]] := rfl
  have hnest (kind : Json) :
      ∀ block ∈ topBlocks (jumbled kind), NestsWithin nestingLimit block := by
    rw [htop, List.forall_mem_singleton, nestingLimit, NestsWithin, hroot,
      List.forall_mem_singleton]
    exact nestsWithin_of_flat rfl _
  refine ⟨(validation_reports (hnest _)).1 (forall_hasBlock_iff.mpr ?_),
    (validation_reports (hnest _)).2 (.obj [("type", .arr [])]) ?_ (.inl ⟨[], rfl⟩)⟩
  · rw [htop, List.forall_mem_singleton, plain_iff, hroot, List.forall_mem_singleton]
    exact ⟨by simp [Structured, jumbledBlock, Json.getD, Json.get?, Json.Members.get?],
      forall_inside_of_flat rfl (by simp [Structured, Json.getD, Json.get?, Json.Members.get?])⟩
  · exact ⟨jumbledBlock (.arr []), by simp [htop], .single (by simp [hroot])⟩

/-- The documents that are accepted are those of the grammar. -/
theorem validation_accepts_grammar {doc : Json}
    (hnest : ∀ block ∈ topBlocks doc, NestsWithin nestingLimit block)
    (hplain : ∀ block, HasBlock doc block → ¬ Structured (block.getD "type")) :
    ∃ verdict, validate doc = .ok verdict ∧ (verdict.valid = true ↔ WellFormed doc) := by
  have hreports := check_reports hnest
  cases hcheck : check doc with
  | ok findings =>
    rw [hcheck] at hreports
    obtain ⟨verdict, hvalidate, hvalid, -⟩ := validate_of_check hcheck
    exact ⟨verdict, hvalidate, hvalid.trans hreports.2⟩
  | error f =>
    rw [hcheck] at hreports
    exact absurd (forall_hasBlock_iff.mp hplain) hreports.1

/-- A composition of two blocks, the second in a slot with the given name. -/
def pairBlock (slot : String) : Json :=
  .obj [("type", .str "Composition"), ("name", .null), ("inputCount", .int (-1)),
    ("num_values", .arr [.obj [("name", .str "m"), ("value", .int 1)]]),
    ("children", .arr [.obj [("name", .str "h"), ("block", .obj [("type", .str "Successor")])],
      .obj [("name", .str slot), ("block", .obj [("type", .str "Zero"), ("id", .str "z")])],
      .obj [("name", .str ""), ("block", .null)]])]

/-- The same composition in a document. -/
def pairDocument (slot : String) : Json :=
  .obj [("fileType", .str documentMark), ("inputs", .arr [.int 3, .int (-1)]),
    ("inputCount", .int 2), ("rootBlock", pairBlock slot), ("customBlocks", .obj [])]

/-- The document is in the grammar as long as its slots have names of their own. -/
theorem validation_accepts_grammar_pair :
    WellFormed (pairDocument "g1") ∧ ¬ WellFormed (pairDocument "h") := by
  have htop (slot : String) : topBlocks (pairDocument slot) = [pairBlock slot] := rfl
  have hroot (slot : String) : innerBlocks (pairBlock slot) =
      [.obj [("type", .str "Successor")], .obj [("type", .str "Zero"), ("id", .str "z")]] := rfl
  have hnest (slot : String) :
      ∀ block ∈ topBlocks (pairDocument slot), NestsWithin nestingLimit block := by
    rw [htop, List.forall_mem_singleton, nestingLimit, NestsWithin, hroot]
    simp only [List.forall_mem_cons, List.not_mem_nil, IsEmpty.forall_iff, implies_true, and_true]
    exact ⟨nestsWithin_of_flat rfl _, nestsWithin_of_flat rfl _⟩
  have hplain (slot : String) :
      ∀ block, HasBlock (pairDocument slot) block → ¬ Structured (block.getD "type") := by
    rw [forall_hasBlock_iff, htop, List.forall_mem_singleton, plain_iff, hroot]
    simp only [List.forall_mem_cons, List.not_mem_nil, IsEmpty.forall_iff, implies_true, and_true]
    exact ⟨nofun, forall_inside_of_flat rfl nofun, forall_inside_of_flat rfl nofun⟩
  constructor
  · obtain ⟨verdict, hvalidate, hwell⟩ := validation_accepts_grammar (hnest "g1") (hplain "g1")
    have haccepted : validate (pairDocument "g1") = .ok .accepted := rfl
    obtain rfl := Except.ok.inj (haccepted.symm.trans hvalidate)
    exact hwell.mp rfl
  · obtain ⟨verdict, hvalidate, hwell⟩ := validation_accepts_grammar (hnest "h") (hplain "h")
    obtain ⟨findings, hrejected⟩ :
        ∃ findings, validate (pairDocument "h") = .ok (.rejected findings) := ⟨_, rfl⟩
    obtain rfl := Except.ok.inj (hrejected.symm.trans hvalidate)
    exact fun h => Bool.false_ne_true (hwell.mpr h)

end Document

end BlockCalculus
