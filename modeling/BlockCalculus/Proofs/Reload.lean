import BlockCalculus.Proofs.Opening
import BlockCalculus.Proofs.RoundTrip

/-!
# Reloading documents

A document may have to be repaired when it is loaded: slots are laid out anew, a negative number of
inputs counts as zero, custom blocks go by their own names. Once loaded, a state stays as it is:
dumped and loaded again it is the same but for ids, and nothing is repaired.

* `exists_checked_of_anonymous`: checks do not see ids.
* `exists_reloaded_root`: the root is loaded, given its numbers of inputs and checked as before.
* `Library.Registered`: what is known of a library that was registered block by block, and
  `exists_registerAll`: its entries are registered again in their order.
* `dumped_state_reloads`: the main result.
-/

namespace BlockCalculus

namespace Json.Members

/-! ## Members of objects -/

theorem mem_of_mem_put {key : String} {value : Json} {members : Members} {e : String × Json}
    (h : e ∈ members.put key value) : e ∈ members ∨ e = (key, value) := by
  induction members with
  | nil => simpa [put] using h
  | cons m rest ih =>
    obtain ⟨k, v⟩ := m
    rw [put] at h
    split at h
    · rename_i hk
      obtain rfl | h := List.mem_cons.mp h
      · exact .inr (by rw [hk])
      · exact .inl (List.mem_cons_of_mem _ h)
    · obtain rfl | h := List.mem_cons.mp h
      · exact .inl List.mem_cons_self
      · exact (ih h).imp_left (List.mem_cons_of_mem _)

/-- A new key goes to the end. -/
theorem put_of_not_mem {key : String} {members : Members} (h : key ∉ members.map Prod.fst)
    (value : Json) : members.put key value = members ++ [(key, value)] := by
  induction members with
  | nil => rfl
  | cons m rest ih =>
    obtain ⟨k, v⟩ := m
    rw [List.map_cons, List.mem_cons, not_or] at h
    rw [put, if_neg (Ne.symm h.1), ih h.2, List.cons_append]

/-- A key that is there stays where it is. -/
theorem keys_put_of_mem {key : String} {members : Members} (h : key ∈ members.map Prod.fst)
    (value : Json) : (members.put key value).map Prod.fst = members.map Prod.fst := by
  induction members with
  | nil => simp at h
  | cons m rest ih =>
    obtain ⟨k, v⟩ := m
    rw [put]
    split
    · rfl
    · rename_i hk
      have hrest : key ∈ rest.map Prod.fst := by
        simpa [Ne.symm hk] using h
      rw [List.map_cons, List.map_cons, ih hrest]

theorem nodup_put {members : Members} (h : (members.map Prod.fst).Nodup) (key : String)
    (value : Json) : ((members.put key value).map Prod.fst).Nodup := by
  by_cases hkey : key ∈ members.map Prod.fst
  · rwa [keys_put_of_mem hkey]
  · rw [put_of_not_mem hkey, List.map_append]
    refine List.nodup_append.mpr ⟨h, by simp, ?_⟩
    rintro k hk _ hlast rfl
    obtain rfl : k = key := by simpa using hlast
    exact hkey hk

end Json.Members

namespace Block

/-! ## Checks do not see ids -/

/-- A check by the catalogue does not see the change of heads: it finds the same problems and sets
them alike. -/
structure Unseen (c : Catalog) (f : Head → Head) : Prop where
  set : ∀ h ps, f { h with problems := ps } = { f h with problems := ps }
  keep : ∀ h, (f h).problems = h.problems
  own : ∀ h, c.problems (f h) = c.problems h

mutual

/-- A check finds the same after a change of heads that it does not see. -/
theorem checkWithin_mapHeads {c : Catalog} {f : Head → Head} (hf : Unseen c f) (levels : Nat) :
    (b : Block) → checkWithin c levels (b.mapHeads f) =
      ((checkWithin c levels b).1.mapHeads f, (checkWithin c levels b).2)
  | ⟨head, slots⟩ => by
    cases levels with
    | zero => rw [mapHeads, checkWithin, checkWithin, mapHeads]
    | succ levels =>
      have hslots := checkSlots_mapHeadsAll hf levels slots
      have hhead (ps : List Problem) (slots' : List Slot) (fault : Option Fault) :
          (Block.mk { f head with problems := ps } slots', fault) =
            (Block.mk (f { head with problems := ps }) slots', fault) := by rw [hf.set head ps]
      rw [mapHeads, checkWithin, checkWithin, hslots, hf.own]
      cases (checkSlots c levels slots).fault with
      | some fault =>
        dsimp only
        rw [mapHeads]
        exact hhead ..
      | none =>
        dsimp only
        split
        · rw [mapHeads]
          exact hhead ..
        · rw [mapHeads]
          exact hhead ..

theorem checkSlots_mapHeadsAll {c : Catalog} {f : Head → Head} (hf : Unseen c f) (levels : Nat) :
    (slots : List Slot) → checkSlots c levels (mapHeadsAll f slots) =
      { checkSlots c levels slots with slots := mapHeadsAll f (checkSlots c levels slots).slots }
  | [] => by rw [mapHeadsAll, checkSlots, mapHeadsAll]
  | ⟨shape, none⟩ :: rest => by
    rw [mapHeadsAll, checkSlots, checkSlots, checkSlots_mapHeadsAll hf levels rest]
    simp only [SlotsChecked.after, mapHeadsAll]
  | ⟨shape, some b⟩ :: rest => by
    have hb := checkWithin_mapHeads hf levels b
    have hrest := checkSlots_mapHeadsAll hf levels rest
    rw [mapHeadsAll, checkSlots, checkSlots, hb, hrest]
    generalize checkWithin c levels b = result
    obtain ⟨b', _ | fault⟩ := result
    · simp only [SlotsChecked.after, mapHeadsAll, Slot.problems, head_mapHeads, hf.keep]
    · simp only [mapHeadsAll]

end

theorem unseen_anonymous (c : Catalog) :
    Unseen c fun h => { h with id := "", serial := 0 } where
  set _ _ := rfl
  keep _ := rfl
  own h := by
    unfold Catalog.problems
    dsimp only
    split
    · exact kind_problems_congr rfl rfl _
    · rfl

/-- Of two trees that are the same but for ids, one passes a check as the other does. -/
theorem exists_checked_of_anonymous {c : Catalog} {b b' root : Block}
    (h : b'.anonymous = b.anonymous) (hroot : b.checked c = .ok root) :
    ∃ root', b'.checked c = .ok root' ∧ root'.anonymous = root.anonymous := by
  have hcheck := checkWithin_mapHeads (unseen_anonymous c) nestingLimit b
  have hcheck' := checkWithin_mapHeads (unseen_anonymous c) nestingLimit b'
  have hb : checkWithin c nestingLimit b = (root, none) := check_of_checked hroot
  have hsame : ((checkWithin c nestingLimit b').1.anonymous, (checkWithin c nestingLimit b').2) =
      (root.anonymous, none) := by
    rw [hb] at hcheck
    exact hcheck'.symm.trans ((congrArg (checkWithin c nestingLimit) h).trans hcheck)
  obtain ⟨hanonymous, hfault⟩ := Prod.mk.inj hsame
  refine ⟨(checkWithin c nestingLimit b').1, ?_, hanonymous⟩
  unfold checked check
  generalize checkWithin c nestingLimit b' = result at hfault ⊢
  obtain ⟨b'', fault⟩ := result
  obtain rfl : fault = none := hfault
  rfl

/-! ## The root of a loaded document -/

section Root

variable {b root : Block} {count : Int}

/-- The root of a document differs from the tree that was loaded in numbers of inputs and problems
only. -/
theorem mapHeads_root (hroot : (b.propagate count).checked .standard = .ok root) {f : Head → Head}
    (hproblems : ∀ h ps, f { h with problems := ps } = f h)
    (hcount : ∀ h n, f { h with inputCount := n } = f h) : root.mapHeads f = b.mapHeads f :=
  (mapHeads_checked_eq hproblems hroot).trans (mapHeads_propagate_eq hcount count b)

/-- Without its marks, the root of a document is the tree that was loaded, with its numbers of
inputs. -/
theorem unmarked_root {levels : Nat} {depth : Int} (hb : b.Loaded levels depth)
    (hroot : (b.propagate count).checked .standard = .ok root) :
    root.unmarked.setDepth depth = b.propagate count := by
  have hchecked : root.unmarked = (b.propagate count).unmarked :=
    mapHeads_checked_eq (fun _ _ => rfl) hroot
  have hunmarked : (b.propagate count).unmarked = b.unmarked.propagate count :=
    mapHeads_propagate (fun _ _ => rfl) count b
  rw [hchecked, hunmarked, hb.unmarked_eq, setDepth_propagate, hb.setDepth_eq]

theorem conforms_root {levels : Nat} {depth : Int} (hb : b.Loaded levels depth)
    (hroot : (b.propagate count).checked .standard = .ok root) : root.Conforms :=
  (conforms_congr (f := fun h => { h with problems := [], inputCount := 0 })
    (mapHeads_root hroot (fun _ _ => rfl) fun _ _ => rfl) fun _ => ⟨rfl, rfl⟩).mpr hb.conforms

theorem height_root {levels : Nat} {depth : Int} (hb : b.Loaded levels depth)
    (hroot : (b.propagate count).checked .standard = .ok root) : root.height ≤ levels := by
  have hheight := height_congr (f := fun h => { h with problems := [], inputCount := 0 })
    (mapHeads_root hroot (fun _ _ => rfl) fun _ _ => rfl)
  rw [hheight]
  exact hb.height_le

/-- **The root of a document is loaded again as it was, but for ids.** -/
theorem exists_reloaded_root (hb : b.Loaded loadLimit 0)
    (hroot : (b.propagate count).checked .standard = .ok root) (desk : Desk) :
    ∃ b' root', (load .standard loadLimit 0 root.toJson).outcome desk =
        (.ok b', { desk with issued := desk.issued + root.size }) ∧
      (b'.propagate count).checked .standard = .ok root' ∧ root'.anonymous = root.anonymous := by
  have hload := outcome_load_toJson (conforms_root hb hroot) (height_root hb hroot) 0 desk
  rw [unmarked_root hb hroot] at hload
  have hanonymous : (((b.propagate count).renumber (desk.issued + 1)).propagate count).anonymous =
      (b.propagate count).anonymous := by
    have hcomm (b : Block) : (b.propagate count).anonymous = b.anonymous.propagate count :=
      mapHeads_propagate (fun _ _ => rfl) count b
    rw [hcomm, anonymous_renumber, ← hcomm, propagate_propagate]
  obtain ⟨root', hroot', hsame⟩ := exists_checked_of_anonymous hanonymous hroot
  exact ⟨_, root', hload, hroot', hsame⟩

end Root

end Block

namespace Library

/-! ## Libraries -/

/-- What a library keeps under a name: a custom block of that name, as it was loaded. -/
def Keeps (name : String) (data : Json) : Prop :=
  ∃ b : Block, data = b.toJson ∧ b.Loaded loadLimit 0 ∧ b.head.kind = .custom ∧
    b.head.name = some name ∧ name ≠ ""

/-- A library that was made by registering serialised blocks. -/
structure Registered (lib : Library) : Prop where
  catalog : lib.catalog = .standard
  order : lib.order.Nodup
  keeps : ∀ e ∈ lib.entries, Keeps e.1 e.2

/-- A custom block of a name is registered under it. -/
theorem register_eq {b : Block} {name : String} (hkind : b.head.kind = .custom)
    (hname : b.head.name = some name) (hne : name ≠ "") (hle : b.height ≤ nestingLimit)
    (lib : Library) :
    lib.register b = .ok { lib with entries := lib.entries.put name b.toJson } := by
  unfold register
  rw [if_neg (not_not_intro hkind), hname, Block.encode_eq_ok hle]
  split
  · rename_i h
    cases h
  · rename_i h
    exact absurd (Option.some.inj h) hne
  · rename_i h
    rw [Option.some.inj h]
    rfl

/-- What can be registered is a custom block that has a name. -/
theorem exists_of_register {b : Block} {lib lib' : Library} (h : lib.register b = .ok lib') :
    ∃ name, b.head.kind = .custom ∧ b.head.name = some name ∧ name ≠ "" := by
  unfold register at h
  split at h
  · cases h
  · rename_i hkind
    split at h
    · cases h
    · cases h
    · rename_i name hne hname
      exact ⟨name, not_not.mp hkind, hname, hne⟩

/-- A loaded block can get another name. -/
theorem loaded_rename {head : Head} {slots : List Slot} {levels : Nat} {depth : Int}
    (h : Block.Loaded levels depth ⟨head, slots⟩) (name : Option String) :
    Block.Loaded levels depth ⟨{ head with name }, slots⟩ where
  conforms := by
    obtain ⟨hroot, hin⟩ := Block.conforms_mk.mp h.conforms
    exact Block.conforms_mk.mpr ⟨hroot, hin⟩
  height_le := h.height_le
  unmarked_eq := by
    have hunmarked := h.unmarked_eq
    rw [Block.unmarked_mk] at hunmarked ⊢
    obtain ⟨hhead, hslots⟩ := Block.mk.inj hunmarked
    rw [hslots]
    exact congrArg (fun h : Head => Block.mk { h with name } slots) hhead
  setDepth_eq := by
    have hdepth := h.setDepth_eq
    rw [Block.setDepth_mk] at hdepth ⊢
    obtain ⟨hhead, hslots⟩ := Block.mk.inj hdepth
    rw [hslots]
    exact congrArg (fun h : Head => Block.mk { h with name } slots) hhead

theorem loaded_named {b : Block} {levels : Nat} {depth : Int} (hb : b.Loaded levels depth)
    (name : String) : (named name b).Loaded levels depth := by
  obtain ⟨head, slots⟩ := b
  unfold named
  split
  · exact loaded_rename hb (some name)
  · exact loaded_rename hb (some name)
  · exact hb

/-- **Registering a serialised block keeps a library registered.** -/
theorem Registered.registerData {lib lib' : Library} (hlib : lib.Registered) {name : String}
    {data : Json} {desk desk' : Desk}
    (h : (lib.registerData name data).outcome desk = (.ok lib', desk')) : lib'.Registered := by
  unfold Library.registerData at h
  rw [hlib.catalog] at h
  obtain ⟨b, between, hb, h⟩ := Build.exists_of_bind h
  rw [Build.outcome_ofExcept] at h
  obtain ⟨hregister, rfl⟩ := Prod.mk.inj h
  have hnamed := loaded_named (Block.loaded_of_ofJson hb) name
  obtain ⟨key, hkind, hkey, hne⟩ := exists_of_register hregister
  rw [register_eq hkind hkey hne (Nat.le_trans hnamed.height_le loadLimit_le)] at hregister
  rw [← Except.ok.inj hregister]
  refine ⟨hlib.catalog, Json.Members.nodup_put hlib.order _ _, fun e he => ?_⟩
  obtain he | rfl := Json.Members.mem_of_mem_put he
  · exact hlib.keeps e he
  · exact ⟨named name b, rfl, hnamed, hkind, hkey, hne⟩

/-- Registering serialised blocks one after the other keeps a library registered. -/
theorem Registered.registerAll {saved : Json.Members} {lib lib' : Library} (hlib : lib.Registered)
    {desk desk' : Desk}
    (h : (Library.registerAll saved lib).outcome desk = (.ok lib', desk')) : lib'.Registered := by
  induction saved generalizing lib desk with
  | nil =>
    obtain ⟨rfl, -⟩ : lib = lib' ∧ desk = desk' := by simpa [Library.registerAll] using h
    exact hlib
  | cons e rest ih =>
    rw [Library.registerAll] at h
    obtain ⟨between, desk₁, hdata, h⟩ := Build.exists_of_bind h
    exact ih (hlib.registerData hdata) h

/-- Two entries of the same name, whose blocks are the same but for ids. -/
def SameEntry (e e' : String × Json) : Prop :=
  e'.1 = e.1 ∧ ∃ b b' : Block, e.2 = b.toJson ∧ e'.2 = b'.toJson ∧ b'.anonymous = b.anonymous

/-- What a library keeps is registered again under its name, with new ids. -/
theorem exists_registerData {name : String} {data : Json} (hkeeps : Keeps name data)
    {lib : Library} (hcatalog : lib.catalog = .standard) (desk : Desk) :
    ∃ data' issued, (lib.registerData name data).outcome desk =
        (.ok { lib with entries := lib.entries.put name data' }, { desk with issued }) ∧
      SameEntry (name, data) (name, data') := by
  obtain ⟨b, rfl, hb, hkind, hname, hne⟩ := hkeeps
  have hload := Block.outcome_load_toJson hb.conforms hb.height_le 0 desk
  rw [hb.unmarked_eq, hb.setDepth_eq] at hload
  have hanonymous : (b.renumber (desk.issued + 1)).anonymous = b.anonymous :=
    Block.anonymous_renumber ..
  have hhead : (b.renumber (desk.issued + 1)).head.kind = .custom ∧
      (b.renumber (desk.issued + 1)).head.name = some name := by
    obtain ⟨head, slots⟩ := b
    rw [Block.renumber]
    exact ⟨hkind, hname⟩
  have hheight : (b.renumber (desk.issued + 1)).height ≤ nestingLimit := by
    rw [Block.height_congr hanonymous]
    exact Nat.le_trans hb.height_le loadLimit_le
  have hnamed : named name (b.renumber (desk.issued + 1)) = b.renumber (desk.issued + 1) := by
    unfold named
    rw [hhead.2]
    split
    · rename_i h
      cases h
    · rename_i h
      exact absurd (Option.some.inj h) hne
    · rfl
  have hofJson : (Block.ofJson lib.catalog 0 b.toJson).outcome desk =
      (.ok (b.renumber (desk.issued + 1)), { desk with issued := desk.issued + b.size }) := by
    rw [hcatalog, Block.outcome_ofJson (Block.checkBlock_toJson hb.conforms hb.height_le []), hload]
  refine ⟨(b.renumber (desk.issued + 1)).toJson, desk.issued + b.size, ?_, rfl, b, _, rfl, rfl,
    hanonymous⟩
  unfold registerData
  rw [Build.outcome_bind_of_ok hofJson, hnamed, register_eq hhead.1 hhead.2 hne hheight]
  rfl

/-- **The entries of a registered library are registered again in their order**, after those of a
library that has none of their names. -/
theorem exists_registerAll {entries : Json.Members} (hkeeps : ∀ e ∈ entries, Keeps e.1 e.2)
    (hnodup : (entries.map Prod.fst).Nodup) (lib : Library) (hcatalog : lib.catalog = .standard)
    (hfresh : ∀ e ∈ entries, e.1 ∉ lib.order) (desk : Desk) :
    ∃ new issued, (registerAll entries lib).outcome desk =
        (.ok { lib with entries := lib.entries ++ new }, { desk with issued }) ∧
      List.Forall₂ SameEntry entries new := by
  induction entries generalizing lib desk with
  | nil => exact ⟨[], desk.issued, by simp [registerAll], .nil⟩
  | cons e rest ih =>
    obtain ⟨name, data⟩ := e
    rw [List.map_cons, List.nodup_cons] at hnodup
    have hname : name ∉ lib.entries.map Prod.fst := hfresh _ List.mem_cons_self
    obtain ⟨data', issued, hdata, hsame⟩ :=
      exists_registerData (hkeeps _ List.mem_cons_self) hcatalog desk
    rw [Json.Members.put_of_not_mem hname] at hdata
    let between : Library := { lib with entries := lib.entries ++ [(name, data')] }
    have hlater : ∀ e ∈ rest, e.1 ∉ between.order := by
      intro e he hmem
      have hcases : e.1 ∈ lib.order ∨ e.1 = name := by simpa [between, order] using hmem
      obtain hmem | hname := hcases
      · exact hfresh e (List.mem_cons_of_mem _ he) hmem
      · exact hnodup.1 (List.mem_map.mpr ⟨e, he, hname⟩)
    obtain ⟨new, issued', hrest, hsames⟩ :=
      ih (fun e he => hkeeps e (List.mem_cons_of_mem _ he)) hnodup.2 between hcatalog hlater
        { desk with issued }
    refine ⟨(name, data') :: new, issued', ?_, .cons hsame hsames⟩
    rw [registerAll, Build.outcome_bind_of_ok hdata, hrest]
    simp [between]

/-- What a library keeps passes the check of a document. -/
theorem checkSaved_of_keeps {entries : Json.Members} (h : ∀ e ∈ entries, Keeps e.1 e.2) :
    Document.checkSaved entries = .ok [] := by
  induction entries with
  | nil => rfl
  | cons e rest ih =>
    obtain ⟨name, data⟩ := e
    rw [List.forall_mem_cons] at h
    obtain ⟨b, hdata, hb, hkind, -, -⟩ := h.1
    obtain rfl : data = b.toJson := hdata
    have hfound := Block.checkBlock_toJson hb.conforms (Nat.le_trans hb.height_le loadLimit_le)
      [.key "customBlocks", .key name]
    have hcustom : (b.toJson.getD "type").str? = some Document.customName := by
      obtain ⟨head, slots⟩ := b
      rw [Block.toJson, Json.getD, get?_toJson_type, show head.kind = .custom from hkind]
      rfl
    rw [Document.checkSaved, hfound, ih h.2]
    simp [hcustom, bind, Except.bind, pure, Except.pure]

end Library

namespace EditorState

/-! ## Documents -/

/-- Two states that are the same but for the ids of blocks. -/
structure Alike (s s' : EditorState) : Prop where
  inputs : s'.inputs = s.inputs
  inputCount : s'.inputCount = s.inputCount
  root : s'.root.map Block.anonymous = s.root.map Block.anonymous
  catalog : s'.library.catalog = s.library.catalog
  /-- The same names in the same order, with the same blocks. -/
  entries : List.Forall₂ Library.SameEntry s.library.entries s'.library.entries

/-- A state as it is dumped. -/
def dumped (s : EditorState) : Json :=
  .obj ([("fileType", .str documentMark), ("inputs", .arr (s.inputs.map .int)),
      ("inputCount", .int s.inputCount), ("customBlocks", .obj s.library.entries)] ++
    Json.member? "rootBlock" (s.root.map Block.toJson))

section Dumped

variable (s : EditorState)

@[simp] theorem get?_dumped_mark : s.dumped.get? "fileType" = some (.str documentMark) := by
  simp [dumped, Json.get?, Json.Members.get?]

@[simp] theorem get?_dumped_inputs :
    s.dumped.get? "inputs" = some (.arr (s.inputs.map .int)) := by
  simp [dumped, Json.get?, Json.Members.get?]

@[simp] theorem get?_dumped_inputCount :
    s.dumped.get? "inputCount" = some (.int s.inputCount) := by
  simp [dumped, Json.get?, Json.Members.get?]

@[simp] theorem get?_dumped_customs :
    s.dumped.get? "customBlocks" = some (.obj s.library.entries) := by
  simp [dumped, Json.get?, Json.Members.get?]

@[simp] theorem present?_dumped_root :
    s.dumped.present? "rootBlock" = s.root.map Block.toJson := by
  cases hroot : s.root with
  | none => simp [dumped, Json.present?, Json.get?, Json.Members.get?, Json.member?, hroot]
  | some root =>
    obtain ⟨head, slots⟩ := root
    simp [dumped, Json.present?, Json.get?, Json.Members.get?, Json.member?, hroot, Block.toJson,
      Head.toJson]

end Dumped

theorem integers_map_int (inputs : List Int) : integers (.arr (inputs.map .int)) = inputs := by
  simp [integers, Json.arr?, Json.int?, Function.comp_def]

/-- A state that was loaded can be dumped. -/
theorem Opened.toJson_eq {s : EditorState} (hs : s.Opened .standard) :
    s.toJson = .ok s.dumped := by
  unfold toJson dumped
  cases hroot : s.root with
  | none => rfl
  | some root =>
    obtain ⟨data, b, before, after, hload, hchecked⟩ := hs.root root hroot
    have hheight := Block.height_root (Block.loaded_of_load hload) hchecked
    rw [Option.mapM_some, Block.encode_eq_ok (Nat.le_trans hheight loadLimit_le)]
    rfl

theorem Opened.registered {s : EditorState} (hs : s.Opened .standard) : s.library.Registered := by
  obtain ⟨saved, before, after, hlibrary⟩ := hs.library
  have hempty : Library.Registered { catalog := .standard } := ⟨rfl, List.nodup_nil, by simp⟩
  exact hempty.registerAll hlibrary

/-- **What was loaded is dumped as a sound document.** -/
theorem Opened.check_dumped {s : EditorState} (hs : s.Opened .standard) :
    Document.check s.dumped = .ok [] := by
  have hroot : Document.checkRoot s.dumped = .ok [] := by
    unfold Document.checkRoot
    rw [present?_dumped_root]
    cases hroot : s.root with
    | none => rfl
    | some root =>
      obtain ⟨data, b, before, after, hload, hchecked⟩ := hs.root root hroot
      have hb := Block.loaded_of_load hload
      exact Block.checkBlock_toJson (Block.conforms_root hb hchecked)
        (Nat.le_trans (Block.height_root hb hchecked) loadLimit_le) _
  have hcustoms : Document.checkCustoms s.dumped = .ok [] := by
    unfold Document.checkCustoms
    rw [get?_dumped_customs]
    exact Library.checkSaved_of_keeps hs.registered.keeps
  have hmark : Document.checkMark s.dumped = [] := by
    simp [Document.checkMark, Json.getD, Json.str?]
  have hinputs : Document.checkInputs s.dumped = [] := by
    simp [Document.checkInputs, Json.getD, Json.arr?, Json.int?]
  have hcount : Document.checkInputCount s.dumped = [] := by
    simp [Document.checkInputCount, Json.getD, Json.int?]
  have hobj : ∃ members, s.dumped.obj? = some members := ⟨_, rfl⟩
  obtain ⟨members, hobj⟩ := hobj
  rw [Document.check, hobj]
  simp only [hroot, hcustoms, hmark, hinputs, hcount]
  rfl

/-- **A dumped state is set up again as it was, but for ids.** -/
theorem Opened.exists_ofSound {s : EditorState} (hs : s.Opened .standard) (desk : Desk) :
    ∃ s' issued, (ofSound .standard s.dumped).outcome desk = (.ok s', { desk with issued }) ∧
      s.Alike s' := by
  obtain ⟨new, issued, hlibrary, hsame⟩ := Library.exists_registerAll hs.registered.keeps
    hs.registered.order { catalog := .standard } rfl (by simp [Library.order]) desk
  have hcount : max 0 (((s.dumped.getD "inputCount").int?).getD 0) = s.inputCount := by
    rw [Json.getD, get?_dumped_inputCount]
    exact Int.max_eq_right hs.inputCount_nonneg
  have hinputs : integers (s.dumped.getD "inputs") = s.inputs := by
    rw [Json.getD, get?_dumped_inputs]
    exact integers_map_int s.inputs
  have hsaved : ((s.dumped.get? "customBlocks").bind Json.obj?).getD [] = s.library.entries := by
    rw [get?_dumped_customs]
    rfl
  rw [outcome_ofSound, hsaved, hlibrary, hcount, hinputs, present?_dumped_root]
  cases hroot : s.root with
  | none =>
    refine ⟨_, issued, rfl, rfl, rfl, ?_, hs.registered.catalog.symm, hsame⟩
    rw [hroot]
  | some root =>
    obtain ⟨data, b, before, after, hload, hchecked⟩ := hs.root root hroot
    obtain ⟨b', root', hload', hchecked', hanonymous⟩ := Block.exists_reloaded_root
      (Block.loaded_of_load hload) hchecked { desk with issued }
    dsimp only [Option.map_some]
    rw [hload']
    dsimp only
    rw [hchecked']
    refine ⟨_, issued + root.size, rfl, rfl, rfl, ?_, hs.registered.catalog.symm, hsame⟩
    rw [hroot]
    exact congrArg some hanonymous

/-- **Loading a dumped document is stable**: a state that was loaded, from whatever document, is
dumped as a document that loads without findings or warnings as the same state, but for ids. -/
theorem dumped_state_reloads {files : Files} {source : Source} {desk desk' : Desk}
    {s : EditorState} (h : (load files .standard source).outcome desk = (.ok (.ok s), desk')) :
    ∃ doc, s.toJson = .ok doc ∧ ∀ (files' : Files) (desk₁ : Desk), ∃ s' issued,
      (load files' .standard (.value doc)).outcome desk₁ = (.ok (.ok s'), { desk₁ with issued }) ∧
        s.Alike s' := by
  obtain ⟨doc, hdoc⟩ := exists_of_load h
  have hs := opened_of_ofSound hdoc
  refine ⟨s.dumped, hs.toJson_eq, fun files' desk₁ => ?_⟩
  obtain ⟨s', issued, hsound, halike⟩ := hs.exists_ofSound desk₁
  refine ⟨s', issued, ?_, halike⟩
  have hread : readSource files' (.value s.dumped) = .ok (.ok s.dumped) := rfl
  rw [outcome_load, hread]
  dsimp only
  rw [hs.check_dumped]
  dsimp only
  rw [hsound]
  rfl

/-- A document in need of repair: its number of inputs is negative, its root has a slot too many,
and one of its custom blocks is saved under another name than its own, the other without a name. -/
def worn : Json :=
  .obj [("fileType", .str documentMark), ("inputs", .arr [.int 3]), ("inputCount", .int (-2)),
    ("customBlocks", .obj [("key", .obj [("type", .str "Custom"), ("name", .str "own")]),
      ("plain", .obj [("type", .str "Custom")])]),
    ("rootBlock", Block.misfit)]

/-- The document is repaired when it is loaded: no inputs, a root with the slots it should have, and
custom blocks under their own names. Then it stays as it is. -/
theorem dumped_state_reloads_worn :
    let files : Files := fun _ => .error .notFound
    ∃ s desk', (load files .standard (.value worn)).outcome {} = (.ok (.ok s), desk') ∧
      s.inputs = [3] ∧ s.inputCount = 0 ∧ s.library.order = ["own", "plain"] ∧
      (∃ root ∈ s.root, root.head.kind = .composition ∧ root.param? "m" = some 2 ∧
        root.slots.map (fun slot => (slot.shape.name, slot.occupant.map fun c => c.head.kind)) =
          [("f", none), ("g1", none), ("g2", some .zero)]) ∧
      ∃ doc, s.toJson = .ok doc ∧ ∀ (files' : Files) (desk₁ : Desk), ∃ s' issued,
        (load files' .standard (.value doc)).outcome desk₁ = (.ok (.ok s'), { desk₁ with issued }) ∧
          s.Alike s' := by
  intro files
  obtain ⟨s, desk', h, hinputs, hcount, horder, hroot⟩ : ∃ s desk',
      (load files .standard (.value worn)).outcome {} = (.ok (.ok s), desk') ∧
        s.inputs = [3] ∧ s.inputCount = 0 ∧ s.library.order = ["own", "plain"] ∧
        ∃ root ∈ s.root, root.head.kind = .composition ∧ root.param? "m" = some 2 ∧
          root.slots.map (fun slot => (slot.shape.name, slot.occupant.map fun c => c.head.kind)) =
            [("f", none), ("g1", none), ("g2", some .zero)] :=
    ⟨_, _, rfl, rfl, rfl, rfl, _, rfl, rfl, rfl, rfl⟩
  exact ⟨s, desk', h, hinputs, hcount, horder, hroot, dumped_state_reloads h⟩

end EditorState

end BlockCalculus
