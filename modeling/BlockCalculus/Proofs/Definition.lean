import BlockCalculus.Proofs.Bounds
import BlockCalculus.Proofs.Likeness
import BlockCalculus.Proofs.Loading

/-!
# Custom definitions keep their meaning

A library keeps custom blocks serialised. What is taken from it was wrapped, written, perhaps
replaced, loaded and given numbers of inputs and depths, and it is evaluated as what was put into
the library under its name last.

* `Block.EvaluatesAs`: evaluating one tree gives what evaluating the other gives, unless the first
  has too many blocks under evaluation. It holds of trees of the same outline
  (`evaluatesAs_of_outline`) and of a custom block and its body (`evaluatesAs_of_body`).
* `Library.define_eq_ok_iff`: when a definition succeeds, and with which block.
* `Shelf` is a library with its history: `Shelf.act` is one call, which puts one block under one
  name or fails and changes nothing (`act_cases`).
* `Shelf.Sound`: under every name the library keeps a block that means what stands there. Every call
  keeps that (`Sound.act`), so it holds after any sequence of calls (`Sound.after`).
* `custom_definitions_keep_meaning`: the main result.
-/

namespace BlockCalculus

namespace Block

/-- Two evaluations came out alike, unless the first had too many blocks under evaluation at
once. -/
def OutcomesAgree (o o' : Except Fault Int) : Prop :=
  o = .error (.evaluation .recursionLimit) ∨ o.mapError Fault.sort = o'.mapError Fault.sort

/-- Whatever the levels, the options and the inputs: evaluating the first tree gives the same
integer as evaluating the second, or fails with an error of the same class, unless it has too many
blocks under evaluation at once. The same holds with notes. -/
def EvaluatesAs (b t : Block) : Prop :=
  ∀ levels options inputs,
    OutcomesAgree (b.evaluateWithin levels .standard options inputs).outcome
        (t.evaluateWithin levels .standard options inputs).outcome ∧
      OutcomesAgree (b.evaluateNotedWithin levels .standard options inputs).outcome
        (t.evaluateNotedWithin levels .standard options inputs).outcome

variable {b t : Block}

/-- Evaluations that agree do so with notes. -/
theorem OutcomesAgree.noted {inputs : List Int} {evaluation evaluation' : Unit → Evaluated}
    (h : OutcomesAgree (evaluation ()).outcome (evaluation' ()).outcome) :
    OutcomesAgree (b.noted inputs evaluation).outcome (t.noted inputs evaluation').outcome := by
  obtain hlimit | hsame := h
  · by_cases hin : ∀ x ∈ inputs, Text.isWritable x = true
    · refine .inl ((noted_of_notable ⟨hin, fun n hn => ?_⟩).trans hlimit)
      rw [hlimit] at hn
      cases hn
    · right
      rw [noted_of_not_notable fun h => hin h.1, noted_of_not_notable fun h => hin h.1]
  · exact .inr (noted_like hsame)

theorem evaluatesAs_of_outline (h : b.outline = t.outline) : b.EvaluatesAs t := by
  intro levels options inputs
  have hplain : OutcomesAgree (b.evaluateWithin levels .standard options inputs).outcome
      (t.evaluateWithin levels .standard options inputs).outcome :=
    .inr (evaluateWithin_like (Catalog.ignores_standard _) h levels rfl inputs).1
  exact ⟨hplain, hplain.noted⟩

/-- **A custom block is evaluated as its body**, one level further down. -/
theorem evaluatesAs_of_body (hkind : b.head.kind = .custom) {i : Nat} {d : Block}
    (hseek : Slot.seek? Catalog.customBody.name b.slots = some (i, d))
    (h : d.outline = t.outline) : b.EvaluatesAs t := by
  intro levels options inputs
  have hplain : OutcomesAgree (b.evaluateWithin levels .standard options inputs).outcome
      (t.evaluateWithin levels .standard options inputs).outcome := by
    rw [evaluateWithin_outcome Catalog.prompt_standard,
      evaluateWithin_outcome Catalog.prompt_standard]
    cases levels with
    | zero => exact .inl rfl
    | succ levels =>
      have hbody : (b.walkWithin (levels + 1) options inputs).ending .standard =
          (BlockCalculus.walk options.ceiling levels ⟨[i], d.clearTrace⟩ inputs).ending
            .standard := by
        have hk : b.clearTrace.head.kind = .custom := by rw [clearTrace, head_mapHeads, hkind]
        have hs : Slot.seek? Catalog.customBody.name b.clearTrace.slots =
            some (i, d.clearTrace) := by
          rw [clearTrace, seek?_mapHeads, hseek]
          rfl
        refine (ending_walk_succ options.ceiling levels ⟨[], b.clearTrace⟩ inputs).trans ?_
        simp only [hk, Rule.apply, Rule.custom, hs, List.nil_append]
      have hsite : Site.Alike [i] ⟨[i], d.clearTrace⟩ ⟨[], t.clearTrace⟩ := by
        refine ⟨rfl, ?_⟩
        rw [outline_clearTrace, outline_clearTrace, h]
      rw [hbody]
      obtain ⟨e, he, rfl⟩ | ⟨hend, -⟩ := (walk_bounds .standard (· = .error .recursionLimit) rfl
        (.inl rfl) levels 1 ⟨[i], d.clearTrace⟩ inputs).eq_unlessBound
      · rw [he]
        exact .inl rfl
      · rw [hend]
        have hlike := walk_like (Catalog.ignores_standard _) [i] options.ceiling (levels + 1) hsite
          inputs
        exact .inr (mapError_sort hlike.like.1)
  exact ⟨hplain, hplain.noted⟩

end Block

/-! ## Taking a block from a library -/

theorem Block.height_setDepth (depth : Int) (b : Block) : (b.setDepth depth).height = b.height :=
  height_congr (f := fun h => { h with depth := 0 })
    (mapHeads_setDepth_eq (fun _ _ => rfl) depth b)

theorem Block.outline_unmarked (b : Block) : b.unmarked.outline = b.outline :=
  outline_mapHeads
    (f := fun h => { h with problems := [], lastInput := none, lastOutput := none })
    (fun _ => rfl) b

/-- **A serialised tree in standard layout is loaded as it was**, at the depth asked for and without
a warning. -/
theorem Block.exists_ofJson_toJson {t : Block} (ht : t.Conforms) (hle : t.height ≤ loadLimit)
    (depth : Int) (desk : Desk) :
    ∃ b issued, (Block.ofJson .standard depth t.toJson).outcome desk =
        (.ok b, { desk with issued }) ∧
      b.setDepth depth = b ∧ b.head.name = t.head.name ∧ b.outline = t.outline := by
  have hload := outcome_load_toJson ht hle depth desk
  refine ⟨_, _, (outcome_ofJson (checkBlock_toJson ht hle []) ..).trans hload,
    (loaded_of_load hload).setDepth_eq, ?_, ?_⟩
  · obtain ⟨head, slots⟩ := t
    rfl
  · rw [outline_renumber, outline_setDepth, outline_unmarked]

/-- The keys are what a value is found under. -/
theorem Json.Members.mem_keys_iff {key : String} {members : Members} :
    key ∈ members.map Prod.fst ↔ ∃ value, members.get? key = some value := by
  induction members with
  | nil => simp [get?]
  | cons m rest ih =>
    obtain ⟨k, v⟩ := m
    rw [List.map_cons, List.mem_cons, ih, get?]
    by_cases hk : k = key
    · simp [hk]
    · simp [hk, Ne.symm hk]

namespace Library

/-- **What a library keeps of a tree in standard layout is taken from it as it was**, with the
number of inputs and the depth asked for and without a warning. -/
theorem exists_instantiate {lib : Library} (hcatalog : lib.catalog = .standard) {name : String}
    {kept : Block} (hget : lib.entries.get? name = some kept.toJson) (hkept : kept.Conforms)
    (hle : kept.height ≤ loadLimit) (count depth : Int) (desk : Desk) :
    ∃ inst issued,
      (lib.instantiate name count depth).outcome desk = (.ok inst, { desk with issued }) ∧
      inst.propagate count = inst ∧ inst.setDepth depth = inst ∧
      inst.outline = kept.outline := by
  obtain ⟨b, issued, hb, hdepth, -, houtline⟩ := Block.exists_ofJson_toJson hkept hle depth desk
  rw [← hcatalog] at hb
  refine ⟨b.propagate count, issued, ?_, Block.propagate_propagate .., ?_, ?_⟩
  · unfold instantiate
    rw [hget]
    exact Build.outcome_bind_of_ok hb _
  · rw [Block.setDepth_propagate, hdepth]
  · rw [Block.outline_propagate, houtline]

theorem outline_named (name : String) (b : Block) : (named name b).outline = b.outline := by
  obtain ⟨head, slots⟩ := b
  unfold named
  split <;> rfl

/-- The name of a named block depends on the name of the block only. -/
theorem name_named_congr {b b' : Block} (h : b.head.name = b'.head.name) (name : String) :
    (named name b).head.name = (named name b').head.name := by
  unfold named
  rw [h]
  split <;> simp [h]

/-- What was registered is a custom block with a name that nests within the limit, and it is kept
under its name. -/
theorem exists_of_register_eq_ok {b : Block} {lib lib' : Library}
    (h : lib.register b = .ok lib') :
    ∃ name, b.head.kind = .custom ∧ b.head.name = some name ∧ b.height ≤ nestingLimit ∧
      lib' = { lib with entries := lib.entries.put name b.toJson } := by
  obtain ⟨name, hkind, hname, hne⟩ := exists_of_register h
  by_cases hle : b.height ≤ nestingLimit
  · rw [register_eq hkind hname hne hle] at h
    exact ⟨name, hkind, hname, hle, (Except.ok.inj h).symm⟩
  · have hencode : b.encode = .error .nesting := by
      rw [Block.encode, Block.bounded, if_neg hle]
      rfl
    unfold register at h
    rw [if_neg (not_not_intro hkind), hencode] at h
    split at h <;> cases h

/-- The head of the block that a definition makes, by the entry for custom blocks. -/
def wrapperHead (entry : Entry) (serial : Nat) (name : String) : Head :=
  { kind := .custom, id := freshId serial, serial, name := some name, params := entry.newParams
    collapsed := true }

/-- The block that a definition makes, by the entry for custom blocks. -/
def wrapper (entry : Entry) (serial : Nat) (name : String) (body : Block) : Block :=
  ((⟨wrapperHead entry serial name, Catalog.emptySlots (entry.layout entry.newParams)⟩ :
    Block).place Catalog.customBody.name (some body)).setDepth 0

/-- A block without a slot of the name is told by the layout. -/
theorem isNone_slot?_emptySlots (head : Head) (name : String) (layout : List SlotShape) :
    ((⟨head, Catalog.emptySlots layout⟩ : Block).slot? name).isNone =
      decide (name ∉ layout.map SlotShape.name) := by
  rw [Block.slot?, Catalog.emptySlots, List.find?_map, Option.isNone_map, Bool.eq_iff_iff,
    Option.isNone_iff_eq_none, List.find?_eq_none, decide_eq_true_eq, List.mem_map]
  simp

/-- A new block is made if and only if its kind has an entry. -/
theorem outcome_create (c : Catalog) (kind : Kind) (inputCount depth : Int) (name : Option String)
    (desk : Desk) :
    (c.create kind inputCount depth name).outcome desk =
      match c.lookup? kind with
      | none => (.error (.notRegistered kind), desk)
      | some entry =>
        (.ok ⟨{ kind, id := freshId (desk.issued + 1), serial := desk.issued + 1, name,
                params := entry.newParams, inputCount, depth, collapsed := kind == .custom },
            Catalog.emptySlots (entry.layout entry.newParams)⟩,
          { desk with issued := desk.issued + 1 }) := by
  rw [Catalog.create, Catalog.get, Build.outcome_bind]
  cases c.lookup? kind with
  | none => rfl
  | some entry => rfl

/-- **When a definition succeeds, and with which block**: there is an entry for custom blocks with a
slot for the body, the body nests no deeper than can be copied, and the block can be registered. -/
theorem define_eq_ok_iff {lib lib' : Library} {name : String} {body b : Block} {desk desk' : Desk} :
    (lib.define name body).outcome desk = (.ok (b, lib'), desk') ↔
      ∃ entry, lib.catalog.lookup? .custom = some entry ∧ body.height ≤ copyLimit ∧
        Catalog.customBody.name ∈ (entry.layout entry.newParams).map SlotShape.name ∧
        b = wrapper entry (desk.issued + 1) name body ∧ lib.register b = .ok lib' ∧
        desk' = { desk with issued := desk.issued + 1 } := by
  rw [define, Build.outcome_bind, outcome_create]
  cases lib.catalog.lookup? .custom with
  | none => simp
  | some entry =>
    simp only [Option.some.injEq, exists_eq_left']
    rw [Build.outcome_bind, Build.outcome_ofExcept, Block.copy]
    by_cases hheight : body.height ≤ copyLimit
    · rw [if_pos hheight]
      dsimp only
      by_cases hslot : Catalog.customBody.name ∈ (entry.layout entry.newParams).map SlotShape.name
      · rw [isNone_slot?_emptySlots, decide_eq_false (not_not_intro hslot),
          if_neg Bool.false_ne_true]
        show (Build.ofExcept (lib.register (wrapper entry (desk.issued + 1) name body)) >>=
          fun lib' => pure (wrapper entry (desk.issued + 1) name body, lib') :
            Build (Block × Library)).outcome { desk with issued := desk.issued + 1 } = _ ↔ _
        rw [Build.outcome_bind, Build.outcome_ofExcept]
        cases hregister : lib.register (wrapper entry (desk.issued + 1) name body) with
        | ok lib'' =>
          constructor
          · intro h
            cases h
            exact ⟨hheight, hslot, rfl, hregister, rfl⟩
          · rintro ⟨-, -, rfl, h, rfl⟩
            cases hregister.symm.trans h
            rfl
        | error f =>
          constructor
          · intro h
            cases h
          · rintro ⟨-, -, rfl, h, -⟩
            cases hregister.symm.trans h
      · rw [isNone_slot?_emptySlots, decide_eq_true hslot, if_pos rfl, Build.outcome_bind,
          Build.outcome_throw]
        simp [hslot]
    · rw [if_neg hheight]
      simp [hheight]

/-- A custom block of a name around a body. -/
structure Wraps (name : String) (body b : Block) : Prop where
  kind : b.head.kind = .custom
  name : b.head.name = some name
  params : b.head.params = []
  slots : b.slots = [⟨Catalog.customBody, some (body.setDepth 1)⟩]

/-- What was defined is a custom block around the body, and it was registered. -/
theorem exists_of_define {lib lib' : Library} (hcatalog : lib.catalog = .standard) {name : String}
    {body b : Block} {desk desk' : Desk}
    (h : (lib.define name body).outcome desk = (.ok (b, lib'), desk')) :
    Wraps name body b ∧ body.height ≤ copyLimit ∧ lib.register b = .ok lib' := by
  obtain ⟨entry, hentry, hheight, -, rfl, hregister, -⟩ := define_eq_ok_iff.mp h
  rw [hcatalog, Catalog.lookup?_standard] at hentry
  obtain rfl : Catalog.custom = entry := Option.some.inj hentry
  have hwrapper : wrapper Catalog.custom (desk.issued + 1) name body =
      ⟨wrapperHead Catalog.custom (desk.issued + 1) name,
        [⟨Catalog.customBody, some (body.setDepth 1)⟩]⟩ := by
    show Block.setDepth 0 ⟨_, [⟨Catalog.customBody, some body⟩]⟩ = _
    rw [Block.setDepth_mk]
    rfl
  refine ⟨?_, hheight, hregister⟩
  rw [hwrapper]
  exact ⟨rfl, rfl, rfl, rfl⟩

/-- A block around a body that can be copied can be loaded. -/
theorem Wraps.height_le {name : String} {body b : Block} (h : Wraps name body b)
    (hbody : body.height ≤ copyLimit) : b.height ≤ loadLimit := by
  obtain ⟨head, slots⟩ := b
  have hslots : slots = [⟨Catalog.customBody, some (body.setDepth 1)⟩] := h.slots
  have hle : Block.heightAll slots ≤ body.height := by
    rw [Block.heightAll_le_iff, hslots]
    intro s hs c hc
    obtain rfl := List.mem_singleton.mp hs
    obtain rfl := Option.some.inj hc
    exact Nat.le_of_eq (Block.height_setDepth 1 body)
  have hlimit := copyLimit_lt
  rw [Block.height]
  omega

theorem Wraps.conforms {name : String} {body b : Block} (h : Wraps name body b)
    (hbody : body.Conforms) : b.Conforms := by
  obtain ⟨head, slots⟩ := b
  obtain ⟨hkind, -, hparams, hslots⟩ := h
  dsimp only at hkind hparams hslots
  have hinner : (body.setDepth 1).Conforms :=
    (Block.conforms_congr (f := fun h => { h with depth := 0 })
      (Block.mapHeads_setDepth_eq (fun _ _ => rfl) 1 body) fun _ => ⟨rfl, rfl⟩).mpr hbody
  rw [Block.conforms_mk, hslots, Head.Fitted, Head.layout, hkind, hparams]
  refine ⟨⟨rfl, rfl⟩, fun s hs c hc => ?_⟩
  obtain rfl := List.mem_singleton.mp hs
  obtain rfl := Option.some.inj hc
  exact hinner

end Library

/-! ## Histories of a library -/

/-- A call that puts something into a library. -/
inductive LibraryCall where
  | define (name : String) (body : Block)
  | register (b : Block)
  | registerData (name : String) (data : Json)

namespace LibraryCall

/-- What a call comes to on a library, at a desk. -/
def outcome (lib : Library) (desk : Desk) : LibraryCall → Except Fault Library × Desk
  | define name body =>
    (((lib.define name body).outcome desk).1.map Prod.snd, ((lib.define name body).outcome desk).2)
  | register b => (lib.register b, desk)
  | registerData name data => (lib.registerData name data).outcome desk

/-- What a call means to put into a library, and under which name: a body, a block, or the block
that is loaded from serialised data. -/
def puts (desk : Desk) : LibraryCall → Option (String × Block)
  | define name body => some (name, body)
  | register b => b.head.name.map fun name => (name, b)
  | registerData name data =>
    match ((Block.ofJson .standard 0 data).outcome desk).1 with
    | .ok b => (Library.named name b).head.name.map fun own => (own, Library.named name b)
    | .error _ => none

/-- The tree that the call puts into the library, if it brings one, is in standard layout, and does
not nest deeper than can be loaded. -/
def Conforms : LibraryCall → Prop
  | define _ body => body.Conforms
  | register b => b.Conforms ∧ b.height ≤ loadLimit
  | registerData _ _ => True

end LibraryCall

/-- What a library keeps means what was put into it: it is evaluated the same, or its body is. -/
def Block.Means (kept b : Block) : Prop :=
  kept.outline = b.outline ∨ kept.head.kind = .custom ∧
    ∃ i d, Slot.seek? Catalog.customBody.name kept.slots = some (i, d) ∧ d.outline = b.outline

/-- **A call that succeeds puts one block into the library**, which means what the call means to
put. -/
theorem LibraryCall.exists_of_outcome {lib lib' : Library} (hcatalog : lib.catalog = .standard)
    {desk desk' : Desk} {call : LibraryCall} (hcall : call.Conforms)
    (h : call.outcome lib desk = (.ok lib', desk')) :
    ∃ (name : String) (kept b : Block), call.puts desk = some (name, b) ∧
      lib' = { lib with entries := lib.entries.put name kept.toJson } ∧
      kept.Conforms ∧ kept.height ≤ loadLimit ∧ kept.Means b := by
  cases call with
  | define name body =>
    obtain ⟨wrapped, hdefine⟩ : ∃ wrapped,
        (lib.define name body).outcome desk = (.ok (wrapped, lib'), desk') := by
      rw [outcome] at h
      generalize (lib.define name body).outcome desk = result at h ⊢
      obtain ⟨f | ⟨wrapped, lib''⟩, desk''⟩ := result
      · cases (Prod.mk.inj h).1
      · cases h
        exact ⟨wrapped, rfl⟩
    obtain ⟨hwraps, hheight, hregister⟩ := Library.exists_of_define hcatalog hdefine
    obtain ⟨own, hkind, hown, -, rfl⟩ := Library.exists_of_register_eq_ok hregister
    obtain rfl : name = own := Option.some.inj (hwraps.name.symm.trans hown)
    refine ⟨name, wrapped, body, rfl, rfl, hwraps.conforms hcall, hwraps.height_le hheight,
      .inr ⟨hkind, 0, ?_⟩⟩
    refine ⟨body.setDepth 1, ?_, Block.outline_setDepth 1 body⟩
    rw [hwraps.slots, Slot.seek?, if_pos rfl, Option.map_some]
  | register b =>
    obtain ⟨hregister, rfl⟩ := Prod.mk.inj h
    obtain ⟨name, -, hname, -, rfl⟩ := Library.exists_of_register_eq_ok hregister
    exact ⟨name, b, b, by rw [puts, hname, Option.map_some], rfl, hcall.1, hcall.2, .inl rfl⟩
  | registerData name data =>
    unfold outcome Library.registerData at h
    rw [hcatalog] at h
    obtain ⟨b, between, hb, h⟩ := Build.exists_of_bind h
    rw [Build.outcome_ofExcept] at h
    obtain ⟨hregister, rfl⟩ := Prod.mk.inj h
    obtain ⟨own, -, hown, -, rfl⟩ := Library.exists_of_register_eq_ok hregister
    have hloaded := Library.loaded_named (Block.loaded_of_ofJson hb) name
    refine ⟨own, Library.named name b, Library.named name b, ?_, rfl, hloaded.conforms,
      hloaded.height_le, .inl rfl⟩
    rw [puts, hb]
    dsimp only
    rw [hown, Option.map_some]

/-- A library, the desk it works at, and what was put last under every name. -/
structure Shelf where
  library : Library := {}
  desk : Desk := {}
  stands : String → Option Block := fun _ => none

namespace Shelf

/-- What stands on a shelf after something was put there. -/
def put (s : Shelf) (name : String) (b : Block) : String → Option Block :=
  fun other => if other = name then some b else s.stands other

/-- A shelf after a call. If the call fails, it leaves its marks on the desk only. -/
def act (s : Shelf) (call : LibraryCall) : Shelf :=
  match call.outcome s.library s.desk with
  | (.error _, desk) => { s with desk }
  | (.ok library, desk) =>
    match call.puts s.desk with
    | some (name, b) => { library, desk, stands := s.put name b }
    | none => { s with library, desk }

/-- A shelf after calls, one after the other. -/
def after (s : Shelf) (calls : List LibraryCall) : Shelf :=
  calls.foldl act s

/-- **A call fails and leaves the library as it was, or it puts one block under one name.** -/
theorem act_cases {s : Shelf} (hcatalog : s.library.catalog = .standard) {call : LibraryCall}
    (hcall : call.Conforms) :
    (∃ f, (call.outcome s.library s.desk).1 = .error f ∧
      (s.act call).library = s.library ∧ (s.act call).stands = s.stands) ∨
    ∃ (name : String) (kept b : Block),
      (call.outcome s.library s.desk).1 = .ok (s.act call).library ∧
      call.puts s.desk = some (name, b) ∧ (s.act call).library =
        { s.library with entries := s.library.entries.put name kept.toJson } ∧
      (s.act call).stands = s.put name b ∧
      kept.Conforms ∧ kept.height ≤ loadLimit ∧ kept.Means b := by
  generalize hresult : call.outcome s.library s.desk = result
  obtain ⟨f | lib', desk'⟩ := result
  · refine .inl ⟨f, rfl, ?_, ?_⟩
    · rw [act, hresult]
    · rw [act, hresult]
  · obtain ⟨name, kept, b, hputs, rfl, hkept⟩ :=
      LibraryCall.exists_of_outcome hcatalog hcall hresult
    have hact : s.act call =
        ⟨{ s.library with entries := s.library.entries.put name kept.toJson }, desk',
          s.put name b⟩ := by
      rw [act, hresult]
      dsimp only
      rw [hputs]
    exact .inr ⟨name, kept, b, by rw [hact], hputs, by rw [hact], by rw [hact], hkept⟩

/-- Under every name, the library keeps a tree in standard layout that means what stands there. -/
structure Sound (s : Shelf) : Prop where
  catalog : s.library.catalog = .standard
  keeps : ∀ name data, s.library.entries.get? name = some data →
    ∃ (kept b : Block), data = kept.toJson ∧ kept.Conforms ∧ kept.height ≤ loadLimit ∧
      s.stands name = some b ∧ kept.Means b

/-- **A call leaves a sound shelf sound.** -/
theorem Sound.act {s : Shelf} (hs : s.Sound) {call : LibraryCall} (hcall : call.Conforms) :
    (s.act call).Sound := by
  obtain ⟨f, -, hlibrary, hstands⟩ |
    ⟨name, kept, b, -, -, hlibrary, hstands, hconforms, hle, hmeans⟩ := act_cases hs.catalog hcall
  · refine ⟨by rw [hlibrary, hs.catalog], ?_⟩
    rw [hlibrary, hstands]
    exact hs.keeps
  · refine ⟨by rw [hlibrary, hs.catalog], fun other data hget => ?_⟩
    rw [hlibrary] at hget
    rw [hstands, put]
    by_cases hother : other = name
    · rw [hother, Json.Members.get?_put_self] at hget
      exact ⟨kept, b, (Option.some.inj hget).symm, hconforms, hle, if_pos hother, hmeans⟩
    · rw [Json.Members.get?_put_of_ne hother] at hget
      rw [if_neg hother]
      exact hs.keeps other data hget

/-- **After any calls, a sound shelf is sound.** -/
theorem Sound.after {s : Shelf} (hs : s.Sound) {calls : List LibraryCall}
    (hcalls : ∀ call ∈ calls, call.Conforms) : (s.after calls).Sound := by
  induction calls generalizing s with
  | nil => exact hs
  | cons call rest ih =>
    rw [List.forall_mem_cons] at hcalls
    exact ih (hs.act hcalls.1) hcalls.2

theorem sound_empty : ({} : Shelf).Sound :=
  ⟨rfl, fun _ _ h => by cases h⟩

end Shelf

/-- What keeps the outline of a tree that means a block is evaluated as the block. -/
theorem Block.Means.evaluatesAs {kept b inst : Block} (h : kept.Means b)
    (hinst : inst.outline = kept.outline) : inst.EvaluatesAs b := by
  obtain hsame | ⟨hkind, i, d, hseek, hbody⟩ := h
  · exact evaluatesAs_of_outline (hinst.trans hsame)
  · have hkind' : inst.head.kind = .custom := (kind_of_outline hinst).trans hkind
    obtain ⟨-, hnone⟩ | ⟨j, d', d'', hseek', hkept, hd⟩ :=
      seek?_of_outline hinst Catalog.customBody.name
    · rw [hseek] at hnone
      cases hnone
    · obtain ⟨rfl, rfl⟩ := Prod.mk.inj (Option.some.inj (hseek.symm.trans hkept))
      exact evaluatesAs_of_body hkind' hseek' (hd.trans hbody)

/-- A call that registers a serialised tree in standard layout puts a block that is evaluated as the
tree, under the name of the tree if it has one. -/
theorem LibraryCall.exists_puts_registerData {t : Block} (ht : t.Conforms)
    (hle : t.height ≤ loadLimit) (name : String) (desk : Desk) :
    ∃ own b, (registerData name t.toJson).puts desk = some (own, b) ∧
      (Library.named name t).head.name = some own ∧ b.EvaluatesAs t := by
  obtain ⟨b, issued, hb, -, hname, houtline⟩ := Block.exists_ofJson_toJson ht hle 0 desk
  obtain ⟨-, own, hown, -⟩ := Library.named_spec name b
  refine ⟨own, Library.named name b, ?_, (Library.name_named_congr hname name).symm.trans hown,
    Block.evaluatesAs_of_outline ((Library.outline_named name b).trans houtline)⟩
  rw [puts, hb]
  dsimp only
  rw [hown, Option.map_some]

/-- **Custom definitions keep their meaning.** After any sequence of calls on an empty library, with
trees in standard layout, every name in the library has a block that was put under it last, and can
be taken from the library with any number of inputs and at any depth, without a warning. What is
taken has the numbers of inputs and the depths that follow from these, and is evaluated as that
block: as the body if it was defined, as the block itself if it was registered, and as what was
serialised if it was registered so. A call that fails leaves the library and what stands in it as
they were; one that succeeds puts what it means to put, and touches no other name. -/
theorem custom_definitions_keep_meaning {calls : List LibraryCall}
    (hcalls : ∀ call ∈ calls, call.Conforms) :
    let shelf := ({} : Shelf).after calls
    (∀ name ∈ shelf.library.names, ∃ b, shelf.stands name = some b ∧
      ∀ count depth desk, ∃ inst issued,
        (shelf.library.instantiate name count depth).outcome desk =
          (.ok inst, { desk with issued }) ∧
        inst.propagate count = inst ∧ inst.setDepth depth = inst ∧ inst.EvaluatesAs b) ∧
    (∀ (t : Block) name desk, t.Conforms → t.height ≤ loadLimit → ∃ own b,
      (LibraryCall.registerData name t.toJson).puts desk = some (own, b) ∧
        (Library.named name t).head.name = some own ∧ b.EvaluatesAs t) ∧
    ∀ call : LibraryCall, call.Conforms →
      (∃ f, (call.outcome shelf.library shelf.desk).1 = .error f ∧
        (shelf.act call).library = shelf.library ∧ (shelf.act call).stands = shelf.stands) ∨
      ∃ name b, (call.outcome shelf.library shelf.desk).1 = .ok (shelf.act call).library ∧
        call.puts shelf.desk = some (name, b) ∧ name ∈ (shelf.act call).library.names ∧
        (shelf.act call).stands name = some b ∧
        ∀ other ≠ name, (shelf.act call).stands other = shelf.stands other ∧
          (shelf.act call).library.entries.get? other = shelf.library.entries.get? other := by
  intro shelf
  have hsound : shelf.Sound := Shelf.sound_empty.after hcalls
  refine ⟨fun name hname => ?_,
    fun t name desk ht hle => LibraryCall.exists_puts_registerData ht hle name desk,
    fun call hcall => ?_⟩
  · obtain ⟨data, hget⟩ := Json.Members.mem_keys_iff.mp (Library.mem_names.mp hname)
    obtain ⟨kept, b, rfl, hkept, hle, hstands, hmeans⟩ := hsound.keeps name data hget
    refine ⟨b, hstands, fun count depth desk => ?_⟩
    obtain ⟨inst, issued, htaken, hcount, hdepth, houtline⟩ :=
      Library.exists_instantiate hsound.catalog hget hkept hle count depth desk
    exact ⟨inst, issued, htaken, hcount, hdepth, hmeans.evaluatesAs houtline⟩
  · obtain hfails | ⟨name, kept, b, hok, hputs, hlibrary, hstands, -⟩ :=
      Shelf.act_cases hsound.catalog hcall
    · exact .inl hfails
    · refine .inr ⟨name, b, hok, hputs, ?_, ?_, fun other hother => ⟨?_, ?_⟩⟩
      · rw [hlibrary]
        exact Library.mem_names.mpr (Json.Members.mem_keys_iff.mpr
          ⟨_, Json.Members.get?_put_self ..⟩)
      · rw [hstands, Shelf.put, if_pos rfl]
      · rw [hstands, Shelf.put, if_neg hother]
      · rw [hlibrary]
        exact Json.Members.get?_put_of_ne hother ..

/-- "sum" is defined as zero and then as addition, and a definition without a name fails: what is
taken under "sum" is evaluated as addition. -/
theorem custom_definitions_keep_meaning_plus :
    let zero : Block := ⟨{ kind := .zero, id := "zero" }, []⟩
    let calls : List LibraryCall :=
      [.define "sum" zero, .define "sum" Block.plus, .define "" Block.plus]
    let shelf := ({} : Shelf).after calls
    (∀ call ∈ calls, call.Conforms) ∧ shelf.library.names = ["sum"] ∧
      ∃ inst issued, (shelf.library.instantiate "sum" 2 3).outcome {} = (.ok inst, ⟨issued, []⟩) ∧
        inst.propagate 2 = inst ∧ inst.setDepth 3 = inst ∧ inst.EvaluatesAs Block.plus := by
  intro zero calls shelf
  have hzero : zero.Conforms := by
    rw [Block.conforms_mk]
    exact ⟨⟨rfl, rfl⟩, by simp⟩
  have hcalls : ∀ call ∈ calls, call.Conforms := by
    simp [calls, LibraryCall.Conforms, hzero, Block.conforms_plus]
  have hnames : shelf.library.names = ["sum"] := List.mergeSort_singleton "sum"
  refine ⟨hcalls, hnames, ?_⟩
  obtain ⟨b, hstands, htaken⟩ := (custom_definitions_keep_meaning hcalls).1 "sum"
    (hnames ▸ List.mem_singleton_self "sum")
  obtain rfl : Block.plus = b := Option.some.inj hstands
  exact htaken 2 3 {}

end BlockCalculus
