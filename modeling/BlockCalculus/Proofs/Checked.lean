import BlockCalculus.Proofs.Walk
import BlockCalculus.Validation

/-!
# Checked trees evaluate

A tree whose slots are laid out by the standard catalogue (`LaidOut`), and in which the check finds
no problem for a number of inputs, can be evaluated on that many inputs: what is left to go wrong is
a search that finds nothing, or too many blocks under evaluation at once.

The check and the evaluation are tied together by `Ready`: laid out, without problems of its own for
a number of inputs, and every slot is occupied by a block that is ready for the number that the slot
gives it.

* `ready_annotate`: a check that finds nothing leaves a tree that is ready.
* `walk_safe`: evaluating a ready block is `Safe`. The induction is on the levels left, not on the
  tree, since a recursion evaluates its own block again.
* `evaluate_of_checked`: the main result.
-/

namespace BlockCalculus

/-- The shape of a slot but for the input descriptions: its name and its rule for the number of
inputs. -/
def SlotShape.rule (s : SlotShape) : String × Option Int × Option Int :=
  (s.name, s.exact, s.shift)

theorem SlotShape.inputs_congr {s t : SlotShape} (h : s.rule = t.rule) (outer : Int) :
    s.inputs outer = t.inputs outer := by
  obtain ⟨-, hexact, hshift⟩ : s.name = t.name ∧ s.exact = t.exact ∧ s.shift = t.shift := by
    simpa [rule] using h
  rw [inputs, inputs, hexact, hshift]

/-- The slots that the standard catalogue lays out for a block. -/
def Head.layout (h : Head) : List SlotShape :=
  (Catalog.entryOf h.kind).layout h.params

/-- The slots have the names, and the rules for numbers of inputs, of a layout. -/
def Slot.Follow (layout : List SlotShape) (slots : List Slot) : Prop :=
  slots.map (fun s => s.shape.rule) = layout.map SlotShape.rule

/-- Following a layout is about the shapes of slots only. -/
theorem Slot.Follow.congr_shape {layout : List SlotShape} {slots slots' : List Slot}
    (hf : Slot.Follow layout slots) (h : slots'.map Slot.shape = slots.map Slot.shape) :
    Slot.Follow layout slots' := by
  unfold Slot.Follow at hf ⊢
  rw [← hf]
  simpa [Function.comp_def] using congrArg (List.map SlotShape.rule) h

theorem Slot.Follow.exists_mem {layout : List SlotShape} {slots : List Slot}
    (h : Slot.Follow layout slots) {s : Slot} (hs : s ∈ slots) :
    ∃ t ∈ layout, t.rule = s.shape.rule := by
  have hmem : s.shape.rule ∈ layout.map SlotShape.rule := h ▸ List.mem_map.mpr ⟨s, hs, rfl⟩
  exact List.mem_map.mp hmem

theorem Slot.Follow.names {layout : List SlotShape} {slots : List Slot}
    (h : Slot.Follow layout slots) :
    slots.map (fun s => s.shape.name) = layout.map SlotShape.name := by
  simpa [Function.comp_def, SlotShape.rule] using congrArg (List.map Prod.fst) h

namespace Block

mutual

/-- Every block of the tree has the slots that the standard catalogue lays out for it. -/
def LaidOut : Block → Prop
  | ⟨head, slots⟩ => Slot.Follow head.layout slots ∧ LaidOutAll slots

/-- Every block in slots has the slots that the standard catalogue lays out for it. -/
def LaidOutAll : List Slot → Prop
  | [] => True
  | ⟨_, none⟩ :: rest => LaidOutAll rest
  | ⟨_, some b⟩ :: rest => LaidOut b ∧ LaidOutAll rest

end

mutual

/-- The tree can be evaluated on `count` inputs: it is laid out, no block has a problem of its own
with the number of inputs it will get, and no slot is empty. -/
def Ready (count : Int) : Block → Prop
  | ⟨head, slots⟩ =>
    Slot.Follow head.layout slots ∧
      head.kind.problems { head with inputCount := count } = [] ∧ ReadyAll count slots

/-- The slots are occupied by blocks that can be evaluated inside a block of `outer` inputs. -/
def ReadyAll (outer : Int) : List Slot → Prop
  | [] => True
  | ⟨_, none⟩ :: _ => False
  | ⟨shape, some b⟩ :: rest => Ready (shape.inputs outer) b ∧ ReadyAll outer rest

end

/-! ## What a check without problems leaves -/

theorem map_shape_propagateAll (outer : Int) (slots : List Slot) :
    (propagateAll outer slots).map Slot.shape = slots.map Slot.shape := by
  induction slots with
  | nil => rw [propagateAll]
  | cons s rest ih =>
    obtain ⟨shape, occupant⟩ := s
    cases occupant <;> simp [propagateAll, ih]

theorem map_shape_annotateAll (c : Catalog) (slots : List Slot) :
    (annotateAll c slots).map Slot.shape = slots.map Slot.shape := by
  induction slots with
  | nil => rw [annotateAll]
  | cons s rest ih =>
    obtain ⟨shape, occupant⟩ := s
    cases occupant <;> simp [annotateAll, ih]

/-- The check of a kind goes by the number of inputs and the parameters only. -/
theorem kind_problems_congr {h h' : Head} (hcount : h.inputCount = h'.inputCount)
    (hparams : h.params = h'.params) (kind : Kind) : kind.problems h = kind.problems h' := by
  cases kind <;> simp [Kind.problems, hcount, hparams]

theorem catalog_problems_standard (h : Head) :
    Catalog.standard.problems h = h.kind.problems h := by
  rw [Catalog.problems, Catalog.lookup?_standard]
  cases hk : h.kind <;> rfl

mutual

/-- **A check that finds no problem leaves a tree that is ready** for the number of inputs that it
was checked for. -/
theorem ready_annotate (count : Int) : (b : Block) → b.LaidOut →
    ((b.propagate count).annotate .standard).head.problems = [] →
      ((b.propagate count).annotate .standard).Ready count
  | ⟨head, slots⟩, hlaid, hnone => by
    rw [LaidOut] at hlaid
    simp only [propagate, annotate, List.append_eq_nil_iff, catalog_problems_standard] at hnone ⊢
    rw [Ready]
    refine ⟨hlaid.1.congr_shape ?_, ?_, readyAll_annotateAll count slots hlaid.2 hnone.1⟩
    · rw [map_shape_annotateAll, map_shape_propagateAll]
    · rw [← hnone.2]
      exact kind_problems_congr rfl rfl head.kind

/-- A check that finds no problem with slots leaves slots that are ready. -/
theorem readyAll_annotateAll (outer : Int) : (slots : List Slot) → LaidOutAll slots →
    (annotateAll .standard (propagateAll outer slots)).flatMap Slot.problems = [] →
      ReadyAll outer (annotateAll .standard (propagateAll outer slots))
  | [], _, _ => by simp [propagateAll, annotateAll, ReadyAll]
  | ⟨shape, none⟩ :: rest, _, hnone => by
    simp [propagateAll, annotateAll, Slot.problems] at hnone
  | ⟨shape, some b⟩ :: rest, hlaid, hnone => by
    rw [LaidOutAll] at hlaid
    simp only [propagateAll, annotateAll, List.flatMap_cons, List.append_eq_nil_iff] at hnone ⊢
    have hb : ((b.propagate (shape.inputs outer)).annotate .standard).head.problems = [] := by
      simpa [Slot.problems] using hnone.1
    rw [ReadyAll]
    exact ⟨ready_annotate _ b hlaid.1 hb, readyAll_annotateAll outer rest hlaid.2 hnone.2⟩

end

mutual

/-- Readiness goes by the kinds and the parameters of blocks only. -/
theorem Ready.mapHeads {f : Head → Head} (hkind : ∀ h, (f h).kind = h.kind)
    (hparams : ∀ h, (f h).params = h.params) {count : Int} :
    {b : Block} → b.Ready count → (b.mapHeads f).Ready count
  | ⟨head, slots⟩, hb => by
    rw [Ready] at hb
    rw [mapHeads, Ready]
    refine ⟨?_, ?_, ReadyAll.mapHeads hkind hparams hb.2.2⟩
    · have hlayout : (f head).layout = head.layout := by rw [Head.layout, hkind, hparams]; rfl
      rw [hlayout]
      refine hb.1.congr_shape ?_
      rw [mapHeadsAll_eq_map, List.map_map]
      rfl
    · rw [hkind]
      refine (kind_problems_congr ?_ ?_ head.kind).trans hb.2.1
      · rfl
      · exact hparams head

/-- Readiness of slots goes by the kinds and the parameters of blocks only. -/
theorem ReadyAll.mapHeads {f : Head → Head} (hkind : ∀ h, (f h).kind = h.kind)
    (hparams : ∀ h, (f h).params = h.params) {outer : Int} :
    {slots : List Slot} → ReadyAll outer slots → ReadyAll outer (mapHeadsAll f slots)
  | [], _ => by simp [mapHeadsAll, ReadyAll]
  | ⟨_, none⟩ :: _, hs => by simp [ReadyAll] at hs
  | ⟨_, some _⟩ :: _, hs => by
    rw [ReadyAll] at hs
    rw [mapHeadsAll, ReadyAll]
    exact ⟨hs.1.mapHeads hkind hparams, ReadyAll.mapHeads hkind hparams hs.2⟩

end

theorem Ready.clearTrace {count : Int} {b : Block} (h : b.Ready count) :
    b.clearTrace.Ready count := by
  refine Ready.mapHeads ?_ ?_ h
  · intro _; rfl
  · intro _; rfl

/-! ## What a ready block has in its slots -/

/-- A name among ready slots leads to a block that is ready for the number of inputs of one of the
slots of that name. -/
theorem ReadyAll.seek? {outer : Int} {slots : List Slot} (h : ReadyAll outer slots) {name : String}
    (hname : name ∈ slots.map fun s => s.shape.name) :
    ∃ i c, Slot.seek? name slots = some (i, c) ∧
      ∃ s ∈ slots, s.shape.name = name ∧ c.Ready (s.shape.inputs outer) := by
  induction slots with
  | nil => simp at hname
  | cons s rest ih =>
    obtain ⟨shape, occupant⟩ := s
    cases occupant with
    | none => simp [ReadyAll] at h
    | some b =>
      rw [ReadyAll] at h
      by_cases hs : shape.name = name
      · refine ⟨0, b, ?_, ⟨shape, some b⟩, List.mem_cons_self, hs, h.1⟩
        rw [Slot.seek?, if_pos hs, Option.map_some]
      · have hrest : name ∈ rest.map fun s => s.shape.name := by
          rcases List.mem_cons.mp hname with heq | hmem
          · exact absurd heq.symm hs
          · exact hmem
        obtain ⟨i, c, hseek, s, hmem, hsn, hready⟩ := ih h.2 hrest
        refine ⟨i + 1, c, ?_, s, List.mem_cons_of_mem _ hmem, hsn, hready⟩
        rw [Slot.seek?, if_neg hs, hseek, Option.map_some]

/-- **What is in a slot of a ready block is ready**: if every slot of a name in the layout gives its
occupant `inner` inputs, then that name leads to a block that is ready for `inner` inputs. -/
theorem Ready.seek? {count inner : Int} {b : Block} (h : b.Ready count) {name : String}
    (hname : ∃ s ∈ b.head.layout, s.name = name)
    (hinner : ∀ s ∈ b.head.layout, s.name = name → s.inputs count = inner) :
    ∃ i c, Slot.seek? name b.slots = some (i, c) ∧ c.Ready inner := by
  obtain ⟨head, slots⟩ := b
  rw [Ready] at h
  obtain ⟨hfollow, -, hall⟩ := h
  have hmem : name ∈ slots.map fun s => s.shape.name := by
    rw [hfollow.names]
    exact List.mem_map.mpr hname
  obtain ⟨i, c, hseek, s, hs, hsn, hready⟩ := hall.seek? hmem
  obtain ⟨t, ht, hrule⟩ := hfollow.exists_mem hs
  have htn : t.name = name := (congrArg Prod.fst hrule).trans hsn
  refine ⟨i, c, hseek, ?_⟩
  rw [← hinner t ht htn, SlotShape.inputs_congr hrule]
  exact hready

/-- A ready block has no problem of its own. -/
theorem Ready.own {count : Int} {b : Block} (h : b.Ready count) :
    b.head.kind.problems { b.head with inputCount := count } = [] := by
  obtain ⟨head, slots⟩ := b
  rw [Ready] at h
  exact h.2.1

end Block

/-! ## Safe walks -/

namespace Walk

variable {α β : Type} {P : α → Prop} {Q : β → Prop} {ceiling : Int}

/-- The walk ends with a value that has a property, or at a limit. -/
def Safe (ceiling : Int) (post : α → Prop) (w : Walk α) : Prop :=
  match w.ending .standard with
  | .ok a => post a
  | .error e => e.IsLimit ceiling

theorem Safe.bind {w : Walk α} {next : α → Walk β} (hw : w.Safe ceiling P)
    (hnext : ∀ a, P a → (next a).Safe ceiling Q) : (w.bind next).Safe ceiling Q := by
  unfold Safe at hw ⊢
  rw [ending_bind]
  cases h : w.ending .standard with
  | ok a =>
    rw [h] at hw
    exact hnext a hw
  | error e =>
    rw [h] at hw
    exact hw

end Walk

namespace Rule

variable {eval : Evaluator} {site : Site} {count ceiling : Int}

/-- The evaluator is safe on every ready block that gets as many inputs as it is ready for. -/
def SafeOnReady (ceiling : Int) (eval : Evaluator) : Prop :=
  ∀ (site : Site) (inputs : List Int), site.block.Ready inputs.length →
    (eval site inputs).Safe ceiling fun _ => True

theorem occupant_safe {inner : Int} (hb : site.block.Ready count) {slot : String}
    (hname : ∃ s ∈ site.block.head.layout, s.name = slot)
    (hinner : ∀ s ∈ site.block.head.layout, s.name = slot → s.inputs count = inner) :
    (occupant site slot).Safe ceiling fun found => found.block.Ready inner := by
  obtain ⟨i, c, hseek, hready⟩ := hb.seek? hname hinner
  unfold Walk.Safe
  rw [ending_occupant, hseek]
  exact hready

theorem inSlot_safe (hev : SafeOnReady ceiling eval) (hb : site.block.Ready count) {slot : String}
    {inputs : List Int} (hname : ∃ s ∈ site.block.head.layout, s.name = slot)
    (hinner : ∀ s ∈ site.block.head.layout, s.name = slot → s.inputs count = inputs.length) :
    (inSlot eval site slot inputs).Safe ceiling fun _ => True :=
  (occupant_safe hb hname hinner).bind fun found hfound => hev found inputs hfound

/-- As many values as parts. -/
theorem parts_safe {inputs : List Int} (count first : Nat)
    (h : ∀ k, first ≤ k → k < first + count →
      (inSlot eval site ("g" ++ toString k) inputs).Safe ceiling fun _ => True) :
    (parts eval site inputs count first).Safe ceiling fun ys => ys.length = count := by
  induction count generalizing first with
  | zero => exact (rfl : ([] : List Int).length = 0)
  | succ count ih =>
    refine (h first (Nat.le_refl _) (by omega)).bind fun y _ => ?_
    refine (ih (first + 1) fun k hlo hhi => h k (by omega) (by omega)).bind fun ys hys => ?_
    exact congrArg (· + 1) hys

theorem search_safe {f : Site} {inputs : List Int} {exhausted : Walk Int}
    (h : ∀ n : Nat, (eval f (inputs ++ [(n : Int)])).Safe ceiling fun _ => True)
    (hex : exhausted.Safe ceiling fun _ => True) (count first : Nat) :
    (search eval f inputs exhausted count first).Safe ceiling fun _ => True := by
  induction count generalizing first with
  | zero => exact hex
  | succ count ih =>
    refine (h first).bind fun y _ => ?_
    split
    · trivial
    · exact ih (first + 1)

/-! ### The seven kinds -/

theorem successor_safe {b : Block} {inputs : List Int} (hk : b.head.kind = .successor)
    (hb : b.Ready inputs.length) : (successor b inputs).Safe ceiling fun _ => True := by
  have hown := hb.own
  rw [hk] at hown
  have hlen : inputs.length = 1 := by
    simp only [Kind.problems] at hown
    split at hown
    · omega
    · simp at hown
  obtain ⟨x, rfl⟩ := List.length_eq_one_iff.mp hlen
  trivial

theorem projection_safe {b : Block} {inputs : List Int} (hk : b.head.kind = .projection)
    (hb : b.Ready inputs.length) : (projection b inputs).Safe ceiling fun _ => True := by
  have hown := hb.own
  rw [hk] at hown
  simp only [Kind.problems] at hown
  split at hown
  · simp at hown
  · rename_i hpos
    split at hown
    · simp at hown
    · rename_i i hi
      split at hown
      · simp at hown
      · -- The index lies between one and the number of inputs.
        rename_i hrange
        have hlt : (i - 1).toNat < inputs.length := by omega
        have hne : inputs.isEmpty = false := by
          cases inputs with
          | nil => simp at hpos
          | cons x xs => rfl
        have hparam : b.param? "i" = some i := hi
        unfold projection parameter
        rw [hne, hparam, if_neg (by simp)]
        simp only [Walk.bind]
        rw [if_pos (by omega), List.getElem?_eq_getElem hlt]
        trivial

/-- The name of a part is not the name of the outer function. -/
theorem part_ne_outer (n : Nat) : "g" ++ toString n ≠ "f" := by
  intro h
  have := congrArg (fun s : String => s.toList.head?) h
  simp at this

theorem composition_safe {inputs : List Int} (hev : SafeOnReady ceiling eval)
    (hk : site.block.head.kind = .composition) (hb : site.block.Ready inputs.length) :
    (composition eval site inputs).Safe ceiling fun _ => True := by
  have hown := hb.own
  rw [hk] at hown
  simp only [Kind.problems] at hown
  split at hown
  · simp at hown
  · rename_i m hm
    split at hown
    · simp at hown
    · rename_i hnonneg
      have hparam : site.block.param? "m" = some m := hm
      have hlayout : site.block.head.layout = compositionSlots m := by
        have hvalue : Param.value? "m" site.block.head.params = some m := hm
        unfold Head.layout
        rw [hk]
        simp [Catalog.entryOf, Catalog.composition, Entry.layout, hvalue]
      unfold composition parameter
      rw [hparam]
      simp only [Walk.bind]
      refine (parts_safe m.toNat 1 fun k hlo hhi => ?_).bind fun ys hys => ?_
      · -- Parts get the inputs of the composition.
        refine inSlot_safe hev hb ?_ ?_
        · rw [hlayout]
          refine ⟨_, List.mem_cons_of_mem _ (List.mem_map.mpr ⟨k - 1, ?_, rfl⟩), ?_⟩
          · exact List.mem_range.mpr (by omega)
          · simp [Nat.sub_add_cancel hlo]
        · intro s hs hname
          rw [hlayout] at hs
          rcases List.mem_cons.mp hs with rfl | hs
          · exact absurd hname.symm (part_ne_outer k)
          · obtain ⟨j, -, rfl⟩ := List.mem_map.mp hs
            rfl
      · -- The outer function gets one input for each part.
        refine inSlot_safe hev hb ?_ ?_
        · rw [hlayout]
          exact ⟨_, List.mem_cons_self, rfl⟩
        · intro s hs hname
          rw [hlayout] at hs
          rcases List.mem_cons.mp hs with rfl | hs
          · simp only [SlotShape.inputs]
            omega
          · obtain ⟨j, -, rfl⟩ := List.mem_map.mp hs
            exact absurd hname (part_ne_outer (j + 1))

theorem primitiveRecursion_safe {inputs : List Int} (hev : SafeOnReady ceiling eval)
    (hk : site.block.head.kind = .primitiveRecursion) (hb : site.block.Ready inputs.length) :
    (primitiveRecursion eval site inputs).Safe ceiling fun _ => True := by
  have hown := hb.own
  rw [hk] at hown
  simp only [Kind.problems] at hown
  have hlayout : site.block.head.layout = [Catalog.baseCase, Catalog.recursiveCase] := by
    unfold Head.layout
    rw [hk]
    rfl
  split at hown
  · simp at hown
  · rename_i hpos
    have hne : inputs ≠ [] := by
      rintro rfl
      exact hpos (by simp)
    have hlen : inputs.dropLast.length = inputs.length - 1 := List.length_dropLast
    unfold primitiveRecursion
    rw [List.getLast?_eq_some_getLast hne]
    dsimp only
    split
    · -- The base case gets one input less.
      refine inSlot_safe hev hb ?_ ?_
      · rw [hlayout]
        exact ⟨_, List.mem_cons_self, rfl⟩
      · rw [hlayout]
        intro s hs hname
        rcases List.mem_cons.mp hs with rfl | hs
        · simp only [Catalog.baseCase, SlotShape.inputs]
          omega
        · rw [List.mem_singleton.mp hs] at hname
          exact absurd hname (by decide)
    · -- The block itself gets as many inputs as before, and the recursive case one more.
      refine Walk.Safe.bind (hev site _ ?_) fun z _ => inSlot_safe hev hb ?_ ?_
      · have hsame : (inputs.dropLast ++ [inputs.getLast hne - 1]).length = inputs.length := by
          rw [List.length_append, hlen, List.length_singleton]
          omega
        rw [hsame]
        exact hb
      · rw [hlayout]
        exact ⟨_, List.mem_cons_of_mem _ (List.mem_singleton.mpr rfl), rfl⟩
      · rw [hlayout]
        intro s hs hname
        rcases List.mem_cons.mp hs with rfl | hs
        · exact absurd hname (by decide)
        · rw [List.mem_singleton.mp hs]
          simp only [Catalog.recursiveCase, SlotShape.inputs, List.length_append, hlen,
            List.length_cons, List.length_nil]
          omega

theorem minimization_safe {inputs : List Int} (hev : SafeOnReady ceiling eval)
    (hk : site.block.head.kind = .minimization) (hb : site.block.Ready inputs.length)
    : (minimization ceiling eval site inputs).Safe ceiling fun _ => True := by
  have hlayout : site.block.head.layout =
      [{ name := "f", descriptor := 2, shift := some 1 }] := by
    unfold Head.layout
    rw [hk]
    rfl
  have hf : (occupant site "f").Safe ceiling fun f => f.block.Ready (inputs.length + 1) := by
    refine occupant_safe hb ?_ ?_
    · rw [hlayout]
      exact ⟨_, List.mem_singleton.mpr rfl, rfl⟩
    · rw [hlayout]
      intro s hs _
      rw [List.mem_singleton.mp hs]
      rfl
  refine hf.bind fun f hready => search_safe (fun n => hev f _ ?_) ?_ _ _
  · simpa using hready
  · exact Or.inr ⟨_, rfl⟩

theorem custom_safe {inputs : List Int} (hev : SafeOnReady ceiling eval)
    (hk : site.block.head.kind = .custom) (hb : site.block.Ready inputs.length) :
    (custom eval site inputs).Safe ceiling fun _ => True := by
  have hlayout : site.block.head.layout = [Catalog.customBody] := by
    unfold Head.layout
    rw [hk]
    rfl
  obtain ⟨i, c, hseek, hready⟩ : ∃ i c,
      Slot.seek? Catalog.customBody.name site.block.slots = some (i, c) ∧
        c.Ready inputs.length := by
    refine hb.seek? ?_ ?_
    · rw [hlayout]
      exact ⟨_, List.mem_singleton.mpr rfl, rfl⟩
    · rw [hlayout]
      intro s hs _
      rw [List.mem_singleton.mp hs]
      rfl
  unfold custom
  rw [hseek]
  exact hev _ inputs hready

end Rule

/-- **Evaluating a ready block ends with a value or at a limit.** -/
theorem walk_safe (ceiling : Int) (levels : Nat) :
    Rule.SafeOnReady ceiling (walk ceiling levels) := by
  induction levels with
  | zero => exact fun _ _ _ => Or.inl rfl
  | succ levels ih =>
    intro site inputs hb
    unfold Walk.Safe
    rw [ending_walk_succ]
    cases hk : site.block.head.kind with
    | zero => trivial
    | successor => exact Rule.successor_safe hk hb
    | projection => exact Rule.projection_safe hk hb
    | composition => exact Rule.composition_safe ih hk hb
    | primitiveRecursion => exact Rule.primitiveRecursion_safe ih hk hb
    | minimization => exact Rule.minimization_safe ih hk hb
    | custom => exact Rule.custom_safe ih hk hb

/-! ## Evaluating checked trees -/

/-- An evaluation gave an integer, or it failed at a limit. -/
def Harmless : Except Fault Int → Prop
  | .ok _ => True
  | .error (.evaluation e) => e.IsLimit
  | .error _ => False

theorem Walk.Safe.harmless {w : Walk Int} {ceiling : Int} {P : Int → Prop}
    (hw : w.Safe ceiling P) :
    Harmless ((w.ending .standard).mapError Failure.fault) ∨
      LosesCeiling ceiling ((w.ending .standard).mapError Failure.fault) := by
  unfold Walk.Safe at hw
  cases h : w.ending .standard with
  | ok n => exact .inl trivial
  | error failure =>
    rw [h] at hw
    refine hw.outcome.imp (fun ⟨e, he, hlimit⟩ => ?_) id
    have hfault : failure.fault = .evaluation e := Except.error.inj he
    show Harmless (.error failure.fault)
    rw [hfault]
    exact hlimit

/-- Evaluation of a tree that is ready for its inputs gives an integer or fails at a limit, unless
its ceiling cannot be written. -/
theorem Block.Ready.harmless {tree : Block} {inputs : List Int} (h : tree.Ready inputs.length)
    (options : EvalOptions) :
    Harmless (tree.evaluate .standard options inputs).outcome ∨
      LosesCeiling options.ceiling (tree.evaluate .standard options inputs).outcome := by
  rw [evaluate_outcome Catalog.prompt_standard]
  exact (walk_safe _ _ ⟨[], tree.clearTrace⟩ inputs h.clearTrace).harmless

namespace Block

/-- A check that finds no problem leaves a tree that is ready. -/
theorem ready_of_check {tree checked : Block} {count : Int} (hlaid : tree.LaidOut)
    (hcheck : (tree.propagate count).check .standard = (checked, none))
    (hnone : checked.head.problems = []) : checked.Ready count := by
  rw [eq_annotate_of_checkWithin _ _ _ _ hcheck] at hnone ⊢
  exact ready_annotate _ tree hlaid hnone

/-- **Checked trees evaluate.** If a tree is laid out by the standard catalogue, and a check for as
many inputs as there are finds no problem, then evaluating it on these inputs gives an integer or
fails at a limit, however it is evaluated, with two exceptions. If the ceiling cannot be written, a
search that is exhausted fails on that. And with notes an evaluation fails on them, exactly if the
inputs or the value cannot be written. -/
theorem evaluate_of_checked {tree checked : Block} {inputs : List Int} (hlaid : tree.LaidOut)
    (hcheck : (tree.propagate inputs.length).check .standard = (checked, none))
    (hnone : checked.head.problems = []) (options : EvalOptions) :
    let outcome := (checked.evaluate .standard options inputs).outcome
    let noted := (checked.evaluateNoted .standard options inputs).outcome
    (Harmless outcome ∨ LosesCeiling options.ceiling outcome) ∧
      (Harmless noted ↔ Harmless outcome ∧ Notable inputs outcome) ∧
      (¬ Harmless noted → noted = .error .unwritable) := by
  intro outcome noted
  have hplain := (ready_of_check hlaid hcheck hnone).harmless options
  by_cases hn : Notable inputs outcome
  · have hnoted : noted = outcome := evaluateNoted_of_notable hn
    rw [hnoted]
    exact ⟨hplain, ⟨fun h => ⟨h, hn⟩, And.left⟩, fun h => (hplain.resolve_left h).2⟩
  · have hnoted : noted = .error .unwritable := evaluateNoted_of_not_notable hn
    rw [hnoted]
    exact ⟨hplain, ⟨fun h => h.elim, fun h => absurd h.2 hn⟩, fun _ => rfl⟩

theorem laidOut_plus : plus.LaidOut :=
  ⟨rfl, ⟨rfl, trivial⟩, ⟨rfl, ⟨rfl, trivial⟩, ⟨rfl, trivial⟩, trivial⟩, trivial⟩

/-- Adding two numbers by recursion is checked for two inputs, so it can be evaluated on them. -/
theorem evaluate_of_checked_plus :
    let checked := ((plus.propagate 2).check .standard).1
    let outcome := (checked.evaluate .standard {} [2, 3]).outcome
    let noted := (checked.evaluateNoted .standard {} [2, 3]).outcome
    (plus.LaidOut ∧ (plus.propagate 2).check .standard = (checked, none) ∧
        checked.head.problems = []) ∧
      (Harmless outcome ∨ LosesCeiling 100 outcome) ∧
      (Harmless noted ↔ Harmless outcome ∧ Notable [2, 3] outcome) ∧
      (¬ Harmless noted → noted = .error .unwritable) :=
  ⟨⟨laidOut_plus, rfl, rfl⟩, @evaluate_of_checked plus _ [2, 3] laidOut_plus rfl rfl {}⟩

end Block

end BlockCalculus
