import BlockCalculus.Block.Listing
import BlockCalculus.Proofs.Checked
import Mathlib.Data.List.Nodup

/-!
# Trees and their layout

What holds of a tree is proved from what holds of the blocks in the slots of its root
(`Block.induction`). The operations that go down a whole tree change the head of a block and then
its occupants (`Descends`). Such operations are the same if they do the same to heads
(`Descends.unique`), so whether two of them commute, or one undoes the other, is seen on heads.

`Every` says that each block that a tree lists has a property: its root and every block of the trees
in its slots (`every_mk`). It is read off a tree with other heads, as long as the property does not
tell them apart (`every_congr`).

`Conforms` is the property to have the parameters and the slots that the standard catalogue lays
out. The names in such a layout are distinct (`nodup_layout`), so slots can be stored by name only
and laid out again (`reconcile_bare`).
-/

namespace BlockCalculus

namespace Slot

/-- Changes the occupant of a slot, by the shape of the slot. -/
def within (f : SlotShape → Block → Block) (s : Slot) : Slot :=
  { s with occupant := s.occupant.map (f s.shape) }

@[simp] theorem shape_within (f : SlotShape → Block → Block) (s : Slot) :
    (s.within f).shape = s.shape :=
  rfl

@[simp] theorem occupant_within (f : SlotShape → Block → Block) (s : Slot) :
    (s.within f).occupant = s.occupant.map (f s.shape) :=
  rfl

theorem forall_occupant_within {f : SlotShape → Block → Block} {s : Slot} {P : Block → Prop} :
    (∀ c ∈ (s.within f).occupant, P c) ↔ ∀ c ∈ s.occupant, P (f s.shape c) := by
  simp

@[simp] theorem shapes_map_within (f : SlotShape → Block → Block) (slots : List Slot) :
    shapes (slots.map (within f)) = shapes slots := by
  simp [shapes, Function.comp_def]

/-- Occupants can be changed one after the other or at once. -/
theorem map_within_within (f g : SlotShape → Block → Block) (slots : List Slot) :
    (slots.map (within f)).map (within g) =
      slots.map (within fun shape c => g shape (f shape c)) := by
  simp [within, Function.comp_def]

theorem map_within_congr {f g : SlotShape → Block → Block} {slots : List Slot}
    (h : ∀ s ∈ slots, ∀ c ∈ s.occupant, f s.shape c = g s.shape c) :
    slots.map (within f) = slots.map (within g) := by
  refine List.map_congr_left fun s hs => ?_
  unfold within
  rw [Option.map_congr (h s hs)]

theorem map_within_eq_self {f : SlotShape → Block → Block} {slots : List Slot}
    (h : ∀ s ∈ slots, ∀ c ∈ s.occupant, f s.shape c = c) : slots.map (within f) = slots := by
  rw [map_within_congr (g := fun _ c => c) h]
  refine (List.map_congr_left fun s _ => ?_).trans (List.map_id slots)
  obtain ⟨shape, occupant⟩ := s
  simp [within]

end Slot

namespace Block

/-! ## Induction over trees -/

mutual

/-- A property of trees holds if it passes from the blocks in the slots of a root to the tree. -/
theorem induction {motive : Block → Prop}
    (mk : ∀ head slots, (∀ s ∈ slots, ∀ c ∈ s.occupant, motive c) → motive ⟨head, slots⟩) :
    (b : Block) → motive b
  | ⟨head, slots⟩ => mk head slots (inductionAll mk slots)

/-- The blocks in slots have a property that passes from occupants to trees. -/
theorem inductionAll {motive : Block → Prop}
    (mk : ∀ head slots, (∀ s ∈ slots, ∀ c ∈ s.occupant, motive c) → motive ⟨head, slots⟩) :
    (slots : List Slot) → ∀ s ∈ slots, ∀ c ∈ s.occupant, motive c
  | [], _, hs, _, _ => by simp at hs
  | ⟨_, none⟩ :: rest, s, hs, c, hc => by
    obtain rfl | hs := List.mem_cons.mp hs
    · simp at hc
    · exact inductionAll mk rest s hs c hc
  | ⟨_, some b⟩ :: rest, s, hs, c, hc => by
    obtain rfl | hs := List.mem_cons.mp hs
    · have hb := induction mk b
      obtain rfl : b = c := by simpa using hc
      exact hb
    · exact inductionAll mk rest s hs c hc

end

/-! ## Operations on whole trees, one level at a time -/

theorem mapHeads_mk (f : Head → Head) (head : Head) (slots : List Slot) :
    mapHeads f ⟨head, slots⟩ = ⟨f head, slots.map (Slot.within fun _ => mapHeads f)⟩ :=
  eq_mapHeads_mk f ⟨head, slots⟩

theorem propagateAll_eq_map (outer : Int) (slots : List Slot) :
    propagateAll outer slots =
      slots.map (Slot.within fun shape => propagate (shape.inputs outer)) := by
  induction slots with
  | nil => rw [propagateAll, List.map_nil]
  | cons s rest ih =>
    obtain ⟨shape, occupant⟩ := s
    cases occupant <;> simp [propagateAll, ih, Slot.within]

theorem propagate_mk (count : Int) (head : Head) (slots : List Slot) :
    propagate count ⟨head, slots⟩ = ⟨{ head with inputCount := count },
      slots.map (Slot.within fun shape => propagate (shape.inputs count))⟩ := by
  rw [propagate, propagateAll_eq_map]

theorem setDepthAll_eq_map (depth : Int) (slots : List Slot) :
    setDepthAll depth slots = slots.map (Slot.within fun _ => setDepth depth) := by
  induction slots with
  | nil => rw [setDepthAll, List.map_nil]
  | cons s rest ih =>
    obtain ⟨shape, occupant⟩ := s
    cases occupant <;> simp [setDepthAll, ih, Slot.within]

theorem setDepth_mk (depth : Int) (head : Head) (slots : List Slot) :
    setDepth depth ⟨head, slots⟩ =
      ⟨{ head with depth }, slots.map (Slot.within fun _ => setDepth (depth + 1))⟩ := by
  rw [setDepth, setDepthAll_eq_map]

@[simp] theorem head_propagate (count : Int) (b : Block) :
    (b.propagate count).head = { b.head with inputCount := count } := by
  obtain ⟨head, slots⟩ := b
  rw [propagate]

@[simp] theorem head_setDepth (depth : Int) (b : Block) :
    (b.setDepth depth).head = { b.head with depth } := by
  obtain ⟨head, slots⟩ := b
  rw [setDepth]

/-- The operations `op i` go down a tree: each puts something into the head of the root, and goes on
in a slot as `next` says. -/
def Descends {ι : Type} (next : ι → SlotShape → ι) (put : ι → Head → Head)
    (op : ι → Block → Block) : Prop :=
  ∀ i head slots, op i ⟨head, slots⟩ =
    ⟨put i head, slots.map (Slot.within fun shape => op (next i shape))⟩

section Descends

variable {ι : Type} {next : ι → SlotShape → ι} {put put' : ι → Head → Head}
  {op op' : ι → Block → Block}

/-- **Operations that go down a tree alike and put the same into heads are the same.** -/
theorem Descends.unique (h : Descends next put op) (h' : Descends next put' op')
    (hput : ∀ i head, put i head = put' i head) (i : ι) (b : Block) : op i b = op' i b := by
  induction b using Block.induction generalizing i with
  | mk head slots ih =>
    rw [h, h', hput]
    congr 1
    exact Slot.map_within_congr fun s hs c hc => ih s hs c hc _

/-- Going down a tree twice is going down once. -/
theorem Descends.comp (h : Descends next put op) (h' : Descends next put' op') :
    Descends next (fun i head => put' i (put i head)) fun i b => op' i (op i b) := by
  intro i head slots
  dsimp only
  rw [h, h', Slot.map_within_within]

variable (next)

theorem descends_mapHeads (f : Head → Head) : Descends next (fun _ => f) fun _ => mapHeads f :=
  fun _ => mapHeads_mk f

theorem descends_propagate (count : ι → Int)
    (h : ∀ i shape, count (next i shape) = shape.inputs (count i)) :
    Descends next (fun i head => { head with inputCount := count i }) fun i =>
      propagate (count i) := by
  intro i head slots
  simp only [propagate_mk, h]

theorem descends_setDepth (depth : ι → Int) (h : ∀ i shape, depth (next i shape) = depth i + 1) :
    Descends next (fun i head => { head with depth := depth i }) fun i => setDepth (depth i) := by
  intro i head slots
  simp only [setDepth_mk, h]

end Descends

/-- Changing heads twice is changing them once. -/
theorem mapHeads_mapHeads (f g : Head → Head) (b : Block) :
    (b.mapHeads f).mapHeads g = b.mapHeads fun h => g (f h) := by
  let next (i : Unit) (_ : SlotShape) : Unit := i
  have htwice := (descends_mapHeads next f).comp (descends_mapHeads next g)
  exact htwice.unique (descends_mapHeads next fun h => g (f h)) (fun _ _ => rfl) () b

/-- The last number of inputs given to the root counts. -/
theorem propagate_propagate (count count' : Int) (b : Block) :
    (b.propagate count).propagate count' = b.propagate count' := by
  let next (i : Int × Int) (shape : SlotShape) : Int × Int := (shape.inputs i.1, shape.inputs i.2)
  have hfirst := descends_propagate next Prod.fst fun _ _ => rfl
  have hlast := descends_propagate next Prod.snd fun _ _ => rfl
  exact (hfirst.comp hlast).unique hlast (fun _ _ => rfl) (count, count') b

/-- Numbers of inputs and depths do not depend on each other. -/
theorem setDepth_propagate (count depth : Int) (b : Block) :
    (b.propagate count).setDepth depth = (b.setDepth depth).propagate count := by
  let next (i : Int × Int) (shape : SlotShape) : Int × Int := (shape.inputs i.1, i.2 + 1)
  have hcount := descends_propagate next Prod.fst fun _ _ => rfl
  have hdepth := descends_setDepth next Prod.snd fun _ _ => rfl
  exact (hcount.comp hdepth).unique (hdepth.comp hcount) (fun _ _ => rfl) (count, depth) b

section Heads

variable {f : Head → Head}

/-- Numbers of inputs are given alike before and after heads were changed in other respects. -/
theorem mapHeads_propagate
    (hf : ∀ h n, f { h with inputCount := n } = { f h with inputCount := n }) (count : Int)
    (b : Block) : (b.propagate count).mapHeads f = (b.mapHeads f).propagate count := by
  let next (n : Int) (shape : SlotShape) : Int := shape.inputs n
  have hcount := descends_propagate next id fun _ _ => rfl
  have hheads := descends_mapHeads next f
  exact (hcount.comp hheads).unique (hheads.comp hcount) (fun n h => hf h n) count b

/-- A change of heads that forgets numbers of inputs does not see them given. -/
theorem mapHeads_propagate_eq (hf : ∀ h n, f { h with inputCount := n } = f h) (count : Int)
    (b : Block) : (b.propagate count).mapHeads f = b.mapHeads f := by
  let next (n : Int) (shape : SlotShape) : Int := shape.inputs n
  have hcount := descends_propagate next id fun _ _ => rfl
  have hheads := descends_mapHeads next f
  exact (hcount.comp hheads).unique hheads (fun n h => hf h n) count b

/-- A change of heads that forgets depths does not see them given. -/
theorem mapHeads_setDepth_eq (hf : ∀ h d, f { h with depth := d } = f h) (depth : Int)
    (b : Block) : (b.setDepth depth).mapHeads f = b.mapHeads f := by
  let next (d : Int) (_ : SlotShape) : Int := d + 1
  have hdepth := descends_setDepth next id fun _ _ => rfl
  have hheads := descends_mapHeads next f
  exact (hdepth.comp hheads).unique hheads (fun d h => hf h d) depth b

mutual

/-- A change of heads that forgets problems does not see a check, however far it got. -/
theorem mapHeads_checkWithin_eq (hf : ∀ h ps, f { h with problems := ps } = f h) (c : Catalog)
    (levels : Nat) : (b : Block) → (checkWithin c levels b).1.mapHeads f = b.mapHeads f
  | ⟨head, slots⟩ => by
    cases levels with
    | zero => rw [checkWithin]
    | succ levels =>
      have hslots := mapHeadsAll_checkSlots_eq hf c levels slots
      rw [checkWithin]
      split
      · rw [mapHeads, mapHeads, hslots, hf head]
      · split
        · rw [mapHeads, mapHeads, hslots, hf head]
        · rw [mapHeads, mapHeads, hslots, hf head]

theorem mapHeadsAll_checkSlots_eq (hf : ∀ h ps, f { h with problems := ps } = f h) (c : Catalog)
    (levels : Nat) : (slots : List Slot) →
      mapHeadsAll f (checkSlots c levels slots).slots = mapHeadsAll f slots
  | [] => by rw [checkSlots]
  | ⟨shape, none⟩ :: rest => by
    rw [checkSlots, SlotsChecked.after, mapHeadsAll, mapHeadsAll,
      mapHeadsAll_checkSlots_eq hf c levels rest]
  | ⟨shape, some b⟩ :: rest => by
    have hb := mapHeads_checkWithin_eq hf c levels b
    have hrest := mapHeadsAll_checkSlots_eq hf c levels rest
    rw [checkSlots]
    split
    · rename_i b' fault hcheck
      rw [hcheck] at hb
      rw [mapHeadsAll, mapHeadsAll, ← hb]
    · rename_i b' hcheck
      rw [hcheck] at hb
      rw [SlotsChecked.after, mapHeadsAll, mapHeadsAll, ← hb, hrest]

end

/-- A check that gets to the end answers with the tree that it reached. -/
theorem check_of_checked {c : Catalog} {b checked : Block} (h : b.checked c = .ok checked) :
    b.check c = (checked, none) := by
  unfold Block.checked at h
  split at h
  · rename_i b' hcheck
    rw [hcheck, Except.ok.inj h]
  · cases h

/-- A change of heads that forgets problems does not see a check that got to the end. -/
theorem mapHeads_checked_eq (hf : ∀ h ps, f { h with problems := ps } = f h) {c : Catalog}
    {b checked : Block} (h : b.checked c = .ok checked) : checked.mapHeads f = b.mapHeads f := by
  have hsame := mapHeads_checkWithin_eq hf c nestingLimit b
  have hdone : checkWithin c nestingLimit b = (checked, none) := check_of_checked h
  rwa [hdone] at hsame

mutual

/-- A change of heads that forgets what was done to one head does not see it done. -/
theorem mapHeads_updateFirst?_eq {p : Head → Bool} {g : Head → Head} (hg : ∀ h, f (g h) = f h) :
    (b b' : Block) → updateFirst? p g b = some b' → b'.mapHeads f = b.mapHeads f
  | ⟨head, slots⟩, b', h => by
    rw [updateFirst?] at h
    split at h
    · obtain rfl := Option.some.inj h
      rw [mapHeads, mapHeads, hg]
    · obtain ⟨slots', hslots', rfl⟩ := Option.map_eq_some_iff.mp h
      rw [mapHeads, mapHeads, mapHeadsAll_updateFirstIn?_eq hg slots slots' hslots']

theorem mapHeadsAll_updateFirstIn?_eq {p : Head → Bool} {g : Head → Head}
    (hg : ∀ h, f (g h) = f h) : (slots slots' : List Slot) →
      updateFirstIn? p g slots = some slots' → mapHeadsAll f slots' = mapHeadsAll f slots
  | [], _, h => by simp [updateFirstIn?] at h
  | ⟨shape, none⟩ :: rest, slots', h => by
    rw [updateFirstIn?] at h
    obtain ⟨rest', hrest', rfl⟩ := Option.map_eq_some_iff.mp h
    rw [mapHeadsAll, mapHeadsAll, mapHeadsAll_updateFirstIn?_eq hg rest rest' hrest']
  | ⟨shape, some b⟩ :: rest, slots', h => by
    have hb := mapHeads_updateFirst?_eq (p := p) hg b
    rw [updateFirstIn?] at h
    split at h
    · rename_i b' hb'
      obtain rfl := Option.some.inj h
      rw [mapHeadsAll, mapHeadsAll, hb b' hb']
    · obtain ⟨rest', hrest', rfl⟩ := Option.map_eq_some_iff.mp h
      rw [mapHeadsAll, mapHeadsAll, mapHeadsAll_updateFirstIn?_eq hg rest rest' hrest']

end

end Heads

/-! ## Laid out trees, one level at a time -/

theorem laidOutAll_iff {slots : List Slot} :
    LaidOutAll slots ↔ ∀ s ∈ slots, ∀ c ∈ s.occupant, c.LaidOut := by
  induction slots with
  | nil => simp [LaidOutAll]
  | cons s rest ih =>
    obtain ⟨shape, occupant⟩ := s
    cases occupant <;> simp [LaidOutAll, ih]

theorem laidOut_mk {head : Head} {slots : List Slot} :
    LaidOut ⟨head, slots⟩ ↔
      Slot.Follow head.layout slots ∧ ∀ s ∈ slots, ∀ c ∈ s.occupant, c.LaidOut := by
  rw [LaidOut, laidOutAll_iff]

/-- Going down a tree leaves it laid out, if kinds and parameters are left alone. -/
theorem Descends.laidOut {ι : Type} {next : ι → SlotShape → ι} {put : ι → Head → Head}
    {op : ι → Block → Block} (h : Descends next put op)
    (hput : ∀ i head, (put i head).kind = head.kind ∧ (put i head).params = head.params) (i : ι)
    {b : Block} (hb : b.LaidOut) : (op i b).LaidOut := by
  induction b using Block.induction generalizing i with
  | mk head slots ih =>
    rw [laidOut_mk] at hb
    have hlayout : (put i head).layout = head.layout := by
      rw [Head.layout, (hput i head).1, (hput i head).2]
      rfl
    rw [h, laidOut_mk, hlayout, List.forall_mem_map]
    refine ⟨hb.1.congr_shape ?_, fun s hs => ?_⟩
    · simp [Function.comp_def]
    · rw [Slot.forall_occupant_within]
      exact fun c hc => ih s hs c hc _ (hb.2 s hs c hc)

theorem LaidOut.propagate {b : Block} (h : b.LaidOut) (count : Int) :
    (b.propagate count).LaidOut := by
  let next (n : Int) (shape : SlotShape) : Int := shape.inputs n
  exact (descends_propagate next id fun _ _ => rfl).laidOut (fun _ _ => ⟨rfl, rfl⟩) count h

theorem LaidOut.clearTrace {b : Block} (h : b.LaidOut) : b.clearTrace.LaidOut := by
  let next (i : Unit) (_ : SlotShape) : Unit := i
  let clear (h : Head) : Head := { h with lastInput := none, lastOutput := none }
  exact (descends_mapHeads next clear).laidOut (fun _ _ => ⟨rfl, rfl⟩) () h

/-! ## Sizes and heights -/

theorem sizeAll_map_within {f : SlotShape → Block → Block} {slots : List Slot}
    (h : ∀ s ∈ slots, ∀ c ∈ s.occupant, (f s.shape c).size = c.size) :
    sizeAll (slots.map (Slot.within f)) = sizeAll slots := by
  induction slots with
  | nil => rfl
  | cons s rest ih =>
    obtain ⟨shape, occupant⟩ := s
    have hrest := ih fun s hs => h s (List.mem_cons_of_mem _ hs)
    cases occupant with
    | none => simpa [Slot.within, sizeAll] using hrest
    | some c =>
      have hc := h _ List.mem_cons_self c rfl
      simpa [Slot.within, sizeAll, hc] using hrest

/-- Going down a tree changes no size. -/
theorem Descends.size_eq {ι : Type} {next : ι → SlotShape → ι} {put : ι → Head → Head}
    {op : ι → Block → Block} (h : Descends next put op) (i : ι) (b : Block) :
    (op i b).size = b.size := by
  induction b using Block.induction generalizing i with
  | mk head slots ih => rw [h, size, size, sizeAll_map_within fun s hs c hc => ih s hs c hc _]

theorem size_mapHeads (f : Head → Head) (b : Block) : (b.mapHeads f).size = b.size :=
  (descends_mapHeads (fun i _ => i) f).size_eq () b

theorem size_setDepth (depth : Int) (b : Block) : (b.setDepth depth).size = b.size :=
  (descends_setDepth (fun d _ => d + 1) id fun _ _ => rfl).size_eq depth b

/-- Slots are as high as the highest of their occupants. -/
theorem heightAll_le_iff {slots : List Slot} {n : Nat} :
    heightAll slots ≤ n ↔ ∀ s ∈ slots, ∀ c ∈ s.occupant, c.height ≤ n := by
  induction slots with
  | nil => simp [heightAll]
  | cons s rest ih =>
    obtain ⟨shape, occupant⟩ := s
    cases occupant with
    | none => simp [heightAll, ih]
    | some b =>
      rw [heightAll, Nat.max_le, ih]
      simp

theorem heightAll_map_within {f : SlotShape → Block → Block} {slots : List Slot}
    (h : ∀ s ∈ slots, ∀ c ∈ s.occupant, (f s.shape c).height = c.height) :
    heightAll (slots.map (Slot.within f)) = heightAll slots := by
  induction slots with
  | nil => rfl
  | cons s rest ih =>
    obtain ⟨shape, occupant⟩ := s
    have hrest := ih fun s hs => h s (List.mem_cons_of_mem _ hs)
    cases occupant with
    | none => simpa [Slot.within, heightAll] using hrest
    | some c =>
      have hc := h _ List.mem_cons_self c rfl
      simp only [List.map_cons, Slot.within, Option.map_some, heightAll] at hrest ⊢
      rw [hrest, hc]

theorem height_mapHeads (f : Head → Head) (b : Block) : (b.mapHeads f).height = b.height := by
  induction b using Block.induction with
  | mk head slots ih => rw [mapHeads_mk, height, height, heightAll_map_within ih]

/-- Trees that differ in their heads only are of the same height. -/
theorem height_congr {f : Head → Head} {b b' : Block} (h : b.mapHeads f = b'.mapHeads f) :
    b.height = b'.height := by
  rw [← height_mapHeads f b, h, height_mapHeads]

/-! ## What holds of every block -/

theorem listingOf_append (stack rest : List Block) :
    listingOf (stack ++ rest) = listingOf stack ++ listingOf rest := by
  fun_induction listingOf stack with
  | case1 => rfl
  | case2 b stack ih =>
    rw [List.append_assoc] at ih
    rw [List.cons_append, listingOf, ih, List.cons_append]

/-- A stack lists what its trees list. -/
theorem mem_listingOf {stack : List Block} {c : Block} :
    c ∈ listingOf stack ↔ ∃ b ∈ stack, c ∈ b.listing := by
  induction stack with
  | nil => simp [listingOf]
  | cons b rest ih =>
    rw [← List.singleton_append, listingOf_append, List.mem_append, ih]
    simp [listing]

/-- Every block of a tree has a property. -/
def Every (P : Block → Prop) (b : Block) : Prop :=
  ∀ c ∈ b.listing, P c

section Every

variable {P Q : Block → Prop}

/-- What holds of every block of a tree holds of its root and of the blocks in its slots. -/
theorem every_mk {head : Head} {slots : List Slot} :
    Every P ⟨head, slots⟩ ↔ P ⟨head, slots⟩ ∧ ∀ s ∈ slots, ∀ c ∈ s.occupant, c.Every P := by
  unfold Every
  rw [listing, listingOf, List.append_nil, List.forall_mem_cons]
  refine and_congr Iff.rfl ⟨fun h s hs c hc d hd => ?_, fun h d hd => ?_⟩
  · exact h d (mem_listingOf.mpr ⟨c, List.mem_filterMap.mpr ⟨s, hs, hc⟩, hd⟩)
  · obtain ⟨c, hc, hd⟩ := mem_listingOf.mp hd
    obtain ⟨s, hs, hc⟩ := List.mem_filterMap.mp hc
    exact h s hs c hc d hd

theorem Every.root {b : Block} (h : b.Every P) : P b := by
  obtain ⟨head, slots⟩ := b
  exact (every_mk.mp h).1

theorem Every.imp (h : ∀ c, P c → Q c) {b : Block} (hb : b.Every P) : b.Every Q :=
  fun c hc => h c (hb c hc)

/-- A property that does not see a change of heads holds before it as after it. -/
theorem every_mapHeads {f : Head → Head} (hf : ∀ c, P (c.mapHeads f) ↔ P c) {b : Block} :
    (b.mapHeads f).Every P ↔ b.Every P := by
  induction b using Block.induction with
  | mk head slots ih =>
    have hroot := hf ⟨head, slots⟩
    rw [mapHeads_mk] at hroot ⊢
    rw [every_mk, every_mk, hroot, List.forall_mem_map]
    refine and_congr Iff.rfl (forall_congr' fun s => forall_congr' fun hs => ?_)
    rw [Slot.forall_occupant_within]
    exact forall_congr' fun c => forall_congr' fun hc => ih s hs c hc

/-- A property that does not see a change of heads holds of two trees alike that are the same after
the change. -/
theorem every_congr {f : Head → Head} {b b' : Block} (h : b.mapHeads f = b'.mapHeads f)
    (hf : ∀ c, P (c.mapHeads f) ↔ P c) : b.Every P ↔ b'.Every P := by
  rw [← every_mapHeads hf, h, every_mapHeads hf]

end Every

end Block

/-! ## Layouts of the standard catalogue -/

/-- The parameters of a block have the names and minimums that the standard catalogue says. -/
def Head.Fitted (h : Head) : Prop :=
  h.params.map (fun p => (p.name, p.minimum)) =
    (Catalog.entryOf h.kind).params.map fun p => (p.name, p.minimum)

/-- The layout of a block and the parameters it is to have go by its kind and its parameters. -/
theorem Head.layout_congr {h h' : Head} (hsame : h.kind = h'.kind ∧ h.params = h'.params) :
    h.layout = h'.layout ∧ (h.Fitted ↔ h'.Fitted) := by
  unfold layout Fitted
  rw [hsame.1, hsame.2]
  exact ⟨rfl, Iff.rfl⟩

/-- Every block of the tree has the parameters and the slots of its standard layout. -/
def Block.Conforms (b : Block) : Prop :=
  b.Every fun c => c.head.Fitted ∧ Slot.shapes c.slots = c.head.layout

theorem Block.conforms_mk {head : Head} {slots : List Slot} :
    Conforms ⟨head, slots⟩ ↔ (head.Fitted ∧ Slot.shapes slots = head.layout) ∧
      ∀ s ∈ slots, ∀ c ∈ s.occupant, c.Conforms :=
  every_mk

/-- To conform goes by kinds and parameters, and the slots that there are. -/
theorem Block.conforms_congr {f : Head → Head} {b b' : Block} (h : b.mapHeads f = b'.mapHeads f)
    (hf : ∀ h, (f h).kind = h.kind ∧ (f h).params = h.params) : b.Conforms ↔ b'.Conforms := by
  refine every_congr h fun c => ?_
  obtain ⟨hlayout, hfitted⟩ := Head.layout_congr (hf c.head)
  rw [head_mapHeads, hlayout, hfitted, slots_mapHeads, Slot.shapes, List.map_map]
  rfl

theorem toString_inj {m n : Nat} (h : toString m = toString n) : m = n := by
  rw [Nat.toString_eq_ofList_toDigits, Nat.toString_eq_ofList_toDigits, String.ofList_inj] at h
  rw [← Nat.ofDigitChars_ten_toDigits (n := m), h, Nat.ofDigitChars_ten_toDigits]

theorem nodup_compositionSlots (size : Int) :
    ((compositionSlots size).map SlotShape.name).Nodup := by
  simp only [compositionSlots, List.map_cons, List.map_map, List.nodup_cons]
  constructor
  · intro hmem
    obtain ⟨i, -, hi⟩ := List.mem_map.mp hmem
    exact Rule.part_ne_outer (i + 1) hi
  · refine List.Nodup.map ?_ List.nodup_range
    intro i j hij
    exact Nat.succ.inj (toString_inj (String.append_right_inj _ |>.mp hij))

/-- No name stands twice in a layout. -/
theorem Head.nodup_layout (h : Head) : (h.layout.map SlotShape.name).Nodup := by
  unfold layout Entry.layout
  split
  · exact nodup_compositionSlots _
  · cases h.kind <;> decide

namespace Slot

/-- Among slots of distinct names, a name finds its occupant. -/
theorem lastOccupant?_of_mem {slots : List Slot} {s : Slot}
    (hnames : (slots.map fun s => s.shape.name).Nodup) (hs : s ∈ slots) :
    lastOccupant? s.shape.name slots = s.occupant := by
  unfold lastOccupant?
  cases hfind : slots.reverse.find? fun t => t.shape.name == s.shape.name with
  | none =>
    have hne := List.find?_eq_none.mp hfind s (List.mem_reverse.mpr hs)
    simp at hne
  | some t =>
    have hname : t.shape.name = s.shape.name := by simpa using List.find?_some hfind
    have ht : t ∈ slots := List.mem_reverse.mp (List.mem_of_find?_eq_some hfind)
    rw [List.inj_on_of_nodup_map hnames ht hs hname]
    rfl

/-- What laying out slots anew puts into them was in one of the old slots. -/
theorem exists_of_mem_reconcile {old : List Slot} {layout : List SlotShape} {s : Slot} {c : Block}
    (hs : s ∈ reconcile old layout) (hc : c ∈ s.occupant) : ∃ t ∈ old, c ∈ t.occupant := by
  obtain ⟨shape, -, rfl⟩ := List.mem_map.mp hs
  obtain ⟨t, ht, hct⟩ := Option.bind_eq_some_iff.mp hc
  exact ⟨t, List.mem_reverse.mp (List.mem_of_find?_eq_some ht), hct⟩

@[simp] theorem shapes_reconcile (old : List Slot) (layout : List SlotShape) :
    shapes (reconcile old layout) = layout := by
  simp [shapes, reconcile, Function.comp_def]

/-- A slot of which only the name is known. -/
def bare (s : Slot) : Slot :=
  ⟨{ name := s.shape.name }, s.occupant⟩

/-- Slots of distinct names come back from their names and occupants. -/
theorem reconcile_bare {slots : List Slot} (hnames : (slots.map fun s => s.shape.name).Nodup) :
    reconcile (slots.map bare) (shapes slots) = slots := by
  unfold reconcile shapes
  rw [List.map_map]
  refine (List.map_congr_left (g := fun s => s) fun s hs => ?_).trans (List.map_id' slots)
  have hbare : ((slots.map bare).map fun s => s.shape.name).Nodup := by
    simpa [bare, Function.comp_def] using hnames
  have hfound := lastOccupant?_of_mem hbare (List.mem_map_of_mem (f := bare) hs)
  obtain ⟨shape, occupant⟩ := s
  exact congrArg (Slot.mk shape) hfound

end Slot

end BlockCalculus
