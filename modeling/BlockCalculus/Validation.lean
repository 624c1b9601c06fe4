import BlockCalculus.Block.Edit
import BlockCalculus.Text.Numeral

/-!
# Checking trees

`annotate` gives every block of a tree its list of problems anew: slot by slot, one mark for an
occupant with problems and one problem for an empty slot, and then what the check of the block's
own kind finds.

Problems are told in words, so a block whose problem cannot be put into words ends the check, and so
does one that lies too deep. `check` gives problems block by block, in the order in which the blocks
are done with, and answers with the tree as far as it got. If nothing ends it, that is what
`annotate` gives (`eq_annotate_of_checkWithin`).
-/

namespace BlockCalculus

/-- What the check of a kind finds wrong with a block, apart from its slots. -/
def Kind.problems (kind : Kind) (h : Head) : List Problem :=
  match kind with
  | .successor => if h.inputCount = 1 then [] else [.successorInputs h.inputCount]
  | .projection =>
    if h.inputCount ≤ 0 then [.projectionInputs]
    else
      match Param.value? "i" h.params with
      | none => [.projectionIndexMissing]
      | some i =>
        if i < 1 ∨ h.inputCount < i then [.projectionIndexRange h.inputCount i] else []
  | .composition =>
    match Param.value? "m" h.params with
    | none => [.compositionSizeMissing]
    | some m => if m < 0 then [.compositionSizeNegative m] else []
  | .primitiveRecursion => if h.inputCount < 1 then [.recursionInputs] else []
  | .zero | .minimization | .custom => []

/-- What a catalogue finds wrong with a block, apart from its slots. -/
def Catalog.problems (c : Catalog) (h : Head) : List Problem :=
  match c.lookup? h.kind with
  | some entry => entry.check.problems h
  | none => [.unknownKind h.kind]

/-- What a block makes of the state of a slot. -/
def Slot.problems (s : Slot) : List Problem :=
  match s.occupant with
  | some b => if b.head.problems.isEmpty then [] else [.inChildren]
  | none => [.missing s.shape.name]

/-- Whether a problem can be put into words. -/
def Problem.isWritable : Problem → Bool
  | successorInputs count => Text.isWritable count
  | projectionIndexRange count index => Text.isWritable count && Text.isWritable index
  | compositionSizeNegative size => Text.isWritable size
  | _ => true

/-- Slots as far as a check got with them, the problems that follow from them, and why the check
ended there if it did. -/
structure SlotsChecked where
  slots : List Slot := []
  problems : List Problem := []
  fault : Option Fault := none

/-- Adds the slot in front, which was checked before. -/
def SlotsChecked.after (s : Slot) (r : SlotsChecked) : SlotsChecked :=
  { r with slots := s :: r.slots, problems := s.problems ++ r.problems }

namespace Block

mutual

/-- Gives every block of a tree its problems. -/
def annotate (c : Catalog) : Block → Block
  | ⟨head, slots⟩ =>
    let slots' := annotateAll c slots
    ⟨{ head with problems := slots'.flatMap Slot.problems ++ c.problems head }, slots'⟩

/-- Gives every block in slots its problems. -/
def annotateAll (c : Catalog) : List Slot → List Slot
  | [] => []
  | ⟨shape, none⟩ :: rest => ⟨shape, none⟩ :: annotateAll c rest
  | ⟨shape, some b⟩ :: rest => ⟨shape, some (annotate c b)⟩ :: annotateAll c rest

end

mutual

/-- Checks a tree, descending at most `levels` levels (`check_for_errors`). The answer is the tree
as far as the check got, and why it ended there if it did. -/
def checkWithin (c : Catalog) (levels : Nat) : Block → Block × Option Fault
  | ⟨head, slots⟩ =>
    match levels with
    | 0 => (⟨head, slots⟩, some .nesting)
    | levels + 1 =>
      let r := checkSlots c levels slots
      let own := c.problems head
      match r.fault with
      | some f => (⟨{ head with problems := r.problems }, r.slots⟩, some f)
      | none =>
        if own.all Problem.isWritable then
          (⟨{ head with problems := r.problems ++ own }, r.slots⟩, none)
        else (⟨{ head with problems := r.problems }, r.slots⟩, some .unwritable)

/-- Checks the blocks in slots, one after the other. -/
def checkSlots (c : Catalog) (levels : Nat) : List Slot → SlotsChecked
  | [] => {}
  | ⟨shape, none⟩ :: rest => (checkSlots c levels rest).after ⟨shape, none⟩
  | ⟨shape, some b⟩ :: rest =>
    match checkWithin c levels b with
    | (b', some f) => ⟨⟨shape, some b'⟩ :: rest, [], some f⟩
    | (b', none) => (checkSlots c levels rest).after ⟨shape, some b'⟩

end

mutual

/-- A check that gets to the end of a tree gives every block its problems. -/
theorem eq_annotate_of_checkWithin (c : Catalog) (levels : Nat) :
    (b b' : Block) → checkWithin c levels b = (b', none) → b' = annotate c b
  | ⟨head, slots⟩, b', h => by
    cases levels with
    | zero => simp [checkWithin] at h
    | succ levels =>
      have ih := checkSlots_eq_annotateAll c levels slots
      simp only [checkWithin] at h
      split at h
      · simp at h
      · next hf =>
        obtain ⟨hs, hp⟩ := ih hf
        split at h
        · simp only [Prod.mk.injEq, and_true] at h
          rw [← h, annotate, hs, hp]
        · simp at h

/-- A check that gets to the end of slots gives every block in them its problems. -/
theorem checkSlots_eq_annotateAll (c : Catalog) (levels : Nat) :
    (slots : List Slot) → (checkSlots c levels slots).fault = none →
      (checkSlots c levels slots).slots = annotateAll c slots ∧
      (checkSlots c levels slots).problems = (annotateAll c slots).flatMap Slot.problems
  | [], _ => by simp [checkSlots, annotateAll]
  | ⟨shape, none⟩ :: rest, h => by
    simp only [checkSlots, SlotsChecked.after] at h ⊢
    obtain ⟨hs, hp⟩ := checkSlots_eq_annotateAll c levels rest h
    simp [annotateAll, hs, hp]
  | ⟨shape, some b⟩ :: rest, h => by
    have hb := eq_annotate_of_checkWithin c levels b
    simp only [checkSlots] at h ⊢
    split at h
    · simp at h
    · next b' hc =>
      obtain ⟨hs, hp⟩ := checkSlots_eq_annotateAll c levels rest h
      simp [annotateAll, SlotsChecked.after, hs, hp, hb b' hc]

end

/-- Checks a tree. -/
def check (c : Catalog) (b : Block) : Block × Option Fault :=
  b.checkWithin c nestingLimit

/-- Checks a tree, which has to get to the end. -/
def checked (c : Catalog) (b : Block) : Except Fault Block :=
  match b.check c with
  | (b', none) => .ok b'
  | (_, some f) => .error f

end Block

end BlockCalculus
