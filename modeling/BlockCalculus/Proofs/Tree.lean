import BlockCalculus.Block.Arity
import BlockCalculus.Evaluation.Walk

/-!
# Looking into trees

What a position or a slot name leads to, and what becomes of it under `mapHeads`, which changes the
heads of a tree and leaves its shape alone.

* `child?_eq_seek?`, `at?_of_seek?`: finding by name is finding by the index of the slot.
* `at?_mapHeads`, `seek?_mapHeads`: changing heads commutes with finding blocks.
* `clearTrace_record`: noting a step is undone by forgetting the notes.
-/

namespace BlockCalculus

/-! ## Slots by name -/

/-- What a name leads to is the occupant of the slot with the index found. -/
theorem Slot.getElem?_of_seek? {name : String} {slots : List Slot} {i : Nat} {c : Block}
    (h : Slot.seek? name slots = some (i, c)) :
    ∃ shape, slots[i]? = some ⟨shape, some c⟩ ∧ shape.name = name := by
  induction slots generalizing i with
  | nil => simp [seek?] at h
  | cons s rest ih =>
    obtain ⟨shape, occupant⟩ := s
    unfold seek? at h
    split at h
    · rename_i hname
      obtain ⟨b, rfl, hb⟩ := Option.map_eq_some_iff.mp h
      obtain ⟨rfl, rfl⟩ := Prod.mk.inj hb
      exact ⟨shape, rfl, hname⟩
    · obtain ⟨⟨j, d⟩, hj, hd⟩ := Option.map_eq_some_iff.mp h
      obtain ⟨rfl, rfl⟩ := Prod.mk.inj hd
      obtain ⟨shape', hget, hname⟩ := ih hj
      exact ⟨shape', by simpa using hget, hname⟩

namespace Block

theorem child?_eq_seek? (name : String) (b : Block) :
    b.child? name = (Slot.seek? name b.slots).map Prod.snd := by
  obtain ⟨head, slots⟩ := b
  simp only [child?, slot?]
  induction slots with
  | nil => simp [Slot.seek?]
  | cons s rest ih =>
    rw [Slot.seek?, List.find?_cons]
    by_cases hname : s.shape.name = name
    · have hb : (s.shape.name == name) = true := by simpa using hname
      rw [hb, if_pos hname]
      simp [Function.comp_def]
    · have hb : (s.shape.name == name) = false := by simpa using hname
      rw [hb, if_neg hname]
      simp [ih, Function.comp_def]

theorem seek?_eq_some_of_child? {name : String} {b c : Block} (h : b.child? name = some c) :
    ∃ i, Slot.seek? name b.slots = some (i, c) := by
  rw [child?_eq_seek?] at h
  obtain ⟨⟨i, d⟩, hd, rfl⟩ := Option.map_eq_some_iff.mp h
  exact ⟨i, hd⟩

theorem child?_of_seek? {name : String} {b c : Block} {i : Nat}
    (h : Slot.seek? name b.slots = some (i, c)) : b.child? name = some c := by
  rw [child?_eq_seek?, h, Option.map_some]

/-! ## Positions -/

/-- The occupant of a slot is one index further. -/
theorem at?_of_seek? {tree b c : Block} {p : Position} {name : String} {i : Nat}
    (hb : tree.at? p = some b) (hc : Slot.seek? name b.slots = some (i, c)) :
    tree.at? (p ++ [i]) = some c := by
  obtain ⟨shape, hget, -⟩ := Slot.getElem?_of_seek? hc
  rw [at?_append, hb, Option.bind_some, at?, hget]
  exact at?_nil c

/-! ## Changing every head -/

theorem mapHeadsAll_eq_map (f : Head → Head) (slots : List Slot) :
    mapHeadsAll f slots =
      slots.map fun s => { s with occupant := s.occupant.map (mapHeads f) } := by
  induction slots with
  | nil => rw [mapHeadsAll, List.map_nil]
  | cons s rest ih =>
    obtain ⟨shape, occupant⟩ := s
    cases occupant with
    | none => simp [mapHeadsAll, ih]
    | some b => simp [mapHeadsAll, ih]

@[simp] theorem head_mapHeads (f : Head → Head) (b : Block) : (b.mapHeads f).head = f b.head := by
  obtain ⟨head, slots⟩ := b
  rw [mapHeads]

theorem slots_mapHeads (f : Head → Head) (b : Block) :
    (b.mapHeads f).slots =
      b.slots.map fun s => { s with occupant := s.occupant.map (mapHeads f) } := by
  obtain ⟨head, slots⟩ := b
  rw [mapHeads, mapHeadsAll_eq_map]

theorem eq_mapHeads_mk (f : Head → Head) (b : Block) :
    b.mapHeads f = ⟨f b.head, b.slots.map fun s =>
      { s with occupant := s.occupant.map (mapHeads f) }⟩ := by
  obtain ⟨head, slots⟩ := b
  rw [mapHeads, mapHeadsAll_eq_map]

/-- A name leads to the same slot after heads were changed. -/
theorem seek?_mapHeads (f : Head → Head) (name : String) (b : Block) :
    Slot.seek? name (b.mapHeads f).slots =
      (Slot.seek? name b.slots).map fun found => (found.1, found.2.mapHeads f) := by
  rw [slots_mapHeads]
  induction b.slots with
  | nil => simp [Slot.seek?]
  | cons s rest ih =>
    simp only [List.map_cons, Slot.seek?]
    split
    · cases s.occupant <;> simp
    · rw [ih]
      simp [Function.comp_def]

theorem child?_mapHeads (f : Head → Head) (name : String) (b : Block) :
    (b.mapHeads f).child? name = (b.child? name).map (mapHeads f) := by
  rw [child?_eq_seek?, child?_eq_seek?, seek?_mapHeads]
  simp [Function.comp_def]

theorem param?_mapHeads {f : Head → Head} (hf : ∀ h, (f h).params = h.params) (name : String)
    (b : Block) : (b.mapHeads f).param? name = b.param? name := by
  rw [param?, head_mapHeads, hf]
  rfl

/-- A position leads to the same block after heads were changed. -/
theorem at?_mapHeads (f : Head → Head) (p : Position) (b : Block) :
    (b.mapHeads f).at? p = (b.at? p).map (mapHeads f) := by
  induction p generalizing b with
  | nil => simp
  | cons i rest ih =>
    rw [at?, at?, slots_mapHeads, List.getElem?_map]
    cases h : b.slots[i]? with
    | none => simp
    | some s =>
      obtain ⟨shape, occupant⟩ := s
      cases occupant with
      | none => simp
      | some c => simpa using ih c

/-- A change at one position is lost on `mapHeads` if it is lost there. -/
theorem mapHeads_modifyAt {f : Head → Head} {g : Block → Block}
    (hg : ∀ b, (g b).mapHeads f = b.mapHeads f) (p : Position) (b : Block) :
    (b.modifyAt g p).mapHeads f = b.mapHeads f := by
  induction p generalizing b with
  | nil => rw [modifyAt]; exact hg b
  | cons i rest ih =>
    rw [modifyAt, eq_mapHeads_mk, eq_mapHeads_mk f b]
    congr 1
    apply List.ext_getElem?
    intro j
    rw [List.getElem?_map, List.getElem?_map, List.getElem?_modify]
    cases h : b.slots[j]? with
    | none => simp
    | some s =>
      by_cases hij : i = j
      · simp [hij, Function.comp_def, ih]
      · simp [hij]

/-! ## Notes of evaluations -/

/-- Noting a step on a tree changes nothing but notes. -/
@[simp] theorem clearTrace_record (s : Step) (b : Block) :
    (s.record b).clearTrace = b.clearTrace := by
  refine mapHeads_modifyAt (fun b => ?_) s.position b
  rw [eq_mapHeads_mk, eq_mapHeads_mk _ b]
  rfl

/-! ## A tree to look at -/

/-- The sum of two inputs, by recursion on the second. -/
def plus : Block :=
  let projection (id : String) (i : Int) : Block :=
    ⟨{ kind := .projection, id, params := [⟨"i", i, 1⟩] }, []⟩
  let next : Block :=
    ⟨{ kind := .composition, id := "next", params := [⟨"m", 1, 0⟩] },
      [⟨{ name := "f", descriptor := 1, exact := some 1 },
          some ⟨{ kind := .successor, id := "successor" }, []⟩⟩,
        ⟨{ name := "g1" }, some (projection "previous" 3)⟩]⟩
  ⟨{ kind := .primitiveRecursion, id := "plus" },
    [⟨Catalog.baseCase, some (projection "first" 1)⟩, ⟨Catalog.recursiveCase, some next⟩]⟩

end Block

end BlockCalculus
