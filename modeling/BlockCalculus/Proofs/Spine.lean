import BlockCalculus.Proofs.Ids
import BlockCalculus.Proofs.Strict

/-!
# A check marks the way to every problem

A check goes by what is near: a block is marked for each of its slots whose occupant has problems,
whatever they are. Yet a mark says something about all the blocks below: one of them has a problem
that is no mark (`Faulty`). So the marks are on the blocks above the problems and nowhere else, and
a root without problems stands for a tree without problems.

The lines about a tree are found by another way down the tree, which lists its blocks in pre-order
(`Command.heads_withPaths`). There is one line for every problem that is no mark.

* `every_marked`: the problems of every block of a tree that was checked.
* `every_nil_of_annotate`, `nil_of_not_faulty`: no problems at the root, no problems at all.
* `Command.length_problemLines`: how many lines there are.
* `annotate_annotate`: a second check finds what the first one found.
* `check_marks_spine`: the main result.
-/

namespace BlockCalculus

/-! ## Marks in words -/

namespace Problem

/-- The letter that a problem in words begins with. -/
def initial : Problem → Char
  | inChildren => 'E'
  | missing _ => 'M'
  | unknownKind _ => 'U'
  | successorInputs _ => 'S'
  | projectionInputs | projectionIndexMissing | projectionIndexRange _ _ | recursionInputs => 'P'
  | compositionSizeMissing | compositionSizeNegative _ => 'C'

/-- A text begins as the first of its parts does. -/
theorem head?_append {start : String} {letter : Char} (h : start.toList.head? = some letter)
    (rest : String) : (start ++ rest).toList.head? = some letter := by
  rw [String.toList_append, List.head?_append, h, Option.some_or]

theorem head?_message (p : Problem) : p.message.toList.head? = some p.initial := by
  cases p with
  | inChildren | projectionInputs | projectionIndexMissing | compositionSizeMissing
    | recursionInputs => rfl
  | missing slot => exact head?_append (head?_append rfl slot) _
  | unknownKind kind => exact head?_append rfl kind.name
  | successorInputs count => exact head?_append (head?_append rfl (toString count)) _
  | projectionIndexRange count index =>
    exact head?_append (head?_append (head?_append (head?_append rfl (toString count)) _)
      (toString index)) _
  | compositionSizeNegative size => exact head?_append (head?_append rfl (toString size)) _

/-- **A mark can be told by its words**, which no other problem has. -/
theorem message_eq_iff {p : Problem} : p.message = inChildren.message ↔ p = .inChildren := by
  refine ⟨fun h => ?_, fun h => by rw [h]⟩
  have hinitial : some p.initial = some inChildren.initial := by
    rw [← head?_message, h, head?_message]
  cases p with
  | inChildren => rfl
  | _ => simp [initial] at hinitial

end Problem

namespace Block

/-! ## Problems that are no marks -/

/-- A block of the tree has a problem that is not the mark for problems further down. -/
def Faulty (b : Block) : Prop :=
  ∃ d ∈ b.listing, ∃ p ∈ d.head.problems, p ≠ .inChildren

instance (b : Block) : Decidable b.Faulty :=
  inferInstanceAs (Decidable (∃ d ∈ b.listing, ∃ p ∈ d.head.problems, p ≠ .inChildren))

theorem not_faulty_iff {b : Block} :
    ¬ b.Faulty ↔ b.Every fun d => ∀ p ∈ d.head.problems, p = .inChildren := by
  simp [Faulty, Every]

end Block

/-- What a slot adds to the problems of its block: a mark if something is wrong with a block of the
tree in it, or that it is empty. -/
def Slot.marks (s : Slot) : List Problem :=
  match s.occupant with
  | some b => if b.Faulty then [.inChildren] else []
  | none => [.missing s.shape.name]

namespace Block

section Annotate

variable {c : Catalog} {b : Block}

theorem annotate_mk (c : Catalog) (head : Head) (slots : List Slot) :
    annotate c ⟨head, slots⟩ =
      let slots' := slots.map (Slot.within fun _ => annotate c)
      ⟨{ head with problems := slots'.flatMap Slot.problems ++ c.problems head }, slots'⟩ := by
  rw [annotate, Command.annotateAll_eq_map]
  rfl

/-- What a slot of an annotated block adds to its problems is nothing if and only if there is an
occupant without problems. -/
theorem problems_within_annotate {s : Slot} :
    (s.within fun _ => annotate c).problems = [] ↔
      ∃ d, s.occupant = some d ∧ (d.annotate c).head.problems = [] := by
  obtain ⟨shape, occupant⟩ := s
  cases occupant with
  | none => simp [Slot.problems, Slot.within]
  | some d => simp [Slot.problems, Slot.within]

/-- **A root without problems stands for a tree without problems.** -/
theorem every_nil_of_annotate (h : (b.annotate c).head.problems = []) :
    (b.annotate c).Every fun d => d.head.problems = [] := by
  induction b using Block.induction with
  | mk head slots ih =>
    rw [annotate_mk] at h ⊢
    rw [every_mk]
    refine ⟨h, ?_⟩
    obtain ⟨hslots, -⟩ := List.append_eq_nil_iff.mp h
    rw [List.flatMap_eq_nil_iff, List.forall_mem_map] at hslots
    rw [List.forall_mem_map]
    intro s hs
    obtain ⟨d, hd, hnil⟩ := problems_within_annotate.mp (hslots s hs)
    rw [Slot.forall_occupant_within]
    intro d' hd'
    obtain rfl : d = d' := Option.some.inj (hd.symm.trans hd')
    exact ih s hs d hd hnil

/-- **A mark is never alone**: if nothing but marks is found, nothing is. -/
theorem nil_of_not_faulty (h : ¬ (b.annotate c).Faulty) : (b.annotate c).head.problems = [] := by
  induction b using Block.induction with
  | mk head slots ih =>
    rw [annotate_mk, not_faulty_iff, every_mk] at h
    obtain ⟨hroot, hin⟩ := h
    rw [List.forall_mem_map] at hin
    rw [annotate_mk]
    refine List.append_eq_nil_iff.mpr ⟨List.flatMap_eq_nil_iff.mpr ?_, ?_⟩
    · rw [List.forall_mem_map]
      intro s hs
      cases hd : s.occupant with
      | none =>
        -- an empty slot is a problem that is no mark
        have hmissing : .missing s.shape.name ∈ (s.within fun _ => annotate c).problems := by
          simp [Slot.problems, hd]
        have hmark := hroot _ (List.mem_append_left _
          (List.mem_flatMap.mpr ⟨_, List.mem_map_of_mem hs, hmissing⟩))
        cases hmark
      | some d =>
        refine problems_within_annotate.mpr ⟨d, hd, ih s hs d hd (not_faulty_iff.mpr ?_)⟩
        exact Slot.forall_occupant_within.mp (hin s hs) d hd
    · refine List.eq_nil_iff_forall_not_mem.mpr fun p hp => ?_
      have hmark : p = .inChildren := hroot p (List.mem_append_right _ hp)
      exact Command.inChildren_notMem_problems c head (hmark ▸ hp)

theorem problems_annotate_eq_nil_iff :
    (b.annotate c).head.problems = [] ↔ ¬ (b.annotate c).Faulty := by
  refine ⟨fun h => not_faulty_iff.mpr ?_, nil_of_not_faulty⟩
  refine (every_nil_of_annotate h).imp fun d hd p hp => ?_
  rw [hd] at hp
  exact absurd hp List.not_mem_nil

/-- What a slot adds goes by the root of its occupant, and so by all the blocks below. -/
theorem problems_eq_marks (s : Slot) :
    (s.within fun _ => annotate c).problems = (s.within fun _ => annotate c).marks := by
  obtain ⟨shape, occupant⟩ := s
  cases occupant with
  | none => rfl
  | some d =>
    have hnil := problems_annotate_eq_nil_iff (c := c) (b := d)
    by_cases hfaulty : (d.annotate c).Faulty
    · simp [Slot.problems, Slot.marks, hfaulty, hnil]
    · simp [Slot.problems, Slot.marks, hfaulty, hnil.mpr hfaulty]

/-- **The problems of every block**: the marks of its slots, and what its kind finds. -/
theorem every_marked (c : Catalog) (b : Block) :
    (b.annotate c).Every fun d =>
      d.head.problems = d.slots.flatMap Slot.marks ++ c.problems d.head := by
  induction b using Block.induction with
  | mk head slots ih =>
    rw [annotate_mk, every_mk]
    constructor
    · have hmarks : (slots.map (Slot.within fun _ => annotate c)).flatMap Slot.problems =
          (slots.map (Slot.within fun _ => annotate c)).flatMap Slot.marks := by
        simp only [List.flatMap_map, problems_eq_marks]
      dsimp only
      rw [hmarks]
      rfl
    · rw [List.forall_mem_map]
      intro s hs
      rw [Slot.forall_occupant_within]
      exact fun d hd => ih s hs d hd

end Annotate

/-! ## Checking twice -/

/-- The tree without problems. -/
def unchecked (b : Block) : Block :=
  b.mapHeads fun h => { h with problems := [] }

theorem unchecked_mk (head : Head) (slots : List Slot) :
    unchecked ⟨head, slots⟩ =
      ⟨{ head with problems := [] }, slots.map (Slot.within fun _ => unchecked)⟩ :=
  mapHeads_mk _ head slots

/-- Problems are given anew, whatever there was before. -/
theorem annotate_unchecked (c : Catalog) (b : Block) : b.unchecked.annotate c = b.annotate c := by
  induction b using Block.induction with
  | mk head slots ih =>
    have hslots : slots.map (Slot.within fun _ d => d.unchecked.annotate c) =
        slots.map (Slot.within fun _ => annotate c) :=
      Slot.map_within_congr ih
    rw [unchecked_mk, annotate_mk, annotate_mk, Slot.map_within_within, hslots]
    rfl

theorem unchecked_annotate (c : Catalog) (b : Block) : (b.annotate c).unchecked = b.unchecked := by
  induction b using Block.induction with
  | mk head slots ih =>
    have hslots : slots.map (Slot.within fun _ d => (d.annotate c).unchecked) =
        slots.map (Slot.within fun _ => unchecked) :=
      Slot.map_within_congr ih
    rw [annotate_mk, unchecked_mk, unchecked_mk, Slot.map_within_within, hslots]

theorem annotate_annotate (c : Catalog) (b : Block) :
    (b.annotate c).annotate c = b.annotate c := by
  rw [← annotate_unchecked c (b.annotate c), unchecked_annotate, annotate_unchecked]

/-- Whether all problems can be put into words does not depend on those found before. -/
theorem tellable_unchecked {c : Catalog} {b b' : Block} (h : b.unchecked = b'.unchecked) :
    b.Tellable c ↔ b'.Tellable c :=
  every_congr h fun _ => by rw [head_mapHeads]; rfl

/-- A check that gets to the end of a tree finds there what `annotate` finds. -/
theorem check_of_tellable {c : Catalog} {b : Block} (hheight : b.height ≤ nestingLimit)
    (h : b.Tellable c) : b.check c = (b.annotate c, none) := by
  rcases checkWithin_decides (c := c) hheight with ⟨hnone, -⟩ | ⟨-, hnot⟩
  · exact Prod.ext (eq_annotate_of_checkWithin c nestingLimit b _ (Prod.ext rfl hnone)) hnone
  · exact absurd h hnot

end Block

/-! ## The lines about a tree -/

namespace Command

open Block

/-- **The lines go by the same blocks as the listing**, in the same order. -/
theorem heads_withPaths (path : String) (b : Block) :
    (withPaths path b).map Prod.snd = b.listing.map Block.head := by
  induction b using Block.induction generalizing path with
  | mk head slots ih =>
    have hslots : (slotsWithPaths path slots).map Prod.snd =
        ((Slot.occupants slots).flatMap listing).map Block.head := by
      induction slots with
      | nil => rfl
      | cons s rest ihrest =>
        have hrest := ihrest fun t ht => ih t (List.mem_cons_of_mem s ht)
        obtain ⟨shape, occupant⟩ := s
        cases occupant with
        | none =>
          rw [slotsWithPaths, hrest]
          rfl
        | some d =>
          have hd := ih _ List.mem_cons_self d rfl (path ++ "/" ++ shape.name)
          rw [slotsWithPaths, List.map_append, hd, hrest]
          simp [Slot.occupants]
    rw [withPaths, listing_mk, List.map_cons, List.map_cons, hslots]

/-- **There is one line for every problem that is no mark.** -/
theorem length_problemLines (root : Block) :
    (problemLines root).length =
      (root.listing.flatMap fun d => d.head.problems.filter (· ≠ .inChildren)).length := by
  have hheads := congrArg (List.flatMap fun h : Head => h.problems.filter (· ≠ .inChildren))
    (heads_withPaths root.head.label root)
  rw [List.flatMap_map, List.flatMap_map] at hheads
  rw [← hheads, problemLines, List.length_flatMap, List.length_flatMap]
  simp

theorem problemLines_eq_nil_iff (root : Block) : problemLines root = [] ↔ ¬ root.Faulty := by
  rw [← List.length_eq_zero_iff, length_problemLines, List.length_eq_zero_iff,
    List.flatMap_eq_nil_iff, not_faulty_iff]
  simp [Every]

end Command

namespace Block

/-- **A check marks exactly the way to every problem.** A tree that is not too deep is checked to
the end if and only if all problems can be put into words, and whatever its blocks had for problems
before, nothing but problems changes. Then every block has, slot by slot, one mark for an occupied
slot below which there is a problem that is no mark, one problem for an empty slot, and last what
its kind finds. The root has no problems if and only if no block has, and if and only if no line is
printed; as many lines are printed as there are problems that are no marks. A second check changes
nothing. Marks are told by their words. -/
theorem check_marks_spine (c : Catalog) (tree : Block) (hheight : tree.height ≤ nestingLimit) :
    let checked := (tree.check c).1
    checked.unchecked = tree.unchecked ∧
    ((tree.check c).2 = none ↔ tree.Tellable c) ∧
    (¬ tree.Tellable c → (tree.check c).2 = some .unwritable) ∧
    (tree.Tellable c →
      (∀ p d, checked.at? p = some d →
        d.head.problems = d.slots.flatMap Slot.marks ++ c.problems d.head) ∧
      (checked.head.problems = [] ↔ ∀ d ∈ checked.listing, d.head.problems = []) ∧
      (checked.head.problems = [] ↔ Command.problemLines checked = []) ∧
      (Command.problemLines checked).length =
        (checked.listing.flatMap fun d => d.head.problems.filter (· ≠ .inChildren)).length ∧
      checked.check c = (checked, none)) ∧
    ∀ p : Problem, p.message = Problem.inChildren.message ↔ p = .inChildren := by
  dsimp only
  refine ⟨mapHeads_checkWithin_eq (fun _ _ => rfl) c nestingLimit tree, ?_, ?_, ?_,
    fun _ => Problem.message_eq_iff⟩
  · constructor
    · intro hnone
      rcases checkWithin_decides (c := c) hheight with ⟨-, htellable⟩ | ⟨hfault, -⟩
      · exact htellable
      · cases hnone.symm.trans hfault
    · exact fun htellable => by rw [check_of_tellable hheight htellable]
  · intro hnot
    rcases checkWithin_decides (c := c) hheight with ⟨-, htellable⟩ | ⟨hfault, -⟩
    · exact absurd htellable hnot
    · exact hfault
  · intro htellable
    rw [check_of_tellable hheight htellable]
    dsimp only
    refine ⟨fun p d hd => ?_, ⟨fun h => every_nil_of_annotate h, fun h => ?_⟩, ?_,
      Command.length_problemLines _, ?_⟩
    · exact every_marked c tree d (mem_listing_iff.mpr ⟨p, hd⟩)
    · exact Every.root (P := fun d => d.head.problems = []) h
    · rw [problems_annotate_eq_nil_iff, Command.problemLines_eq_nil_iff]
    · have hheight' : (tree.annotate c).height ≤ nestingLimit := by
        rwa [height_congr (unchecked_annotate c tree)]
      have htellable' := (tellable_unchecked (unchecked_annotate c tree)).mpr htellable
      rw [check_of_tellable hheight' htellable', annotate_annotate]

/-- A search for a zero of a successor of two inputs, with a problem left from before. -/
def flawed : Block :=
  ⟨{ kind := .minimization, id := "a", inputCount := 1, problems := [.recursionInputs] },
    [⟨{ name := "f", descriptor := 2, shift := some 1 },
      some ⟨{ kind := .successor, id := "b", inputCount := 2 }, []⟩⟩]⟩

theorem tellable_flawed : flawed.Tellable .standard := by
  refine every_mk.mpr ⟨fun p hp => absurd hp List.not_mem_nil, ?_⟩
  rw [List.forall_mem_singleton]
  rintro d ⟨rfl⟩
  refine every_mk.mpr ⟨fun p hp => ?_, fun s hs => absurd hs List.not_mem_nil⟩
  obtain rfl : p = .successorInputs 2 := List.mem_singleton.mp hp
  exact (Text.isShort_of_lt (n := 2) (by decide)).isWritable

/-- What is wrong with the successor is told with its number of inputs, which can have too many
digits. -/
theorem not_tellable_flawed {n : Nat} (hn : Nat.pow 10 Text.digitLimit = n + 1) :
    ¬ (flawed.propagate n).Tellable .standard := by
  intro h
  have hten : 10 ≤ n + 1 := hn ▸ Text.pow_ten_le (by decide : 1 ≤ Text.digitLimit)
  have hne : (n : Int) + 1 ≠ 1 := by omega
  have hinner := (every_mk.mp (propagate_mk n _ _ ▸ h)).2
  rw [List.forall_mem_map, List.forall_mem_singleton, Slot.forall_occupant_within] at hinner
  have hown := (hinner _ rfl).root
  rw [head_propagate] at hown
  have hproblems : Catalog.standard.problems
      { kind := .successor, id := "b", inputCount := n + 1 } = [.successorInputs (n + 1)] :=
    if_neg hne
  have hwritable : Text.isWritable (n + 1) = true :=
    hown (.successorInputs (n + 1)) (hproblems.symm ▸ List.mem_singleton_self _)
  rw [Text.isWritable, hn, decide_eq_true_eq] at hwritable
  omega

/-- The root is marked, and lines are printed. A number of inputs with all the digits that it may
have ends the check. -/
theorem check_marks_spine_flawed :
    flawed.height ≤ nestingLimit ∧ flawed.Tellable .standard ∧
      (flawed.check .standard).2 = none ∧
      (flawed.check .standard).1.head.problems = [.inChildren] ∧
      Command.problemLines (flawed.check .standard).1 ≠ [] ∧
      (flawed.check .standard).1.check .standard = ((flawed.check .standard).1, none) ∧
      ∃ n, Nat.pow 10 Text.digitLimit = n + 1 ∧
        ((flawed.propagate n).check .standard).2 = some .unwritable := by
  have hheight : flawed.height ≤ nestingLimit := by decide
  obtain ⟨-, hnone, -, hmarks, -⟩ := check_marks_spine .standard flawed hheight
  obtain ⟨-, -, hlines, -, htwice⟩ := hmarks tellable_flawed
  have hroot : (flawed.check .standard).1.head.problems = [.inChildren] := by
    rw [check_of_tellable hheight tellable_flawed]
    rfl
  refine ⟨hheight, tellable_flawed, hnone.mpr tellable_flawed, hroot, fun hnil => ?_, htwice, ?_⟩
  · rw [hlines.mpr hnil] at hroot
    cases hroot
  · have hpos : 1 ≤ Nat.pow 10 Text.digitLimit := Text.pow_ten_le (m := 0) (Nat.zero_le _)
    obtain ⟨n, hn⟩ := Nat.exists_eq_add_of_le' hpos
    have hheight' : (flawed.propagate n).height ≤ nestingLimit := by
      rwa [height_congr (mapHeads_propagate_eq (f := fun h => { h with inputCount := 0 })
        (fun _ _ => rfl) n flawed)]
    exact ⟨n, hn, (check_marks_spine .standard _ hheight').2.2.1 (not_tellable_flawed hn)⟩

end Block

end BlockCalculus
