import BlockCalculus.Proofs.Bookkeeping

/-!
# Where findings lie

The path of a finding leads through the document to what is wrong there. `Json.follow?` goes along a
path, and `Finding.LiesAt` says what there is at its end: the value that the finding shows, or an
object that lacks the key, since a block without a kind is flawed as well.

A check hands down the path to where it is, so what it finds in a part lies behind that path in the
whole (`Placed.inside`), and checks made one after the other find in place if each of them does
(`placed_inTurn`).

* `checkBlock_placed`: blocks. The induction is on the levels left.
* `survey_keeps_notes`: the main result, on the notes of a survey.
-/

namespace BlockCalculus

/-! ## Following a path -/

namespace Json

/-- The part of a value that a segment names. -/
def step? : Segment → Json → Option Json
  | .key name, v => v.get? name
  | .item name index, v => ((v.get? name).bind arr?).bind fun items => items[index]?

/-- The value that a path leads to. -/
def follow? : DocPath → Json → Option Json
  | [], v => some v
  | segment :: rest, v => (v.step? segment).bind (follow? rest)

theorem follow?_singleton (segment : Segment) (v : Json) :
    v.follow? [segment] = v.step? segment := by
  simp [follow?]

theorem follow?_append (front rest : DocPath) (v : Json) :
    v.follow? (front ++ rest) = (v.follow? front).bind (follow? rest) := by
  induction front generalizing v with
  | nil => rfl
  | cons segment front ih =>
    rw [List.cons_append, follow?, follow?]
    cases v.step? segment with
    | none => rfl
    | some w => exact ih w

/-- The items of the array under a key are the given ones, from the number `index` on. -/
def ItemsFrom (v : Json) (name : String) (index : Nat) (items : List Json) : Prop :=
  ∀ i, v.step? (.item name (index + i)) = items[i]?

section ItemsFrom

variable {v item : Json} {name : String} {index : Nat} {items : List Json}

theorem itemsFrom_zero {value : Json} (hget : v.get? name = some value)
    (hitems : value.arr? = some items) : v.ItemsFrom name 0 items := by
  intro i
  simp [step?, hget, hitems]

theorem ItemsFrom.head (h : v.ItemsFrom name index (item :: items)) :
    v.step? (.item name index) = some item :=
  h 0

theorem ItemsFrom.tail (h : v.ItemsFrom name index (item :: items)) :
    v.ItemsFrom name (index + 1) items := by
  intro i
  rw [Nat.add_assoc, Nat.add_comm 1 i, h (i + 1), List.getElem?_cons_succ]

end ItemsFrom

end Json

/-! ## Where a finding lies -/

/-- What a flaw shows of the value in which it lies: of a slot with a name that is taken the name,
else the value itself. -/
def Flaw.shown : Flaw → Json → Json
  | repeatedSlot _, v => v.getD "name"
  | _, v => v

/-- The finding lies at the end of a path into a value. Either the path leads to a value, which the
finding shows, or it leads to an object up to its last key, which the object lacks, and the finding
has nothing to show. -/
def Finding.LiesAt (f : Finding) (way : DocPath) (v : Json) : Prop :=
  (∃ w, v.follow? way = some w ∧ f.value = f.flaw.shown w) ∨
  ∃ (front : DocPath) (key : String) (members : Json.Members), way = front ++ [.key key] ∧
    v.follow? front = some (.obj members) ∧ members.get? key = none ∧ f.value = .null

/-- A finding in a part lies behind the path to the part. -/
theorem Finding.LiesAt.append {f : Finding} {front way : DocPath} {v w : Json}
    (hfront : v.follow? front = some w) (h : f.LiesAt way w) : f.LiesAt (front ++ way) v := by
  rcases h with ⟨u, hway, hshown⟩ | ⟨rest, key, members, rfl, hrest, hlacks, hshown⟩
  · exact .inl ⟨u, by simp [Json.follow?_append, hfront, hway], hshown⟩
  · refine .inr ⟨front ++ rest, key, members, (List.append_assoc ..).symm, ?_, hlacks, hshown⟩
    simp [Json.follow?_append, hfront, hrest]

namespace Document

/-! ## Checks that find in place -/

/-- What a check of a value at a path finds lies in the value, and its path says where. -/
def Placed (v : Json) (path : DocPath) (check : Except Fault (List Finding)) : Prop :=
  ∀ found, check = .ok found → ∀ f ∈ found, ∃ way, f.path = path ++ way ∧ f.LiesAt way v

section Placed

variable {v w : Json} {path : DocPath} {check check' : Except Fault (List Finding)}

theorem placed_nil : Placed v path (.ok []) := by
  rintro found ⟨⟩ f hf
  cases hf

theorem placed_error (fault : Fault) : Placed v path (.error fault) :=
  nofun

/-- A finding on a value itself. -/
theorem placed_here {flaw : Flaw} {value : Json} (h : value = flaw.shown v) :
    Placed v path (.ok [⟨path, flaw, value⟩]) := by
  rintro found ⟨⟩ f hf
  obtain rfl := List.mem_singleton.mp hf
  exact ⟨[], (List.append_nil path).symm, .inl ⟨v, rfl, h⟩⟩

/-- What lies in a part of a value lies in the value. -/
theorem Placed.inside {segment : Segment} (h : Placed w (path ++ [segment]) check)
    (hstep : v.step? segment = some w) : Placed v path check := by
  intro found hfound f hf
  obtain ⟨way, hpath, hlies⟩ := h found hfound f hf
  have hfollow : v.follow? [segment] = some w := by rw [Json.follow?_singleton, hstep]
  exact ⟨[segment] ++ way, by rw [hpath, List.append_assoc], hlies.append hfollow⟩

theorem Placed.member {key : String} (h : Placed w (path ++ [.key key]) check)
    (hget : v.get? key = some w) : Placed v path check :=
  h.inside hget

theorem placed_unless {good : Bool} {segment : Segment} {flaw : Flaw}
    (hstep : v.step? segment = some w) (h : w = flaw.shown w) :
    Placed v path (.ok (if good then [] else [⟨path ++ [segment], flaw, w⟩])) := by
  cases good with
  | true => exact placed_nil
  | false => exact (placed_here h).inside hstep

theorem Placed.bind (h : Placed v path check) (h' : Placed v path check') :
    Placed v path (do
      let found ← check
      let others ← check'
      return found ++ others) := by
  cases check with
  | error fault => exact placed_error fault
  | ok found =>
    cases check' with
    | error fault => exact placed_error fault
    | ok others =>
      rintro all ⟨⟩ f hf
      rcases List.mem_append.mp hf with hf | hf
      · exact h found rfl f hf
      · exact h' others rfl f hf

theorem placed_inTurn {checks : List (Except Fault (List Finding))}
    (h : ∀ check ∈ checks, Placed v path check) : Placed v path (inTurn checks) := by
  induction checks with
  | nil => exact placed_nil
  | cons check rest ih =>
    obtain ⟨hcheck, hrest⟩ := List.forall_mem_cons.mp h
    exact hcheck.bind (ih hrest)

end Placed

/-! ## Parts of a block -/

section Parts

variable {path : DocPath} {block : Json}

/-- Only here may a finding lie where there is nothing: a block has to have a kind. -/
theorem checkKind_placed {members : Json.Members} (h : block.obj? = some members) :
    Placed block path (checkKind path block) := by
  obtain rfl := Json.obj?_eq_some.mp h
  have hfinding : Placed (.obj members) path
      (.ok [⟨path ++ [.key "type"], .unknownKind, Json.getD "type" (.obj members)⟩]) := by
    cases hget : Json.get? "type" (.obj members) with
    | some value =>
      rw [Json.getD, hget]
      exact (placed_here rfl).member hget
    | none =>
      -- the block is there, and has no member under the key
      rw [Json.getD, hget]
      rintro found ⟨⟩ f hf
      obtain rfl := List.mem_singleton.mp hf
      exact ⟨[.key "type"], rfl, .inr ⟨[], "type", members, rfl, rfl, hget, rfl⟩⟩
  unfold checkKind
  split
  · exact placed_error _
  · exact placed_error _
  · split
    · exact placed_nil
    · exact hfinding

theorem checkText_placed (key : String) : Placed block path (.ok (checkText key path block)) := by
  unfold checkText
  split
  · exact placed_nil
  · rename_i value hvalue
    exact placed_unless (Json.present?_eq_some.mp hvalue).1 rfl

theorem checkCount_placed : Placed block path (.ok (checkCount path block)) := by
  unfold checkCount
  split
  · exact placed_nil
  · rename_i value hvalue
    exact placed_unless hvalue rfl

theorem checkParamList_placed {entries : List Json} {index : Nat}
    (h : block.ItemsFrom "num_values" index entries) :
    Placed block path (.ok (checkParamList path index entries)) := by
  induction entries generalizing index with
  | nil => exact placed_nil
  | cons entry rest ih => exact (placed_unless h.head rfl).bind (ih h.tail)

theorem checkParams_placed : Placed block path (.ok (checkParams path block)) := by
  unfold checkParams
  split
  · exact placed_nil
  · rename_i value hvalue
    split
    · exact (placed_here rfl).member hvalue
    · rename_i entries hentries
      exact checkParamList_placed (Json.itemsFrom_zero hvalue hentries)

end Parts

/-! ## Slots -/

section Slots

variable {inner : DocPath → Json → Except Fault (List Finding)}
  (hinner : ∀ path c, Placed c path (inner path c))
include hinner

theorem checkOccupant_placed (here : DocPath) (slot : Json) :
    Placed slot here (checkOccupant inner here slot) := by
  unfold checkOccupant
  split
  · exact placed_nil
  · rename_i block hblock
    exact (hinner _ block).member (Json.present?_eq_some.mp hblock).1

theorem checkSlot_placed (here : DocPath) (seen : List String) (slot : Json) :
    Placed slot here (checkSlot inner seen here slot) := by
  unfold checkSlot
  split
  · exact placed_here rfl
  · rename_i name hname
    have hrepeated : Placed slot here
        (.ok (if seen.contains name then [⟨here, .repeatedSlot name, .str name⟩] else [])) := by
      split
      · obtain ⟨v, hv, hname⟩ := Option.bind_eq_some_iff.mp hname
        obtain rfl := Json.str?_eq_some.mp hname
        exact placed_here (by simp [Flaw.shown, Json.getD, hv])
      · exact placed_nil
    exact hrepeated.bind (checkOccupant_placed hinner here slot)

theorem checkSlots_placed {path : DocPath} {block : Json} {slots : List Json} {index : Nat}
    (h : block.ItemsFrom "children" index slots) (seen : List String) :
    Placed block path (checkSlots inner path index seen slots) := by
  induction slots generalizing index seen with
  | nil => exact placed_nil
  | cons slot rest ih =>
    rw [checkSlots_cons]
    have hslot := checkSlot_placed hinner (path ++ [.item "children" index]) seen slot
    exact (hslot.inside h.head).bind (ih h.tail (taken seen slot))

theorem checkChildren_placed (path : DocPath) (block : Json) :
    Placed block path (checkChildren inner path block) := by
  unfold checkChildren
  split
  · exact placed_nil
  · rename_i value hvalue
    split
    · exact (placed_here rfl).member hvalue
    · rename_i slots hslots
      exact checkSlots_placed hinner (Json.itemsFrom_zero hvalue hslots) []

end Slots

/-- **Whatever is found on a block lies in the block**, where its path says. The induction is on the
levels left. -/
theorem checkBlock_placed (levels : Nat) (path : DocPath) (value : Json) :
    Placed value path (checkBlock levels path value) := by
  induction levels generalizing path value with
  | zero => exact placed_error .nesting
  | succ levels ih =>
    cases hobj : value.obj? with
    | none =>
      rw [checkBlock, hobj]
      exact placed_here rfl
    | some members =>
      rw [checkBlock_of_obj? hobj]
      apply placed_inTurn
      simp only [List.forall_mem_cons]
      exact ⟨checkKind_placed hobj, checkText_placed "id", checkText_placed "name",
        checkCount_placed, checkParams_placed, checkChildren_placed ih path value,
        fun _ h => absurd h List.not_mem_nil⟩

/-! ## The notes of a survey -/

/-- **A survey of a block keeps its notes.** Unless a kind is an array or an object, the survey gets
to its end, whatever the notes that it begins with. It is then back where it began, and has added
findings to the notes and changed nothing else in them. It tells that all is well if and only if it
has added none, which it does for the blocks of the grammar and for no others. The path of a finding
that it has added goes from where the survey began to a value that is there, or to a key that an
object lacks. -/
theorem survey_keeps_notes {levels : Nat} {value : Json} (hnest : NestsWithin levels value)
    (hplain : Plain value) (notes : Notes) :
    ∃ well found,
      (surveyBlock levels value).outcome notes =
        (.ok well, { notes with findings := notes.findings ++ found }) ∧
      (well = true ↔ found = []) ∧ (well = true ↔ WellFormedBlock value) ∧
      ∀ f ∈ found, ∃ way, f.path = notes.path ++ way ∧ f.LiesAt way value := by
  have hreports := checkBlock_reports hnest notes.path
  have hrecords := surveyBlock_records levels notes.path value
  have hplaced := checkBlock_placed levels notes.path value
  cases hcheck : checkBlock levels notes.path value with
  | error f =>
    rw [hcheck] at hreports
    exact absurd hplain hreports.1
  | ok found =>
    rw [hcheck] at hreports hrecords
    refine ⟨found.isEmpty, found, hrecords notes rfl, List.isEmpty_iff, ?_, hplaced found hcheck⟩
    rw [List.isEmpty_iff, hreports.2]

/-- A block with flaws: its id is no text, its first slot has no name, the last one has a name that
is taken, and the block in the slot between has no kind. -/
def faultyBlock : Json :=
  .obj [("type", .str "Zero"), ("id", .int 7),
    ("children", .arr [.str "n", .obj [("name", .str "f"), ("block", .obj [])],
      .obj [("name", .str "f")]])]

/-- The notes of a survey that has come to the root of a document and found one flaw on the way. -/
def notesAtRoot : Notes :=
  ⟨[.key "rootBlock"], [⟨[.key "fileType"], .foreignMark, .null⟩]⟩

/-- The findings on the block at the root. -/
def faultsAtRoot : List Finding :=
  [⟨[.key "rootBlock", .key "id"], .notText "id", .int 7⟩,
    ⟨[.key "rootBlock", .item "children" 0], .malformedSlot, .str "n"⟩,
    ⟨[.key "rootBlock", .item "children" 1, .key "block", .key "type"], .unknownKind, .null⟩,
    ⟨[.key "rootBlock", .item "children" 2], .repeatedSlot "f", .str "f"⟩]

/-- The flaws of the block are noted, each one where it is. -/
theorem survey_keeps_notes_faulty :
    NestsWithin nestingLimit faultyBlock ∧ Plain faultyBlock ∧
    (surveyBlock nestingLimit faultyBlock).outcome notesAtRoot =
      (.ok false, { notesAtRoot with findings := notesAtRoot.findings ++ faultsAtRoot }) ∧
    ∀ f ∈ faultsAtRoot, ∃ way, f.path = notesAtRoot.path ++ way ∧ f.LiesAt way faultyBlock := by
  have hinner : innerBlocks faultyBlock = [.obj []] := rfl
  have hplain : Plain faultyBlock := by
    rw [plain_iff, hinner, List.forall_mem_singleton]
    exact ⟨nofun, forall_inside_of_flat rfl nofun⟩
  have hnest : NestsWithin nestingLimit faultyBlock := by
    rw [nestingLimit, NestsWithin, hinner, List.forall_mem_singleton]
    exact nestsWithin_of_flat rfl _
  have hrun : (surveyBlock nestingLimit faultyBlock).outcome notesAtRoot =
      (.ok false, { notesAtRoot with findings := notesAtRoot.findings ++ faultsAtRoot }) := rfl
  obtain ⟨well, found, hsurvey, -, -, hlies⟩ := survey_keeps_notes hnest hplain notesAtRoot
  have hnotes := congrArg (fun result => result.2.findings) (hrun.symm.trans hsurvey)
  obtain rfl : faultsAtRoot = found := List.append_cancel_left hnotes
  exact ⟨hnest, hplain, hrun, hlies⟩

end Document

end BlockCalculus
