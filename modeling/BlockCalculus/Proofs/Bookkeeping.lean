import BlockCalculus.Document.Survey
import BlockCalculus.Proofs.Grammar

/-!
# A survey records what a check finds

A survey goes through a document with notes that all its parts change, a check with none. What the
check of a part comes to says all about the survey of it (`Records`): the survey ends where it
began, has added the findings of the check to the notes, and touched nothing else.

* `Records.within`, `Records.bind`: a survey that enters a part comes back from it, and what is
  surveyed one after the other is recorded one after the other.
* `PassesOn`: whether all is well is passed on, and is never forgotten (`PassesOn.bind`).
* `surveyBlock_records`: blocks. The induction is on the levels left, and on the slots of a block
  (`surveySlots_passesOn`).
* `survey_eq_validate`: surveying a document and checking it lead to the same verdict.
-/

namespace BlockCalculus

namespace Notes

/-- The notes with further findings. -/
def add (notes : Notes) (found : List Finding) : Notes :=
  { notes with findings := notes.findings ++ found }

@[simp] theorem add_nil (notes : Notes) : notes.add [] = notes := by
  simp [add]

@[simp] theorem add_add (notes : Notes) (found others : List Finding) :
    (notes.add found).add others = notes.add (found ++ others) := by
  simp [add]

end Notes

/-! ## What a survey comes to -/

namespace Survey

variable {α β : Type}

theorem outcome_bind (work : Survey α) (next : α → Survey β) (notes : Notes) :
    (work >>= next).outcome notes =
      match work.outcome notes with
      | (.ok a, notes') => (next a).outcome notes'
      | (.error f, notes') => (.error f, notes') := by
  unfold outcome
  rw [ExceptT.run_bind, StateT.run_bind]
  generalize work.run.run notes = result
  obtain ⟨_ | _, _⟩ := result <;> rfl

theorem outcome_bind_of_ok {work : Survey α} {notes notes' : Notes} {a : α}
    (h : work.outcome notes = (.ok a, notes')) (next : α → Survey β) :
    (work >>= next).outcome notes = (next a).outcome notes' := by
  rw [outcome_bind, h]

theorem outcome_bind_of_error {work : Survey α} {notes : Notes} {f : Fault}
    (h : (work.outcome notes).1 = .error f) (next : α → Survey β) :
    ((work >>= next).outcome notes).1 = .error f := by
  rw [outcome_bind]
  generalize work.outcome notes = result at h ⊢
  obtain ⟨result, notes'⟩ := result
  obtain rfl : result = .error f := h
  rfl

/-- The survey, begun at a path, records what a check comes to: it ends where it began, with the
findings of the check added to the notes, and the findings determine its answer. If the check comes
to a fault, so does the survey. -/
def Records (path : DocPath) (answer : List Finding → α) (work : Survey α) :
    Except Fault (List Finding) → Prop
  | .ok found => ∀ notes : Notes, notes.path = path →
    work.outcome notes = (.ok (answer found), notes.add found)
  | .error f => ∀ notes : Notes, notes.path = path → (work.outcome notes).1 = .error f

section Records

variable {path : DocPath} {answer : List Finding → α} {work : Survey α}
  {check : Except Fault (List Finding)}

theorem records_pure {a : α} (h : answer [] = a) : Records path answer (pure a) (.ok []) := by
  intro notes _
  rw [Notes.add_nil, h]
  rfl

theorem records_throw (f : Fault) : Records path answer (throw f) (.error f) :=
  fun _ _ => rfl

theorem records_note (flaw : Flaw) (value : Json) :
    Records path (fun _ => ()) (note flaw value) (.ok [⟨path, flaw, value⟩]) := by
  rintro notes rfl
  rfl

/-- Checks made one after the other are recorded one after the other. -/
theorem Records.bind {answer' : List Finding → β} {next : α → Survey β}
    {check' : List Finding → Except Fault (List Finding)} (h : Records path answer work check)
    (hnext : ∀ found, check = .ok found →
      Records path (fun others => answer' (found ++ others)) (next (answer found)) (check' found)) :
    Records path answer' (work >>= next) (do
      let found ← check
      let others ← check' found
      return found ++ others) := by
  cases check with
  | error f => exact fun notes hnotes => outcome_bind_of_error (h notes hnotes) next
  | ok found =>
    have hrest := hnext found rfl
    change Records path answer' (work >>= next) (do return found ++ (← check' found))
    cases hothers : check' found with
    | error f =>
      rw [hothers] at hrest
      intro notes hnotes
      rw [outcome_bind_of_ok (h notes hnotes)]
      exact hrest _ hnotes
    | ok others =>
      rw [hothers] at hrest
      intro notes hnotes
      rw [outcome_bind_of_ok (h notes hnotes), hrest (notes.add found) hnotes, Notes.add_add]

/-- What is recorded may be answered in another way. -/
theorem Records.answers {answer' : List Finding → β} {next : α → Survey β}
    (h : Records path answer work check)
    (hnext : ∀ found, check = .ok found → next (answer found) = pure (answer' found)) :
    Records path answer' (work >>= next) check := by
  cases check with
  | error f => exact fun notes hnotes => outcome_bind_of_error (h notes hnotes) next
  | ok found =>
    intro notes hnotes
    rw [outcome_bind_of_ok (h notes hnotes), hnext found rfl]
    rfl

/-- What is recorded in a part is recorded at the path of the part. After that, the survey is back
where it was before. -/
theorem Records.within {segment : Segment} (h : Records (path ++ [segment]) answer work check) :
    Records path answer (Survey.within segment work) check := by
  have henter (notes : Notes) : (enter segment).outcome notes =
      (.ok (), { notes with path := notes.path ++ [segment] }) := rfl
  have hleave (notes : Notes) (a : α) : (do leave; return a : Survey α).outcome notes =
      (.ok a, { notes with path := notes.path.dropLast }) := rfl
  cases check with
  | error f =>
    rintro notes rfl
    rw [Survey.within, outcome_bind_of_ok (henter notes)]
    exact outcome_bind_of_error (h _ rfl) _
  | ok found =>
    rintro notes rfl
    rw [Survey.within, outcome_bind_of_ok (henter notes), outcome_bind_of_ok (h _ rfl), hleave]
    -- the work came back to the part, so what is dropped from the path is the segment of the part
    simp [Notes.add]

end Records

/-! ## Passing on whether all is well -/

/-- The survey records what a check comes to, and passes on whether all is well: it is if it was
before, and nothing was found. -/
def PassesOn (path : DocPath) (work : Bool → Survey Bool) (check : Except Fault (List Finding)) :
    Prop :=
  ∀ ok, Records path (fun found => ok && found.isEmpty) (work ok) check

section PassesOn

variable {path : DocPath} {work next : Bool → Survey Bool}
  {check check' : Except Fault (List Finding)}

theorem passesOn_pure : PassesOn path (fun ok => pure ok) (.ok []) :=
  fun ok => records_pure (by simp)

theorem PassesOn.bind (h : PassesOn path work check) (hnext : PassesOn path next check') :
    PassesOn path (fun ok => work ok >>= next) (do
      let found ← check
      let others ← check'
      return found ++ others) := by
  intro ok
  refine (h ok).bind fun found _ => ?_
  -- the next part takes over what the first one made of `ok`
  have hanswer : (fun others => ok && (found ++ others).isEmpty) =
      fun others => (ok && found.isEmpty) && others.isEmpty := by
    funext others
    cases found <;> simp
  rw [hanswer]
  exact hnext (ok && found.isEmpty)

theorem PassesOn.within {segment : Segment} (h : PassesOn (path ++ [segment]) work check) :
    PassesOn path (fun ok => Survey.within segment (work ok)) check :=
  fun ok => (h ok).within

theorem passesOn_complain (flaw : Flaw) (value : Json) :
    PassesOn path (fun _ => complain flaw value) (.ok [⟨path, flaw, value⟩]) := by
  intro ok
  refine (records_note flaw value).answers ?_
  rintro found ⟨⟩
  rw [List.isEmpty_cons, Bool.and_false]

theorem passesOn_require (good : Bool) (segment : Segment) (flaw : Flaw) (value : Json) :
    PassesOn path (require good segment flaw value)
      (.ok (if good then [] else [⟨path ++ [segment], flaw, value⟩])) := by
  cases good with
  | true => exact passesOn_pure
  | false => exact (passesOn_complain flaw value).within

end PassesOn

end Survey

namespace Document

open Survey

/-! ## Surveys of the parts of a block -/

section Parts

variable (path : DocPath) (block : Json)

theorem surveyKind_passesOn : PassesOn path (surveyKind block) (checkKind path block) := by
  intro ok
  unfold surveyKind checkKind
  cases block.getD "type" with
  | arr items => exact records_throw _
  | obj members => exact records_throw _
  | _ =>
    dsimp only
    rw [← apply_ite Except.ok]
    exact passesOn_require _ _ _ _ ok

theorem surveyText_passesOn (key : String) :
    PassesOn path (surveyText key block) (.ok (checkText key path block)) := by
  intro ok
  unfold surveyText checkText
  cases block.present? key with
  | none => exact passesOn_pure ok
  | some value => exact passesOn_require _ _ _ _ ok

theorem surveyCount_passesOn :
    PassesOn path (surveyCount block) (.ok (checkCount path block)) := by
  intro ok
  unfold surveyCount checkCount
  cases block.get? "inputCount" with
  | none => exact passesOn_pure ok
  | some value => exact passesOn_require _ _ _ _ ok

theorem surveyParamList_passesOn (index : Nat) (entries : List Json) :
    PassesOn path (surveyParamList index entries) (.ok (checkParamList path index entries)) := by
  induction entries generalizing index with
  | nil => exact passesOn_pure
  | cons entry rest ih => exact (passesOn_require _ _ _ _).bind (ih (index + 1))

theorem surveyParams_passesOn :
    PassesOn path (surveyParams block) (.ok (checkParams path block)) := by
  intro ok
  unfold surveyParams checkParams
  cases block.get? "num_values" with
  | none => exact passesOn_pure ok
  | some value =>
    dsimp only
    cases value.arr? with
    | none => exact passesOn_require false _ _ _ ok
    | some entries => exact surveyParamList_passesOn path 0 entries ok

end Parts

/-! ## Surveys of slots -/

section Slots

/-- The findings on the block in a slot at the path `here`. -/
def checkOccupant (inner : DocPath → Json → Except Fault (List Finding)) (here : DocPath)
    (slot : Json) : Except Fault (List Finding) :=
  match slot.present? "block" with
  | none => .ok []
  | some block => inner (here ++ [.key "block"]) block

/-- The findings on a slot at the path `here`. -/
def checkSlot (inner : DocPath → Json → Except Fault (List Finding)) (seen : List String)
    (here : DocPath) (slot : Json) : Except Fault (List Finding) :=
  match (slot.get? "name").bind Json.str? with
  | none => .ok [⟨here, .malformedSlot, slot⟩]
  | some name => do
    let repeated ← .ok (if seen.contains name then [⟨here, .repeatedSlot name, .str name⟩] else [])
    let below ← checkOccupant inner here slot
    return repeated ++ below

variable {inner : DocPath → Json → Except Fault (List Finding)} {survey : Json → Survey Bool}

/-- Slots are checked one after the other. -/
theorem checkSlots_cons (path : DocPath) (index : Nat) (seen : List String) (slot : Json)
    (rest : List Json) :
    checkSlots inner path index seen (slot :: rest) = do
      let found ← checkSlot inner seen (path ++ [.item "children" index]) slot
      let others ← checkSlots inner path (index + 1) (taken seen slot) rest
      return found ++ others := by
  rw [checkSlots, checkSlot, taken]
  cases (slot.get? "name").bind Json.str? with
  | none => rfl
  | some name =>
    dsimp only [checkOccupant]
    cases slot.present? "block" with
    | none => rfl
    | some block =>
      dsimp only
      cases inner (path ++ [.item "children" index] ++ [.key "block"]) block <;> rfl

variable (h : ∀ path c, Records path List.isEmpty (survey c) (inner path c))
include h

theorem surveyOccupant_passesOn (here : DocPath) (slot : Json) :
    PassesOn here (surveyOccupant survey slot) (checkOccupant inner here slot) := by
  intro ok
  unfold surveyOccupant checkOccupant
  cases slot.present? "block" with
  | none => exact passesOn_pure ok
  | some block =>
    refine (h (here ++ [.key "block"]) block).within.answers fun found _ => ?_
    rw [Bool.and_comm]

theorem surveySlot_passesOn (here : DocPath) (seen : List String) (slot : Json) :
    PassesOn here (surveySlot survey seen slot) (checkSlot inner seen here slot) := by
  intro ok
  unfold surveySlot checkSlot
  cases (slot.get? "name").bind Json.str? with
  | none => exact passesOn_complain .malformedSlot slot ok
  | some name =>
    have hname : PassesOn here (surveyName seen name)
        (.ok (if seen.contains name then [⟨here, .repeatedSlot name, .str name⟩] else [])) := by
      intro ok
      unfold surveyName
      split
      · exact passesOn_complain _ _ ok
      · exact passesOn_pure ok
    exact hname.bind (surveyOccupant_passesOn h here slot) ok

/-- Each slot is left before the next one is entered, and a flaw in one is not made up for by the
slots after it. -/
theorem surveySlots_passesOn (path : DocPath) (index : Nat) (seen : List String)
    (slots : List Json) :
    PassesOn path (surveySlots survey index seen slots)
      (checkSlots inner path index seen slots) := by
  induction slots generalizing index seen with
  | nil => exact passesOn_pure
  | cons slot rest ih =>
    rw [checkSlots_cons]
    exact (surveySlot_passesOn h _ seen slot).within.bind (ih (index + 1) (taken seen slot))

theorem surveyChildren_passesOn (path : DocPath) (block : Json) :
    PassesOn path (surveyChildren survey block) (checkChildren inner path block) := by
  intro ok
  unfold surveyChildren checkChildren
  cases block.get? "children" with
  | none => exact passesOn_pure ok
  | some value =>
    dsimp only
    cases value.arr? with
    | none => exact passesOn_require false _ _ _ ok
    | some slots => exact surveySlots_passesOn h path 0 [] slots ok

end Slots

/-! ## Surveys of blocks and documents -/

/-- The findings of several checks, made one after the other. -/
def inTurn : List (Except Fault (List Finding)) → Except Fault (List Finding)
  | [] => .ok []
  | check :: rest => do
    let found ← check
    let others ← inTurn rest
    return found ++ others

theorem inTurn_singleton (check : Except Fault (List Finding)) : inTurn [check] = check := by
  cases check with
  | error f => rfl
  | ok found => exact congrArg Except.ok (List.append_nil found)

theorem checkBlock_of_obj? {value : Json} {members : Json.Members} (h : value.obj? = some members)
    (levels : Nat) (path : DocPath) :
    checkBlock (levels + 1) path value =
      inTurn [checkKind path value, .ok (checkText "id" path value),
        .ok (checkText "name" path value), .ok (checkCount path value),
        .ok (checkParams path value), checkChildren (checkBlock levels) path value] := by
  rw [checkBlock, h]
  simp only [inTurn]
  cases checkKind path value with
  | error f => rfl
  | ok kind =>
    cases checkChildren (checkBlock levels) path value with
    | error f => rfl
    | ok children => exact congrArg Except.ok (by simp)

/-- **A survey of a block records what the check of the block comes to**, and tells whether there is
nothing to record. The induction is on the levels left. -/
theorem surveyBlock_records (levels : Nat) (path : DocPath) (value : Json) :
    Records path List.isEmpty (surveyBlock levels value) (checkBlock levels path value) := by
  induction levels generalizing path value with
  | zero => exact records_throw .nesting
  | succ levels ih =>
    cases hobj : value.obj? with
    | none =>
      rw [surveyBlock, checkBlock, hobj]
      exact passesOn_complain .notBlock value true
    | some members =>
      -- the children come last, with no check after them
      have hchildren := surveyChildren_passesOn ih path value
      rw [← inTurn_singleton (checkChildren _ path value)] at hchildren
      rw [checkBlock_of_obj? hobj, surveyBlock, hobj]
      refine (surveyKind_passesOn path value).bind ?_ true
      refine (surveyText_passesOn path value "id").bind ?_
      refine (surveyText_passesOn path value "name").bind ?_
      refine (surveyCount_passesOn path value).bind ?_
      exact (surveyParams_passesOn path value).bind hchildren

/-- The findings on a saved block at a path. -/
def checkCustom (path : DocPath) (block : Json) : Except Fault (List Finding) := do
  let found ← checkBlock nestingLimit path block
  let kind := block.getD "type"
  let foreign ← .ok (if found.isEmpty && kind.str? != some customName then
    [⟨path, .savedNotCustom, kind⟩] else [])
  return found ++ foreign

theorem checkSaved_cons (name : String) (block : Json) (rest : Json.Members) :
    checkSaved ((name, block) :: rest) = do
      let found ← checkCustom [.key "customBlocks", .key name] block
      let others ← checkSaved rest
      return found ++ others := by
  rw [checkSaved, checkCustom]
  cases checkBlock nestingLimit [.key "customBlocks", .key name] block <;> rfl

theorem surveyCustom_records (path : DocPath) (block : Json) :
    Records path (fun _ => ()) (surveyCustom block) (checkCustom path block) := by
  refine (surveyBlock_records nestingLimit path block).bind fun found _ => ?_
  dsimp only
  split
  · exact records_note _ _
  · exact records_pure rfl

theorem surveySaved_records (saved : Json.Members) :
    Records [.key "customBlocks"] (fun _ => ()) (surveySaved saved) (checkSaved saved) := by
  induction saved with
  | nil => exact records_pure rfl
  | cons e rest ih =>
    obtain ⟨name, block⟩ := e
    rw [checkSaved_cons]
    exact (surveyCustom_records [.key "customBlocks", .key name] block).within.bind fun _ _ => ih

theorem surveyRoot_records (doc : Json) :
    Records [] (fun _ => ()) (surveyRoot doc) (checkRoot doc) := by
  unfold surveyRoot checkRoot
  cases doc.present? "rootBlock" with
  | none => exact records_pure rfl
  | some block =>
    exact (surveyBlock_records nestingLimit [.key "rootBlock"] block).within.answers fun _ _ => rfl

theorem surveyCustoms_records (doc : Json) :
    Records [] (fun _ => ()) (surveyCustoms doc) (checkCustoms doc) := by
  refine Records.within ?_
  unfold checkCustoms
  cases doc.get? "customBlocks" with
  | none => exact records_pure rfl
  | some value =>
    dsimp only [Option.getD_some]
    cases value.obj? with
    | none => exact records_note _ _
    | some saved => exact surveySaved_records saved

theorem checkInputs_eq (doc : Json) :
    checkInputs doc = if isInputs (doc.getD "inputs") then []
      else [⟨[.key "inputs"], .malformedInputs, doc.getD "inputs"⟩] := by
  unfold checkInputs isInputs
  dsimp only
  cases (doc.getD "inputs").arr? <;> rfl

theorem check_of_obj? {doc : Json} {members : Json.Members} (h : doc.obj? = some members) :
    check doc = inTurn [.ok (checkMark doc), .ok (checkInputs doc), .ok (checkInputCount doc),
      checkRoot doc, checkCustoms doc] := by
  rw [check, h]
  simp only [inTurn]
  cases checkRoot doc with
  | error f => rfl
  | ok root =>
    cases checkCustoms doc with
    | error f => rfl
    | ok customs => exact congrArg Except.ok (by simp)

theorem surveyDocument_records (doc : Json) :
    Records [] (fun _ => ()) (surveyDocument doc) (check doc) := by
  cases hobj : doc.obj? with
  | none =>
    rw [surveyDocument, check, hobj]
    exact records_note .notDocument doc
  | some members =>
    have hmark : checkMark doc = if decide ((doc.getD "fileType").str? = some documentMark) then []
        else [⟨[.key "fileType"], .foreignMark, doc.getD "fileType"⟩] := by
      simp [checkMark]
    rw [check_of_obj? hobj, surveyDocument, hobj, hmark, checkInputs_eq, checkInputCount]
    refine (passesOn_require _ (.key "fileType") _ _ true).bind fun _ _ => ?_
    refine (passesOn_require _ (.key "inputs") _ _ true).bind fun _ _ => ?_
    refine (passesOn_require _ (.key "inputCount") _ _ true).bind fun _ _ => ?_
    refine (surveyRoot_records doc).bind fun _ _ => ?_
    rw [inTurn_singleton]
    exact surveyCustoms_records doc

/-- **Surveying a document and checking it lead to the same verdict**, or to the same fault. -/
theorem survey_eq_validate (doc : Json) : survey doc = validate doc := by
  have hrecords := surveyDocument_records doc
  rw [survey, validate]
  cases hcheck : check doc with
  | error f =>
    rw [hcheck] at hrecords
    have hfault := hrecords {} rfl
    generalize (surveyDocument doc).outcome {} = result at hfault ⊢
    obtain ⟨result, notes⟩ := result
    obtain rfl : result = .error f := hfault
    rfl
  | ok found =>
    rw [hcheck] at hrecords
    rw [hrecords {} rfl]
    cases found <;> rfl

end Document

end BlockCalculus
