import BlockCalculus.Proofs.Matching
import BlockCalculus.Proofs.Numbering
import BlockCalculus.Proofs.Walk

/-!
# What evaluation goes by

Evaluation goes by the kinds of blocks, the names and values of their parameters, and the names of
their slots: the outline of a tree. Ids, names, numbers of inputs, depths, flags, problems, notes,
minimums of parameters and rules of slots play no part in it.

* `Block.outline` keeps what evaluation goes by, and forgets the rest.
* `walk_like`: trees of the same outline are walked alike. They give the same value or errors of the
  same class, and the same steps, position by position.
* `Block.evaluateWithin_like`, `Block.evaluateSteppedWithin_like`, `Block.noted_like`: and so they are
  evaluated alike, directly, step by step and with notes.
-/

namespace BlockCalculus

/-- What evaluation goes by in a head. -/
def Head.outline (h : Head) : Head :=
  { kind := h.kind, id := "", params := h.params.map fun p => { name := p.name, value := p.value } }

namespace Block

mutual

/-- What evaluation goes by in a tree. -/
def outline : Block → Block
  | ⟨head, slots⟩ => ⟨head.outline, outlineAll slots⟩

/-- What evaluation goes by in slots. -/
def outlineAll : List Slot → List Slot
  | [] => []
  | ⟨shape, none⟩ :: rest => ⟨{ name := shape.name }, none⟩ :: outlineAll rest
  | ⟨shape, some b⟩ :: rest => ⟨{ name := shape.name }, some (outline b)⟩ :: outlineAll rest

end

theorem outlineAll_eq_map (slots : List Slot) :
    outlineAll slots =
      slots.map fun s => ⟨{ name := s.shape.name }, s.occupant.map outline⟩ := by
  induction slots with
  | nil => rw [outlineAll, List.map_nil]
  | cons s rest ih =>
    obtain ⟨shape, occupant⟩ := s
    cases occupant <;> simp [outlineAll, ih]

@[simp] theorem head_outline (b : Block) : b.outline.head = b.head.outline := by
  obtain ⟨head, slots⟩ := b
  rw [outline]

/-- Going down a tree changes no outline, if it changes no outline of a head. -/
theorem Descends.outline_eq {ι : Type} {next : ι → SlotShape → ι} {put : ι → Head → Head}
    {op : ι → Block → Block} (h : Descends next put op)
    (hput : ∀ i head, (put i head).outline = head.outline) (i : ι) (b : Block) :
    (op i b).outline = b.outline := by
  induction b using Block.induction generalizing i with
  | mk head slots ih =>
    rw [h, outline, outline, hput, outlineAll_eq_map, outlineAll_eq_map, List.map_map]
    congr 1
    refine List.map_congr_left fun s hs => ?_
    simp only [Function.comp_apply, Slot.shape_within, Slot.occupant_within, Option.map_map]
    exact congrArg (Slot.mk _) (Option.map_congr fun c hc => ih s hs c hc _)

theorem outline_mapHeads {f : Head → Head} (hf : ∀ h, (f h).outline = h.outline) (b : Block) :
    (b.mapHeads f).outline = b.outline :=
  (descends_mapHeads (fun i _ => i) f).outline_eq (fun _ => hf) () b

@[simp] theorem outline_propagate (count : Int) (b : Block) :
    (b.propagate count).outline = b.outline :=
  (descends_propagate (fun n shape => shape.inputs n) id fun _ _ => rfl).outline_eq
    (fun _ _ => rfl) count b

@[simp] theorem outline_setDepth (depth : Int) (b : Block) :
    (b.setDepth depth).outline = b.outline :=
  (descends_setDepth (fun d _ => d + 1) id fun _ _ => rfl).outline_eq (fun _ _ => rfl) depth b

@[simp] theorem outline_clearTrace (b : Block) : b.clearTrace.outline = b.outline :=
  outline_mapHeads (f := fun h => { h with lastInput := none, lastOutput := none })
    (fun _ => rfl) b

@[simp] theorem outline_renumber (first : Nat) (b : Block) :
    (b.renumber first).outline = b.outline := by
  have hanonymous (b : Block) : b.anonymous.outline = b.outline :=
    outline_mapHeads (f := fun h => { h with id := "", serial := 0 }) (fun _ => rfl) b
  rw [← hanonymous, anonymous_renumber, hanonymous]

/-- A name leads to the same slot of a tree and of its outline. -/
theorem seek?_outline (name : String) (b : Block) :
    Slot.seek? name b.outline.slots =
      (Slot.seek? name b.slots).map fun found => (found.1, found.2.outline) := by
  obtain ⟨head, slots⟩ := b
  rw [outline, outlineAll_eq_map]
  induction slots with
  | nil => simp [Slot.seek?]
  | cons s rest ih =>
    simp only [List.map_cons, Slot.seek?]
    split
    · cases s.occupant <;> rfl
    · rw [ih]
      simp [Function.comp_def]

/-! ## What an outline shows -/

section Outline

variable {b b' : Block} (h : b.outline = b'.outline)

include h

theorem kind_of_outline : b.head.kind = b'.head.kind := by
  have hhead := congrArg Block.head h
  rw [head_outline, head_outline] at hhead
  have hkind : b.head.outline.kind = b'.head.outline.kind := by rw [hhead]
  exact hkind

theorem param?_of_outline (name : String) : b.param? name = b'.param? name := by
  have hvalue (b : Block) : Param.value? name b.outline.head.params = b.param? name := by
    rw [head_outline]
    simp [Head.outline, param?, Param.value?, List.find?_map, Function.comp_def]
  rw [← hvalue b, h, hvalue b']

/-- A name leads to the same slot in both trees, or to none, and to occupants of the same
outline. -/
theorem seek?_of_outline (name : String) :
    (Slot.seek? name b.slots = none ∧ Slot.seek? name b'.slots = none) ∨
      ∃ i c c', Slot.seek? name b.slots = some (i, c) ∧
        Slot.seek? name b'.slots = some (i, c') ∧ c.outline = c'.outline := by
  have hseek := congrArg (fun b : Block => Slot.seek? name b.slots) h
  simp only [seek?_outline] at hseek
  cases hb : Slot.seek? name b.slots with
  | none =>
    rw [hb, Option.map_none] at hseek
    exact .inl ⟨rfl, Option.map_eq_none_iff.mp hseek.symm⟩
  | some found =>
    rw [hb, Option.map_some] at hseek
    obtain ⟨found', hfound', hsame⟩ := Option.map_eq_some_iff.mp hseek.symm
    obtain ⟨hindex, houtline⟩ := Prod.mk.inj hsame
    refine .inr ⟨found.1, found.2, found'.2, rfl, ?_, houtline.symm⟩
    rw [hfound', ← hindex]

end Outline

end Block

/-! ## Walks through trees of the same outline -/

/-- What a step shows of itself: where it was taken, in a tree that stands at a position, on what
inputs, and with what value. -/
def Step.seen (p : Position) (s : Step) : Position × List Int × Int :=
  (p ++ s.position, s.inputs, s.result)

/-- Of failures the sort is seen, and of steps what they show of themselves, if the second walk is
taken to begin at a position. Nothing is excused. -/
def Regard.like (p : Position) :
    Regard ((EvalCode × Bool) ⊕ (String × String)) (Position × List Int × Int) :=
  ⟨fun _ => False, Failure.sort, Step.seen [], Step.seen p⟩

/-- Two sites with blocks of the same outline, the first of which lies below a position as the
second lies below the root. -/
def Site.Alike (p : Position) (s s' : Site) : Prop :=
  s.position = p ++ s'.position ∧ s.block.outline = s'.block.outline

/-- Blocks of the same outline. -/
def Block.SameOutline (b b' : Block) : Prop :=
  b.outline = b'.outline

theorem Comparison.pairs_like {c : Catalog} (hc : c.Ignores Block.SameOutline) (p : Position) :
    (matching c (Site.Alike p) (.like p)).Pairs where
  kind h := Block.kind_of_outline h.2
  param h := Block.param?_of_outline h.2
  seek {s s'} h name := by
    obtain hnone | ⟨i, b, b', hb, hb', houtline⟩ := Block.seek?_of_outline h.2 name
    · exact .inl hnone
    · refine .inr ⟨i, b, b', hb, hb', ?_, houtline⟩
      rw [h.1, List.append_assoc]
  own := hc.mono fun b b' ⟨s, s', hs, hb, hb'⟩ => by
    rw [Block.SameOutline, hb, hb', Block.outline_clearTrace, Block.outline_clearTrace, hs.2]
  fail h α e hsort := .fail (hsort _ _)

/-- Walks that match up to likeness end with the same value or failures of the same sort, and their
steps look the same. -/
theorem Walk.Matches.like {c : Catalog} {p : Position} {α : Type} {w w' : Walk α}
    (h : w.Matches c (Site.Alike p) (.like p) w') :
    (w.ending c).mapError Failure.sort = (w'.ending c).mapError Failure.sort ∧
      (w.steps c).map (Step.seen []) = (w'.steps c).map (Step.seen p) :=
  h.ending_steps.resolve_left fun ⟨_, _, hexcuse⟩ => hexcuse

/-- **Trees of the same outline are walked alike**, however many levels there are, and whatever is
changed about them meanwhile that is not in the outline, if the rules of the catalogue's own go by
outlines too. -/
theorem walk_like {c : Catalog} (hc : c.Ignores Block.SameOutline) (p : Position) (ceiling : Int)
    (levels : Nat) {site site' : Site} (hs : site.Alike p site') (inputs : List Int) :
    (walk ceiling levels site inputs).Matches c (Site.Alike p) (.like p)
      (walk ceiling levels site' inputs) := by
  have hpairs := Comparison.pairs_like hc p
  refine walk_related 0 hpairs ?_ ?_ (fun _ => Rule.extends_self hpairs _ _) levels site site'
    inputs hs
  · intro site site' inputs r hs
    refine .step ?_ (.done r)
    simp [Regard.like, Step.seen, hs.1]
  · exact fun _ _ _ _ => .fail rfl

/-! ## Evaluations of trees of the same outline -/

/-- What sort of fault it is: of a failed evaluation the class of its error, of others all. -/
def Fault.sort : Fault → EvalCode ⊕ Fault
  | evaluation e => .inl e.code
  | f => .inr f

theorem Fault.sort_congr {e e' : Failure} (h : e.sort = e'.sort) :
    e.fault.sort = e'.fault.sort := by
  cases e with
  | raised cause message =>
    cases e' with
    | raised cause' message' =>
      obtain ⟨rfl, rfl⟩ := Prod.mk.inj (Sum.inr.inj h)
      rfl
    | error e' => cases h
  | error e =>
    cases e' with
    | raised cause' message' => cases h
    | error e' =>
      obtain ⟨hcode, htell⟩ := Prod.mk.inj (Sum.inl.inj h)
      by_cases ht : e.isTellable = true
      · rw [Failure.fault_of_isTellable ht, Failure.fault_of_isTellable (htell ▸ ht)]
        exact congrArg Sum.inl hcode
      · rw [Failure.fault_of_not_isTellable ht, Failure.fault_of_not_isTellable (htell ▸ ht)]

/-- Evaluations that failed in ways of the same sort failed on faults of the same sort. -/
theorem mapError_sort {r r' : Except Failure Int}
    (h : r.mapError Failure.sort = r'.mapError Failure.sort) :
    (r.mapError Failure.fault).mapError Fault.sort =
      (r'.mapError Failure.fault).mapError Fault.sort := by
  cases r with
  | ok n =>
    cases r' with
    | ok n' => exact congrArg Except.ok (Except.ok.inj h)
    | error e' => cases h
  | error e =>
    cases r' with
    | ok n' => cases h
    | error e' => exact congrArg Except.error (Fault.sort_congr (Except.error.inj h))

section Follow

variable {c : Catalog} {p : Position} {w w' : Walk Int}

theorem Regard.not_excused_like (outcome : Except Fault Int) : ¬ (like p).Excused outcome :=
  fun ⟨_, _, hexcuse⟩ => hexcuse

theorem Walk.Matches.follow_like (h : w.Matches c (Site.Alike p) (.like p) w') (on on' : Bool)
    (t t' : Block) (count : Nat) :
    (w.follow c on t count).outcome.mapError Fault.sort =
        (w'.follow c on' t' count).outcome.mapError Fault.sort ∧
      (w.follow c on t count).steps = (w'.follow c on' t' count).steps := by
  obtain hexcused | ⟨-, hsteps, hout⟩ :=
    h.follow (T := fun _ _ => True) (fun _ _ => trivial) Fault.sort_congr trivial count
  · exact absurd hexcused (Regard.not_excused_like _)
  · exact ⟨hout, hsteps⟩

theorem Walk.Matches.followStepped_like (h : w.Matches c (Site.Alike p) (.like p) w')
    (on on' : Bool) (halt : Option (Nat × String)) (t t' : Block) :
    (w.followStepped c on halt t []).outcome.mapError Fault.sort =
        (w'.followStepped c on' halt t' []).outcome.mapError Fault.sort ∧
      (w.followStepped c on halt t []).steps.map (Step.seen []) =
        (w'.followStepped c on' halt t' []).steps.map (Step.seen p) := by
  have hnil : ([] : List Step).map (Regard.like p).first = [].map (Regard.like p).second := rfl
  obtain hexcused | ⟨-, hsteps, hout⟩ :=
    h.followStepped (T := fun _ _ => True) (fun _ _ => trivial) Fault.sort_congr halt trivial hnil
  · exact absurd hexcused (Regard.not_excused_like _)
  · exact ⟨hout, hsteps⟩

end Follow

namespace Block

variable {c : Catalog} {b b' : Block}

/-- The walks that evaluate trees of the same outline match. -/
theorem walkWithin_like (hc : c.Ignores SameOutline) (h : b.outline = b'.outline) (levels : Nat)
    {options options' : EvalOptions} (hceiling : options.ceiling = options'.ceiling)
    (inputs : List Int) :
    (b.walkWithin levels options inputs).Matches c (Site.Alike []) (.like [])
      (b'.walkWithin levels options' inputs) := by
  have hlike : Site.Alike [] ⟨[], b.clearTrace⟩ ⟨[], b'.clearTrace⟩ := by
    refine ⟨rfl, ?_⟩
    rw [outline_clearTrace, outline_clearTrace, h]
  unfold walkWithin Site.walkWithin
  rw [← hceiling]
  exact walk_like hc [] options.ceiling levels hlike inputs

/-- **Trees of the same outline are evaluated alike**, traced or not: they give the same integer, or
errors of the same class, after the same number of steps. -/
theorem evaluateWithin_like (hc : c.Ignores SameOutline) (h : b.outline = b'.outline) (levels : Nat)
    {options options' : EvalOptions} (hceiling : options.ceiling = options'.ceiling)
    (inputs : List Int) :
    (b.evaluateWithin levels c options inputs).outcome.mapError Fault.sort =
        (b'.evaluateWithin levels c options' inputs).outcome.mapError Fault.sort ∧
      (b.evaluateWithin levels c options inputs).steps =
        (b'.evaluateWithin levels c options' inputs).steps :=
  (walkWithin_like hc h levels hceiling inputs).follow_like _ _ _ _ 0

/-- **Trees of the same outline are evaluated alike step by step**, traced or not, and wherever they
are called off: the steps look the same. -/
theorem evaluateSteppedWithin_like (hc : c.Ignores SameOutline) (h : b.outline = b'.outline)
    (levels : Nat) {options options' : EvalOptions} (hceiling : options.ceiling = options'.ceiling)
    (halt : Option (Nat × String)) (inputs : List Int) :
    (b.evaluateSteppedWithin levels c options halt inputs).outcome.mapError Fault.sort =
        (b'.evaluateSteppedWithin levels c options' halt inputs).outcome.mapError Fault.sort ∧
      (b.evaluateSteppedWithin levels c options halt inputs).steps.map (Step.seen []) =
        (b'.evaluateSteppedWithin levels c options' halt inputs).steps.map (Step.seen []) :=
  (walkWithin_like hc h levels hceiling inputs).followStepped_like _ _ halt _ _

/-- Evaluations that come out alike do so with notes. -/
theorem noted_like {inputs : List Int} {evaluation evaluation' : Unit → Evaluated}
    (h : (evaluation ()).outcome.mapError Fault.sort =
      (evaluation' ()).outcome.mapError Fault.sort) :
    (b.noted inputs evaluation).outcome.mapError Fault.sort =
      (b'.noted inputs evaluation').outcome.mapError Fault.sort := by
  have hnotable : Notable inputs (evaluation ()).outcome ↔
      Notable inputs (evaluation' ()).outcome := by
    have hok (r : Except Fault Int) (n : Int) : r.mapError Fault.sort = .ok n ↔ r = .ok n := by
      cases r <;> simp [Except.mapError]
    refine and_congr Iff.rfl (forall_congr' fun n => ?_)
    rw [← hok (evaluation ()).outcome, h, hok]
  by_cases hn : Notable inputs (evaluation ()).outcome
  · rw [noted_of_notable hn, noted_of_notable (hnotable.mp hn), h]
  · rw [noted_of_not_notable hn, noted_of_not_notable (mt hnotable.mpr hn)]

end Block

end BlockCalculus
