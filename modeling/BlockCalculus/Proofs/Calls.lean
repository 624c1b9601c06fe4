import BlockCalculus.Proofs.Comparison
import BlockCalculus.Proofs.Layout
import BlockCalculus.Proofs.Trace

/-!
# Every call gets as many inputs as its block is to have

The number of inputs of a block follows from its place in the tree. Evaluation does not look at it:
a rule hands on as many inputs as it happens to have. In a tree that is laid out by the standard
catalogue the two agree at every block that evaluation comes to.

A step is reported only once a block has got its value, so an evaluation that fails leaves calls
without a trace. `walkCalls` reports a call when it begins. It is `walk` in everything else: it ends
in the same way, and every step that `walk` reports is a call that `walkCalls` reported
(`walkCalls_reports`).

* `Site.Counted`: the block at a site is laid out, and the numbers in it follow from `count`.
* `Rule.apply_keeps`: at a counted site, rules make their calls at counted sites.
* `calls_get_inputCount`: the main result, with what it says about the notes on the tree.
-/

namespace BlockCalculus

/-! ## Calls -/

/-- A block is to be evaluated on inputs. -/
structure BlockCall extends Site where
  inputs : List Int

/-- Evaluates as `walk` does, but reports every block when its evaluation begins rather than when
it has got its value. There is no value to report then, and zero stands for it. -/
def walkCalls (ceiling : Int) : (levels : Nat) → Evaluator
  | 0 => fun site inputs => .step ⟨site, inputs, 0⟩ fun _ => .fail (.error .recursionLimit)
  | levels + 1 => fun site inputs =>
    .step ⟨site, inputs, 0⟩ fun _ =>
      .look site fun b =>
        .consult b.head.kind fun
          | none => .fail (.error (.unknownKind b.head.kind))
          | some entry =>
            entry.rule.apply ceiling (walkCalls ceiling levels) ⟨site.position, b⟩ inputs

/-- The call that a report of `walkCalls` tells of. -/
def Step.call (s : Step) : BlockCall :=
  ⟨s.toSite, s.inputs⟩

/-- The calls that evaluating a tree makes, with at most `levels` blocks under evaluation at once,
in the order in which they begin. -/
def Block.callsWithin (levels : Nat) (c : Catalog) (options : EvalOptions) (tree : Block)
    (inputs : List Int) : List BlockCall :=
  ((walkCalls options.ceiling levels ⟨[], tree.clearTrace⟩ inputs).steps c).map Step.call

/-- The second walk ends as the first does, and reports the calls of all its steps. -/
def Comparison.reports (c : Catalog) : Comparison c Eq where
  Rel w w' := w.ending c = w'.ending c ∧ ∀ s ∈ w.steps c, s.call ∈ (w'.steps c).map Step.call
  done _ := ⟨rfl, nofun⟩
  bind := by
    intro α β w w' next next' hw hnext
    rw [Walk.ending_bind, Walk.ending_bind, Walk.steps_bind, Walk.steps_bind, ← hw.1]
    cases w.ending c with
    | error e =>
      simp only [List.append_nil]
      exact ⟨trivial, hw.2⟩
    | ok a =>
      refine ⟨(hnext a).1, fun s hs => ?_⟩
      rw [List.map_append, List.mem_append]
      exact (List.mem_append.mp hs).imp (hw.2 s) ((hnext a).2 s)
  wait h := h
  look hs h := h _ _ hs
  consult h := h

/-- **Reporting calls does not change an evaluation**: it ends as it did, and every step belongs to
one of the calls reported. -/
theorem walkCalls_reports (c : Catalog) (ceiling : Int) (levels : Nat) :
    (Comparison.reports c).Relates (walk ceiling levels) (walkCalls ceiling levels) := by
  have hpairs : (Comparison.reports c).Pairs := Comparison.pairs_eq fun _ => ⟨rfl, nofun⟩
  induction levels with
  | zero =>
    rintro site _ inputs rfl
    exact ⟨rfl, nofun⟩
  | succ levels ih =>
    rintro site _ inputs rfl
    cases hentry : c.lookup? site.block.head.kind with
    | none =>
      simp only [walk, walkCalls, Comparison.reports, Walk.ending, Walk.steps, hentry]
      exact ⟨trivial, fun _ hs => absurd hs List.not_mem_nil⟩
    | some entry =>
      have hrule := Rule.apply_related hpairs ih (Rule.extends_self hpairs _ ceiling)
        (hpairs.own _ entry hentry) (rfl : site = site) inputs
      refine ⟨(ending_walk_of_lookup? hentry ceiling levels inputs).trans ?_, fun s hs => ?_⟩
      · simp only [walkCalls, Walk.ending, hentry]
        exact hrule.1
      · simp only [walkCalls, Walk.steps, hentry, List.map_cons, List.mem_cons]
        rw [steps_walk_of_lookup? hentry, List.mem_append] at hs
        rcases hs with hs | hs
        · exact .inr (hrule.2 s hs)
        · -- The step of the block itself belongs to the call that began with it.
          split at hs
          · rw [List.mem_singleton.mp hs]
            exact .inl rfl
          · cases hs

/-! ## Numbers of inputs by slot -/

namespace Head

variable {h : Head} {s : SlotShape}

/-- The parts of a composition get its inputs. -/
theorem inputs_part (hk : h.kind = .composition) (hs : s ∈ h.layout) {k : Nat}
    (hname : s.name = "g" ++ toString k) (count : Int) : s.inputs count = count := by
  simp only [layout, hk, Catalog.entryOf, Catalog.composition, Entry.layout, if_true] at hs
  rcases List.mem_cons.mp hs with rfl | hs
  · exact absurd hname.symm (Rule.part_ne_outer k)
  · obtain ⟨j, -, rfl⟩ := List.mem_map.mp hs
    rfl

/-- The outer function of a composition gets one input for each part. -/
theorem inputs_outer (hk : h.kind = .composition) {m : Int}
    (hm : Param.value? "m" h.params = some m) (hs : s ∈ h.layout) (hname : s.name = "f")
    (count : Int) : s.inputs count = m.toNat := by
  simp only [layout, hk, Catalog.entryOf, Catalog.composition, Entry.layout, if_true, hm,
    Option.getD_some] at hs
  rcases List.mem_cons.mp hs with rfl | hs
  · simp only [SlotShape.inputs]
    omega
  · obtain ⟨j, -, rfl⟩ := List.mem_map.mp hs
    exact absurd hname (Rule.part_ne_outer (j + 1))

/-- The base case of a recursion gets one input less. -/
theorem inputs_baseCase (hk : h.kind = .primitiveRecursion) (hs : s ∈ h.layout)
    (hname : s.name = Catalog.baseCase.name) (count : Int) : s.inputs count = count - 1 := by
  simp only [layout, hk, Catalog.entryOf, Catalog.primitiveRecursion, Entry.layout] at hs
  rcases List.mem_cons.mp hs with rfl | hs
  · rfl
  · rw [List.mem_singleton.mp hs] at hname
    exact absurd hname (by decide)

/-- The recursive case of a recursion gets one input more. -/
theorem inputs_recursiveCase (hk : h.kind = .primitiveRecursion) (hs : s ∈ h.layout)
    (hname : s.name = Catalog.recursiveCase.name) (count : Int) : s.inputs count = count + 1 := by
  simp only [layout, hk, Catalog.entryOf, Catalog.primitiveRecursion, Entry.layout] at hs
  rcases List.mem_cons.mp hs with rfl | hs
  · exact absurd hname (by decide)
  · rw [List.mem_singleton.mp hs]
    rfl

/-- The function of a search gets one input more. -/
theorem inputs_search (hk : h.kind = .minimization) (hs : s ∈ h.layout) (count : Int) :
    s.inputs count = count + 1 := by
  simp only [layout, hk, Catalog.entryOf, Catalog.minimization, Entry.layout] at hs
  rw [List.mem_singleton.mp hs]
  rfl

/-- The body of a named block gets its inputs. -/
theorem inputs_body (hk : h.kind = .custom) (hs : s ∈ h.layout) (count : Int) :
    s.inputs count = count := by
  simp only [layout, hk, Catalog.entryOf, Catalog.custom, Entry.layout] at hs
  rw [List.mem_singleton.mp hs]
  rfl

end Head

/-- A block of the tree stands at the site. It is laid out, and the numbers of inputs in it are
those that follow from `count`. -/
structure Site.Counted (tree : Block) (count : Int) (site : Site) : Prop where
  at? : tree.at? site.position = some site.block
  laidOut : site.block.LaidOut
  counts : site.block.propagate count = site.block

namespace Site.Counted

variable {tree : Block} {count : Int} {site : Site}

theorem inputCount (h : site.Counted tree count) : site.block.head.inputCount = count := by
  rw [← h.counts, Block.head_propagate]

/-- **Slots lead from counted sites to counted sites**: if every slot of a name in the layout gives
its occupant `inner` inputs, the numbers in what the name leads to follow from `inner`. -/
theorem seek? (h : site.Counted tree count) {slot : String} {i : Nat} {b : Block}
    (hseek : Slot.seek? slot site.block.slots = some (i, b)) {inner : Int}
    (hinner : ∀ s ∈ site.block.head.layout, s.name = slot → s.inputs count = inner) :
    Counted tree inner ⟨site.position ++ [i], b⟩ := by
  obtain ⟨shape, hget, hname⟩ := Slot.getElem?_of_seek? hseek
  have hmem := List.mem_of_getElem? hget
  have hlaid := h.laidOut
  have hcounts := h.counts
  obtain ⟨position, ⟨head, slots⟩⟩ := site
  rw [Block.laidOut_mk] at hlaid
  rw [Block.propagate_mk] at hcounts
  obtain ⟨t, ht, hrule⟩ := hlaid.1.exists_mem hmem
  have hshape : shape.inputs count = inner := by
    rw [← hinner t ht ((congrArg Prod.fst hrule).trans hname), SlotShape.inputs_congr hrule]
  refine ⟨Block.at?_of_seek? h.at? hseek, hlaid.2 _ hmem b rfl, ?_⟩
  have hsame := congrArg (fun c : Block => c.slots[i]?) hcounts
  simp only [List.getElem?_map, hget, Option.map_some, Slot.within, Option.some.injEq,
    Slot.mk.injEq, true_and] at hsame
  rw [← hshape]
  exact hsame

end Site.Counted

/-! ## The rules keep count -/

/-- Every step of the walk has the property `Q`, and a value that it ends with has the property
`post`. -/
def Walk.Keeps {α : Type} (Q : Step → Prop) (post : α → Prop) (w : Walk α) : Prop :=
  (∀ s ∈ w.steps .standard, Q s) ∧ ∀ a, w.ending .standard = .ok a → post a

theorem Walk.Keeps.bind {α β : Type} {Q : Step → Prop} {P : α → Prop} {P' : β → Prop}
    {w : Walk α} {next : α → Walk β} (hw : w.Keeps Q P) (hnext : ∀ a, P a → (next a).Keeps Q P') :
    (w.bind next).Keeps Q P' := by
  unfold Keeps
  rw [steps_bind, ending_bind]
  cases hend : w.ending .standard with
  | error e =>
    refine ⟨fun s hs => hw.1 s (by simpa using hs), nofun⟩
  | ok a =>
    have ha := hnext a (hw.2 a hend)
    exact ⟨fun s hs => (List.mem_append.mp hs).elim (hw.1 s) (ha.1 s), ha.2⟩

theorem Walk.keeps_fail {α : Type} {Q : Step → Prop} {post : α → Prop} (e : Failure) :
    (.fail e : Walk α).Keeps Q post :=
  ⟨nofun, nofun⟩

namespace Rule

variable {Q : Step → Prop} {tree : Block} {eval : Evaluator} {site : Site} {count : Int}

/-- At counted sites, given as many inputs as these count, the evaluator takes steps with the
property `Q` only. -/
def KeepsCount (Q : Step → Prop) (tree : Block) (eval : Evaluator) : Prop :=
  ∀ (site : Site) (inputs : List Int), site.Counted tree inputs.length →
    (eval site inputs).Keeps Q fun _ => True

theorem occupant_keeps (hs : site.Counted tree count) {slot : String} {inner : Int}
    (hinner : ∀ s ∈ site.block.head.layout, s.name = slot → s.inputs count = inner) :
    (occupant site slot).Keeps Q fun found => found.Counted tree inner := by
  unfold Walk.Keeps
  rw [ending_occupant]
  cases hseek : Slot.seek? slot site.block.slots with
  | none =>
    simp only [occupant, Walk.steps, hseek]
    exact ⟨fun _ hs => absurd hs List.not_mem_nil, fun _ ha => by cases ha⟩
  | some found =>
    simp only [occupant, Walk.steps, hseek]
    refine ⟨fun _ hs => absurd hs List.not_mem_nil, fun a ha => ?_⟩
    cases ha
    exact hs.seek? hseek hinner

theorem inSlot_keeps (hev : KeepsCount Q tree eval) (hs : site.Counted tree count) {slot : String}
    {inputs : List Int}
    (hinner : ∀ s ∈ site.block.head.layout, s.name = slot → s.inputs count = inputs.length) :
    (inSlot eval site slot inputs).Keeps Q fun _ => True :=
  (occupant_keeps hs hinner).bind fun found hfound => hev found inputs hfound

theorem parameter_keeps (b : Block) (name : String) :
    (parameter b name).Keeps Q fun n => b.param? name = some n := by
  unfold parameter
  split
  · rename_i n hn
    refine ⟨nofun, fun a ha => ?_⟩
    cases ha
    exact hn
  · exact Walk.keeps_fail _

theorem parts_keeps (hev : KeepsCount Q tree eval) {inputs : List Int}
    (hk : site.block.head.kind = .composition) (hs : site.Counted tree inputs.length)
    (count first : Nat) :
    (parts eval site inputs count first).Keeps Q fun ys => ys.length = count := by
  induction count generalizing first with
  | zero => exact ⟨nofun, fun ys hys => by cases hys; rfl⟩
  | succ count ih =>
    have hfirst : (inSlot eval site ("g" ++ toString first) inputs).Keeps Q fun _ => True :=
      inSlot_keeps hev hs fun s hmem hname => Head.inputs_part hk hmem hname _
    refine hfirst.bind fun y _ => (ih (first + 1)).bind fun ys hys => ?_
    exact ⟨nofun, fun zs hzs => by cases hzs; exact congrArg (· + 1) hys⟩

theorem search_keeps {f : Site} {inputs : List Int} {exhausted : Walk Int}
    (h : ∀ n : Nat, (eval f (inputs ++ [(n : Int)])).Keeps Q fun _ => True)
    (hex : exhausted.Keeps Q fun _ => True) (count first : Nat) :
    (search eval f inputs exhausted count first).Keeps Q fun _ => True := by
  induction count generalizing first with
  | zero => exact hex
  | succ count ih =>
    refine (h first).bind fun y _ => ?_
    split
    · exact ⟨nofun, fun _ _ => trivial⟩
    · exact ih (first + 1)

theorem primitiveRecursion_keeps (hev : KeepsCount Q tree eval) {inputs : List Int}
    (hk : site.block.head.kind = .primitiveRecursion) (hs : site.Counted tree inputs.length) :
    (primitiveRecursion eval site inputs).Keeps Q fun _ => True := by
  unfold primitiveRecursion
  cases hlast : inputs.getLast? with
  | none => exact Walk.keeps_fail _
  | some n =>
    have hpos : 0 < inputs.length := by
      refine List.length_pos_iff.mpr ?_
      rintro rfl
      cases hlast
    have hlen : inputs.dropLast.length = inputs.length - 1 := List.length_dropLast
    dsimp only
    split
    · refine inSlot_keeps hev hs fun s hmem hname => ?_
      rw [Head.inputs_baseCase hk hmem hname]
      omega
    · -- The block itself gets as many inputs as before.
      have hself : (inputs.dropLast ++ [n - 1]).length = inputs.length := by
        rw [List.length_append, hlen, List.length_singleton]
        omega
      refine Walk.Keeps.bind (hev site _ (hself ▸ hs)) fun z _ => ?_
      refine inSlot_keeps hev hs fun s hmem hname => ?_
      rw [Head.inputs_recursiveCase hk hmem hname, List.length_append, hlen, List.length_cons,
        List.length_singleton]
      omega

theorem minimization_keeps (hev : KeepsCount Q tree eval) {inputs : List Int}
    (hk : site.block.head.kind = .minimization) (hs : site.Counted tree inputs.length)
    (ceiling : Int) : (minimization ceiling eval site inputs).Keeps Q fun _ => True := by
  have hf : (occupant site "f").Keeps Q fun f => f.Counted tree (inputs.length + 1) :=
    occupant_keeps hs fun s hmem _ => Head.inputs_search hk hmem _
  have hex : Walk.Keeps Q (fun _ => True)
      (.look site fun b => .fail (.error (.nonConvergence ceiling b.head.id)) : Walk Int) :=
    ⟨nofun, nofun⟩
  refine hf.bind fun f hf => search_keeps (fun n => hev f _ ?_) hex _ _
  simpa using hf

theorem custom_keeps (hev : KeepsCount Q tree eval) {inputs : List Int}
    (hk : site.block.head.kind = .custom) (hs : site.Counted tree inputs.length) :
    (custom eval site inputs).Keeps Q fun _ => True := by
  unfold custom
  cases hseek : Slot.seek? Catalog.customBody.name site.block.slots with
  | none => exact Walk.keeps_fail _
  | some found =>
    exact hev _ inputs (hs.seek? hseek fun s hmem _ => Head.inputs_body hk hmem _)

/-- **At a counted site, rules evaluate counted sites**, each on as many inputs as it counts,
whatever the inputs are and whatever goes wrong on the way. -/
theorem apply_keeps (hev : KeepsCount Q tree eval) {inputs : List Int}
    (hs : site.Counted tree inputs.length) (ceiling : Int) :
    (Rule.apply ceiling (.ofKind site.block.head.kind) eval site inputs).Keeps Q
      fun _ => True := by
  cases hk : site.block.head.kind with
  | zero => exact ⟨nofun, fun _ _ => trivial⟩
  | successor =>
    show (successor site.block inputs).Keeps Q fun _ => True
    unfold successor
    split
    · exact ⟨nofun, fun _ _ => trivial⟩
    · exact Walk.keeps_fail _
  | projection =>
    show (projection site.block inputs).Keeps Q fun _ => True
    unfold projection
    split
    · exact Walk.keeps_fail _
    · refine (parameter_keeps _ _).bind fun i _ => ?_
      split
      · exact ⟨nofun, fun _ _ => trivial⟩
      · exact Walk.keeps_fail _
  | composition =>
    refine (parameter_keeps _ _).bind fun m hm => ?_
    refine (parts_keeps hev hk hs _ _).bind fun ys hys => ?_
    refine inSlot_keeps hev hs fun s hmem hname => ?_
    rw [Head.inputs_outer hk hm hmem hname, hys]
  | primitiveRecursion => exact primitiveRecursion_keeps hev hk hs
  | minimization => exact minimization_keeps hev hk hs ceiling
  | custom => exact custom_keeps hev hk hs

end Rule

/-- The call is at a block of the tree, and has as many inputs as the block is to have. -/
def BlockCall.InCount (tree : Block) (call : BlockCall) : Prop :=
  tree.at? call.position = some call.block ∧
    (call.inputs.length : Int) = call.block.head.inputCount

/-- **Calls keep count**, from whichever counted site they begin. -/
theorem walkCalls_keeps (tree : Block) (ceiling : Int) (levels : Nat) :
    Rule.KeepsCount (fun s => s.call.InCount tree) tree (walkCalls ceiling levels) := by
  induction levels with
  | zero =>
    intro site inputs hs
    have hcall : BlockCall.InCount tree ⟨site, inputs⟩ := ⟨hs.at?, hs.inputCount.symm⟩
    exact ⟨by simpa [walkCalls, Walk.steps, Step.call] using hcall, fun _ _ => trivial⟩
  | succ levels ih =>
    intro site inputs hs
    have hcall : BlockCall.InCount tree ⟨site, inputs⟩ := ⟨hs.at?, hs.inputCount.symm⟩
    have hrule := Rule.apply_keeps ih hs ceiling
    refine ⟨?_, fun _ _ => trivial⟩
    simp only [walkCalls, Walk.steps, Catalog.lookup?_standard, Catalog.rule_entryOf,
      List.forall_mem_cons]
    exact ⟨hcall, hrule.1⟩

namespace Block

/-- What steps left on a tree as last inputs: a block where one of the steps was taken bears as many
inputs as it is to have, and a block where none was taken bears what it bore. -/
def InputsNoted (steps : List Step) (before after : Block) : Prop :=
  ∀ p b, before.at? p = some b → ∃ b', after.at? p = some b' ∧
    b'.head.inputCount = b.head.inputCount ∧
    ((∃ s ∈ steps, s.position = p) →
      ∃ xs, b'.head.lastInput = some xs ∧ (xs.length : Int) = b'.head.inputCount) ∧
    ((∀ s ∈ steps, s.position ≠ p) → b'.head.lastInput = b.head.lastInput)

/-- A position of a tree without its notes is one of the tree. -/
theorem exists_of_at?_clearTrace {tree c : Block} {p : Position}
    (h : tree.clearTrace.at? p = some c) :
    ∃ b, tree.at? p = some b ∧ c.head.inputCount = b.head.inputCount := by
  rw [clearTrace, at?_mapHeads] at h
  obtain ⟨b, hb, rfl⟩ := Option.map_eq_some_iff.mp h
  exact ⟨b, hb, by rw [head_mapHeads]⟩

theorem inputsNoted_traced {steps : List Step} {tree : Block}
    (h : ∀ s ∈ steps, s.call.InCount tree.clearTrace) :
    InputsNoted steps tree (Walk.traced true steps tree) := by
  intro p b hb
  have hhead := Walk.head_at?_traced steps tree p
  rw [hb, Option.map_some] at hhead
  obtain ⟨b', hb', hmark⟩ := Option.map_eq_some_iff.mp hhead
  refine ⟨b', hb', ?_⟩
  cases hlast : Step.lastAt? p steps with
  | none =>
    rw [hlast] at hmark
    have hnone := Step.lastAt?_eq_none.mp hlast
    refine ⟨by rw [hmark]; rfl, fun ⟨s, hs, hp⟩ => absurd hp (hnone s hs), fun _ => ?_⟩
    rw [hmark]
    rfl
  | some s =>
    rw [hlast] at hmark
    obtain ⟨hs, hp⟩ := Step.mem_of_lastAt? hlast
    obtain ⟨hat, hcount⟩ := h s hs
    obtain ⟨d, hd, hsame⟩ := exists_of_at?_clearTrace hat
    obtain rfl : b = d := Option.some.inj (hb.symm.trans (hp ▸ hd))
    refine ⟨by rw [hmark]; rfl, fun _ => ⟨s.inputs, by rw [hmark]; rfl, ?_⟩,
      fun hnone => absurd hp (hnone s hs)⟩
    rw [hmark]
    exact hcount.trans hsame

/-- **Every call gets as many inputs as its block is to have.** If a tree is laid out by the
standard catalogue, and its numbers of inputs follow from as many as there are, then every call that
its evaluation makes is at a block of the tree and has as many inputs as that block is to have,
however the evaluation ends. The evaluation that reports its calls is the evaluation: it comes out
the same, and every step is one of the calls. So a traced evaluation, direct or stepped and called
off at any time, leaves on every block at which it took a step as many inputs as the block is to
have. -/
theorem calls_get_inputCount {tree : Block} (hlaid : tree.LaidOut) (levels : Nat)
    (options : EvalOptions) (inputs : List Int) :
    let counted := tree.propagate inputs.length
    let calls := counted.callsWithin levels .standard options inputs
    let direct := counted.evaluateWithin levels .standard options inputs
    let stepped halt := counted.evaluateSteppedWithin levels .standard options halt inputs
    (∀ call ∈ calls, ∃ b, counted.at? call.position = some b ∧
      (call.inputs.length : Int) = b.head.inputCount) ∧
    ((walkCalls options.ceiling levels ⟨[], counted.clearTrace⟩ inputs).ending .standard).mapError
      Failure.fault = direct.outcome ∧
    (∀ s ∈ (stepped none).steps, s.call ∈ calls) ∧
    (options.trace = true → counted.InputsNoted (stepped none).steps direct.tree ∧
      ∀ halt, counted.InputsNoted (stepped halt).steps (stepped halt).tree) := by
  intro counted calls direct stepped
  have hsite : Site.Counted counted.clearTrace inputs.length ⟨[], counted.clearTrace⟩ := by
    refine ⟨at?_nil _, (hlaid.propagate _).clearTrace, ?_⟩
    rw [clearTrace, ← mapHeads_propagate (fun _ _ => rfl), propagate_propagate]
  have hcalls := (walkCalls_keeps counted.clearTrace options.ceiling levels _ inputs hsite).1
  have hreports := walkCalls_reports .standard options.ceiling levels ⟨[], counted.clearTrace⟩ _
    inputs rfl
  have hfull : (stepped none).steps = (counted.walkWithin levels options inputs).steps .standard :=
    congrArg Walk.Stepped.steps (Walk.followStepped_eq _ _ _ _)
  have hsteps : ∀ s ∈ (counted.walkWithin levels options inputs).steps .standard,
      s.call.InCount counted.clearTrace := by
    intro s hs
    obtain ⟨s', hs', hcall⟩ := List.mem_map.mp (hreports.2 s hs)
    exact hcall ▸ hcalls s' hs'
  refine ⟨fun call hcall => ?_, ?_, ?_, fun htrace => ⟨?_, fun halt => ?_⟩⟩
  · obtain ⟨s, hs, rfl⟩ := List.mem_map.mp hcall
    obtain ⟨hat, hcount⟩ := hcalls s hs
    obtain ⟨b, hb, hsame⟩ := exists_of_at?_clearTrace hat
    exact ⟨b, hb, hcount.trans hsame⟩
  · rw [← hreports.1]
    exact (evaluateWithin_outcome Catalog.prompt_standard levels options counted inputs).symm
  · rw [hfull]
    exact hreports.2
  · have htree := evaluateWithin_tree Catalog.prompt_standard levels options counted inputs
    rw [htrace] at htree
    rw [hfull]
    exact htree ▸ inputsNoted_traced hsteps
  · obtain ⟨hpre, htree⟩ := evaluateSteppedWithin_traced (c := .standard) levels options halt
      counted inputs
    rw [htrace] at htree
    exact htree ▸ inputsNoted_traced fun s hs => hsteps s (hpre.subset hs)

/-- Addition makes six calls on two inputs, and all of them end. On one input it makes three, the
last of which has nothing to project; none of them ends, and all have the inputs they should. -/
theorem calls_get_inputCount_plus :
    let options : EvalOptions := { trace := true }
    let counted := plus.propagate 2
    let short := plus.propagate 1
    plus.LaidOut ∧ (counted.callsWithin evaluationLimit .standard options [2, 1]).length = 6 ∧
      counted.InputsNoted
        (counted.evaluateSteppedWithin evaluationLimit .standard options none [2, 1]).steps
        (counted.evaluateWithin evaluationLimit .standard options [2, 1]).tree ∧
      (short.callsWithin evaluationLimit .standard options [1]).length = 3 ∧
      (∀ call ∈ short.callsWithin evaluationLimit .standard options [1],
        ∃ b, short.at? call.position = some b ∧
          (call.inputs.length : Int) = b.head.inputCount) := by
  intro options counted short
  have hcounted := calls_get_inputCount laidOut_plus evaluationLimit options [2, 1]
  have hshort := calls_get_inputCount laidOut_plus evaluationLimit options [1]
  exact ⟨laidOut_plus, rfl, (hcounted.2.2.2 rfl).1, rfl, hshort.1⟩

end Block

end BlockCalculus
