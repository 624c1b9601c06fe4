import BlockCalculus.Proofs.Script

/-!
# Comparing evaluations

A rule is given the evaluator for the blocks in its slots and the site of its own block, and does
not look past them. So two evaluations can be compared one rule at a time: if two evaluators give
related walks at corresponding sites, every rule does so too (`Rule.apply_related`), and then the
evaluations do, whatever the levels left to them (`walk_related`).

`Comparison` is what it takes of a relation between walks, `Comparison.Pairs` what it takes of sites
to correspond. What a look shows is not settled by the site alone, since blocks bear notes that come
and go. So looks at corresponding sites may show any two blocks with which the sites correspond.
-/

namespace BlockCalculus

/-- What sort of failure it is: of an evaluation error its class, and whether it can be put into
words, and of others all. -/
def Failure.sort : Failure → (EvalCode × Bool) ⊕ (String × String)
  | error e => .inl (e.code, e.isTellable)
  | raised cause message => .inr (cause, message)

/-- A relation between walks through the same catalogue that respects how walks are put together.
`S` says which sites correspond. -/
structure Comparison (c : Catalog) (S : Site → Site → Prop) where
  Rel : {α : Type} → Walk α → Walk α → Prop
  done : ∀ {α : Type} (a : α), Rel (.done a) (.done a)
  bind : ∀ {α β : Type} {w w' : Walk α} {next next' : α → Walk β},
    Rel w w' → (∀ a, Rel (next a) (next' a)) → Rel (w.bind next) (w'.bind next')
  wait : ∀ {α : Type} {rest rest' : Unit → Walk α},
    Rel (rest ()) (rest' ()) → Rel (.wait rest) (.wait rest')
  look : ∀ {α : Type} {site site' : Site} {next next' : Block → Walk α}, S site site' →
    (∀ b b', S ⟨site.position, b⟩ ⟨site'.position, b'⟩ → Rel (next b) (next' b')) →
      Rel (.look site next) (.look site' next')
  consult : ∀ {α : Type} {kind : Kind} {next next' : Option Entry → Walk α},
    Rel (next (c.lookup? kind)) (next' (c.lookup? kind)) →
      Rel (.consult kind next) (.consult kind next')

namespace Comparison

variable {c : Catalog} {S : Site → Site → Prop}

/-- What rules of one's own are shown at corresponding sites. -/
def Shown (S : Site → Site → Prop) (b b' : Block) : Prop :=
  ∃ s s', S s s' ∧ b = s.block.clearTrace ∧ b' = s'.block.clearTrace

/-- Corresponding sites hold blocks of the same kind and with the same parameters, and names of
slots lead from corresponding sites to corresponding sites. Rules of the catalogue's own do not tell
their blocks apart. What a rule has to complain of at one of them is related to the same complaint
at the other. -/
structure Pairs (R : Comparison c S) : Prop where
  kind : ∀ {s s' : Site}, S s s' → s.block.head.kind = s'.block.head.kind
  param : ∀ {s s' : Site}, S s s' → ∀ name, s.block.param? name = s'.block.param? name
  seek : ∀ {s s' : Site}, S s s' → ∀ name,
    (Slot.seek? name s.block.slots = none ∧ Slot.seek? name s'.block.slots = none) ∨
      ∃ i b b', Slot.seek? name s.block.slots = some (i, b) ∧
        Slot.seek? name s'.block.slots = some (i, b') ∧
        S ⟨s.position ++ [i], b⟩ ⟨s'.position ++ [i], b'⟩
  own : c.Ignores (Shown S)
  fail : ∀ {s s' : Site}, S s s' → ∀ {α : Type} (e : Head → Failure),
    (∀ h h', (e h).sort = (e h').sort) →
      R.Rel (.fail (e s.block.head) : Walk α) (.fail (e s'.block.head))

/-- Every site corresponds to itself, if a failure is related to itself. -/
theorem pairs_eq {R : Comparison c Eq}
    (hfail : ∀ {α : Type} (e : Failure), R.Rel (.fail e : Walk α) (.fail e)) : R.Pairs where
  kind h := by rw [h]
  param h name := by rw [h]
  seek {s s'} h name := by
    subst h
    cases hseek : Slot.seek? name s.block.slots with
    | none => exact .inl ⟨rfl, rfl⟩
    | some found => exact .inr ⟨found.1, found.2, found.2, rfl, rfl, rfl⟩
  own := c.ignores_eq.mono fun b b' ⟨s, s', h, hb, hb'⟩ => by rw [hb, hb', h]
  fail {s s'} h := by
    subst h
    exact fun e _ => hfail _

/-- Two evaluators give related walks at corresponding sites. -/
def Relates (R : Comparison c S) (eval eval' : Evaluator) : Prop :=
  ∀ site site' inputs, S site site' → R.Rel (eval site inputs) (eval' site' inputs)

end Comparison

namespace Rule

variable {c : Catalog} {S : Site → Site → Prop} {R : Comparison c S} {eval eval' : Evaluator}
  {site site' : Site}

theorem inSlot_related (hS : R.Pairs) (hev : R.Relates eval eval') (hs : S site site')
    (slot : String) (inputs : List Int) :
    R.Rel (inSlot eval site slot inputs) (inSlot eval' site' slot inputs) := by
  refine R.look hs fun b b' hb => ?_
  obtain ⟨h, h'⟩ | ⟨i, d, d', h, h', hd⟩ := hS.seek hb slot
  · dsimp only at h h' ⊢
    rw [h, h']
    exact hS.fail hb (fun head => .error (.missingSlot head.kind slot head.id)) fun _ _ => rfl
  · dsimp only at h h' ⊢
    rw [h, h']
    exact hev _ _ inputs hd

theorem parameter_related (hS : R.Pairs) (hs : S site site') (name : String) :
    R.Rel (parameter site.block name) (parameter site'.block name) := by
  unfold parameter
  rw [← hS.param hs name]
  split
  · exact R.done _
  · exact hS.fail hs (fun head => .error (.missingParameter head.kind name head.id)) fun _ _ => rfl

theorem successor_related (hS : R.Pairs) (hs : S site site') (inputs : List Int) :
    R.Rel (successor site.block inputs) (successor site'.block inputs) := by
  unfold successor
  split
  · exact R.done _
  · exact hS.fail hs (fun head => .error (.arity head.kind inputs.length head.id)) fun _ _ => rfl

theorem projection_related (hS : R.Pairs) (hs : S site site') (inputs : List Int) :
    R.Rel (projection site.block inputs) (projection site'.block inputs) := by
  unfold projection
  split
  · exact hS.fail hs (fun head => .error (.noInputs head.kind head.id)) fun _ _ => rfl
  · refine R.bind (parameter_related hS hs "i") fun i => ?_
    split
    · exact R.done _
    · exact hS.fail hs
        (fun head => .error (.parameterOutOfRange head.kind "i" i inputs.length head.id))
        fun _ _ => rfl

theorem parts_related (hS : R.Pairs) (hev : R.Relates eval eval') (hs : S site site')
    (inputs : List Int) (count first : Nat) :
    R.Rel (parts eval site inputs count first) (parts eval' site' inputs count first) := by
  induction count generalizing first with
  | zero => exact R.done _
  | succ count ih =>
    refine R.bind (inSlot_related hS hev hs _ inputs) fun y => ?_
    exact R.bind (ih (first + 1)) fun ys => R.done _

theorem primitiveRecursion_related (hS : R.Pairs) (hev : R.Relates eval eval')
    (hs : S site site') (inputs : List Int) :
    R.Rel (primitiveRecursion eval site inputs) (primitiveRecursion eval' site' inputs) := by
  unfold primitiveRecursion
  split
  · exact hS.fail hs (fun head => .error (.noInputs head.kind head.id)) fun _ _ => rfl
  · dsimp only
    split
    · exact inSlot_related hS hev hs _ _
    · exact R.bind (hev _ _ _ hs) fun z => inSlot_related hS hev hs _ _

/-- Searches are related if the second one tries at least the candidates of the first, and goes on
in a related way where the first is exhausted. -/
theorem search_related {f f' : Site} {inputs : List Int} {exhausted exhausted' : Walk Int}
    (hf : ∀ xs, R.Rel (eval f xs) (eval' f' xs)) (extra count first : Nat)
    (hex : R.Rel exhausted (search eval' f' inputs exhausted' extra (first + count))) :
    R.Rel (search eval f inputs exhausted count first)
      (search eval' f' inputs exhausted' (count + extra) first) := by
  induction count generalizing first with
  | zero =>
    rw [Nat.zero_add]
    exact hex
  | succ count ih =>
    rw [Nat.add_right_comm]
    refine R.bind (hf _) fun y => ?_
    split
    · exact R.done _
    · exact ih (first + 1) (by rwa [Nat.add_right_comm, Nat.add_assoc])

/-- A search below `ceiling` and one below `ceiling'` can be compared: where the first is
exhausted, it is related to what the second does with the candidates left to it. -/
def Extends (R : Comparison c S) (eval' : Evaluator) (ceiling ceiling' : Int) : Prop :=
  ceiling.toNat ≤ ceiling'.toNat ∧ ∀ site site' f' inputs, S site site' →
    R.Rel (.look site fun b => .fail (.error (.nonConvergence ceiling b.head.id)))
      (search eval' f' inputs
        (.look site' fun b => .fail (.error (.nonConvergence ceiling' b.head.id)))
        (ceiling'.toNat - ceiling.toNat) ceiling.toNat)

/-- With the same ceiling, no candidates are left. -/
theorem extends_self (hS : R.Pairs) (eval' : Evaluator) (ceiling : Int) :
    Extends R eval' ceiling ceiling := by
  refine ⟨Nat.le_refl _, fun site site' f' inputs hs => ?_⟩
  rw [Nat.sub_self]
  refine R.look hs fun b b' hb => ?_
  exact hS.fail hb (fun head => .error (.nonConvergence ceiling head.id)) fun _ _ => rfl

theorem minimization_related {ceiling ceiling' : Int} (hS : R.Pairs)
    (hev : R.Relates eval eval') (hex : Extends R eval' ceiling ceiling')
    (hs : S site site') (inputs : List Int) :
    R.Rel (minimization ceiling eval site inputs) (minimization ceiling' eval' site' inputs) := by
  refine R.look hs fun b b' hb => ?_
  obtain ⟨h, h'⟩ | ⟨i, d, d', h, h', hd⟩ := hS.seek hb "f"
  · dsimp only at h h' ⊢
    rw [h, h']
    exact hS.fail hb (fun head => .error (.missingSlot head.kind "f" head.id)) fun _ _ => rfl
  · dsimp only at h h' ⊢
    rw [h, h']
    have hcount : ceiling'.toNat = ceiling.toNat + (ceiling'.toNat - ceiling.toNat) := by
      have := hex.1
      omega
    show R.Rel (search eval _ inputs _ ceiling.toNat 0) (search eval' _ inputs _ ceiling'.toNat 0)
    rw [hcount]
    refine search_related (fun xs => hev _ _ xs hd) _ _ _ ?_
    rw [Nat.zero_add]
    exact hex.2 site site' _ inputs hs

theorem custom_related (hS : R.Pairs) (hev : R.Relates eval eval') (hs : S site site')
    (inputs : List Int) : R.Rel (custom eval site inputs) (custom eval' site' inputs) := by
  unfold custom
  obtain ⟨h, h'⟩ | ⟨i, b, b', h, h', hb⟩ := hS.seek hs Catalog.customBody.name
  · rw [h, h']
    exact hS.fail hs (fun head => .error (.emptyCustom head.name head.id)) fun _ _ => rfl
  · rw [h, h']
    exact hev _ _ inputs hb

theorem perform_related (hS : R.Pairs) (hev : R.Relates eval eval') (hs : S site site')
    {script : Script} (hscript : script.Ignores (Comparison.Shown S)) :
    R.Rel (perform eval site script) (perform eval' site' script) := by
  induction script with
  | give n => exact R.done n
  | fail e => exact hS.fail hs (fun _ => e) fun _ _ => rfl
  | wait rest ih => exact R.wait (ih () hscript)
  | look next ih =>
    refine R.look hs fun b b' hb => ?_
    rw [hscript.1 _ _ ⟨_, _, hb, rfl, rfl⟩]
    exact ih _ (hscript.2 _)
  | evaluate slot inputs next ih =>
    cases slot with
    | none => exact R.bind (hev _ _ inputs hs) fun n => ih n (hscript n)
    | some slot => exact R.bind (inSlot_related hS hev hs slot inputs) fun n => ih n (hscript n)

/-- **Rules are uniform**: through evaluators that give related walks, at corresponding sites, every
rule gives related walks, if it does not tell the blocks there apart. -/
theorem apply_related {ceiling ceiling' : Int} (hS : R.Pairs) (hev : R.Relates eval eval')
    (hex : Extends R eval' ceiling ceiling') {rule : Rule}
    (hrule : rule.Ignores (Comparison.Shown S)) (hs : S site site') (inputs : List Int) :
    R.Rel (rule.apply ceiling eval site inputs) (rule.apply ceiling' eval' site' inputs) := by
  match rule with
  | .ofKind .zero => exact R.done 0
  | .ofKind .successor => exact successor_related hS hs inputs
  | .ofKind .projection => exact projection_related hS hs inputs
  | .ofKind .composition =>
    refine R.bind (parameter_related hS hs "m") fun m => ?_
    refine R.bind (parts_related hS hev hs inputs _ _) fun ys => ?_
    exact inSlot_related hS hev hs "f" ys
  | .ofKind .primitiveRecursion => exact primitiveRecursion_related hS hev hs inputs
  | .ofKind .minimization => exact minimization_related hS hev hex hs inputs
  | .ofKind .custom => exact custom_related hS hev hs inputs
  | .own script =>
    show R.Rel (perform eval site (script site.block.clearTrace inputs))
      (perform eval' site' (script site'.block.clearTrace inputs))
    rw [hrule.1 _ _ inputs ⟨_, _, hs, rfl, rfl⟩]
    exact perform_related hS hev hs (hrule.2 _ inputs)

end Rule

section Levels

variable {c : Catalog} {S : Site → Site → Prop} {R : Comparison c S}

/-- **Evaluations at corresponding sites are related**, if the second has `extra` more levels than
the first and goes on in a related way where the first has none left. -/
theorem walk_related (extra : Nat) {ceiling ceiling' : Int} (hS : R.Pairs)
    (hstep : ∀ site site' inputs r, S site site' →
      R.Rel (.step ⟨site, inputs, r⟩ fun _ => .done r) (.step ⟨site', inputs, r⟩ fun _ => .done r))
    (hlimit : ∀ site site' inputs, S site site' →
      R.Rel (.fail (.error .recursionLimit)) (walk ceiling' extra site' inputs))
    (hex : ∀ levels, Rule.Extends R (walk ceiling' (levels + extra)) ceiling ceiling')
    (levels : Nat) : R.Relates (walk ceiling levels) (walk ceiling' (levels + extra)) := by
  induction levels with
  | zero =>
    rw [Nat.zero_add]
    exact hlimit
  | succ levels ih =>
    rw [Nat.add_right_comm]
    intro site site' inputs hs
    refine R.look hs fun b b' hb => ?_
    have hkind : b.head.kind = b'.head.kind := hS.kind hb
    rw [← hkind]
    refine R.consult ?_
    cases hk : c.lookup? b.head.kind with
    | none => exact hS.fail hb (fun _ => .error (.unknownKind b.head.kind)) fun _ _ => rfl
    | some entry =>
      exact R.bind (Rule.apply_related hS ih (hex levels) (hS.own _ entry hk) hb inputs) fun r =>
        hstep _ _ inputs r hb

end Levels

end BlockCalculus
