import BlockCalculus.Evaluation

/-!
# What is assumed of rules of one's own

Nothing is known of a rule that a catalogue is given from outside, so what a statement needs of such
rules is a hypothesis on the catalogue. There are two kinds of them.

* `Catalog.Uses`: the acts of the rules are among some acts, as long as inputs and values are as
  expected. Rules that never wait (`Catalog.Prompt`), that only go down the tree
  (`Catalog.Descends`) and that never fail with an error (`Catalog.Avoids`) are of this kind.
* `Catalog.Ignores`: the rules do not tell some blocks from others.

The standard catalogue has no such rules, so it meets all of them.
-/

namespace BlockCalculus

/-- What a script does at one point of it, except for looks. -/
inductive Script.Act where
  | give (value : Int)
  | fail (e : Failure)
  | wait
  | evaluate (slot : Option String) (inputs : List Int)

namespace Script

/-- Goes down the tree, if anywhere: what is evaluated is in a slot of the block. That there are no
levels left is not for a script to say. -/
def Act.Descends (act : Act) : Prop :=
  act ≠ .fail (.error .recursionLimit) ∧ ∀ inputs, act ≠ .evaluate none inputs

/-- Each act of a script is allowed, as long as the blocks that it has evaluated give expected
values. -/
def Uses (allowed : Act → Prop) (expected : Int → Prop) : Script → Prop
  | give n => allowed (.give n)
  | fail e => allowed (.fail e)
  | wait rest => allowed .wait ∧ Uses allowed expected (rest ())
  | look next => ∀ b, Uses allowed expected (next b)
  | evaluate slot inputs next =>
    allowed (.evaluate slot inputs) ∧ ∀ n, expected n → Uses allowed expected (next n)

/-- Looking at one or the other of two blocks that correspond makes no difference to a script. -/
def Ignores (T : Block → Block → Prop) : Script → Prop
  | give _ | fail _ => True
  | wait rest => Ignores T (rest ())
  | look next => (∀ b b', T b b' → next b = next b') ∧ ∀ b, Ignores T (next b)
  | evaluate _ _ next => ∀ n, Ignores T (next n)

theorem Ignores.mono {T T' : Block → Block → Prop} (hT : ∀ b b', T' b b' → T b b')
    {script : Script} (h : script.Ignores T) : script.Ignores T' := by
  induction script with
  | give n => trivial
  | fail e => trivial
  | wait rest ih => exact ih () h
  | look next ih => exact ⟨fun b b' hb => h.1 b b' (hT b b' hb), fun b => ih b (h.2 b)⟩
  | evaluate slot inputs next ih => exact fun n => ih n (h n)

theorem ignores_eq (script : Script) : script.Ignores Eq := by
  induction script with
  | give n => trivial
  | fail e => trivial
  | wait rest ih => exact ih ()
  | look next ih => exact ⟨fun b b' h => congrArg next h, ih⟩
  | evaluate slot inputs next ih => exact ih

end Script

namespace Rule

/-- On expected inputs, each act of a rule of one's own is allowed. -/
def Uses (allowed : Script.Act → Prop) (expected : Int → Prop) : Rule → Prop
  | ofKind _ => True
  | own script => ∀ b inputs, (∀ x ∈ inputs, expected x) → (script b inputs).Uses allowed expected

/-- To a rule of one's own, blocks that correspond are the same. -/
def Ignores (T : Block → Block → Prop) : Rule → Prop
  | ofKind _ => True
  | own script =>
    (∀ b b' inputs, T b b' → script b inputs = script b' inputs) ∧
      ∀ b inputs, (script b inputs).Ignores T

theorem Ignores.mono {T T' : Block → Block → Prop} (hT : ∀ b b', T' b b' → T b b') {rule : Rule}
    (h : rule.Ignores T) : rule.Ignores T' := by
  cases rule with
  | ofKind kind => trivial
  | own script =>
    exact ⟨fun b b' inputs hb => h.1 b b' inputs (hT b b' hb), fun b inputs =>
      (h.2 b inputs).mono hT⟩

theorem ignores_eq (rule : Rule) : rule.Ignores Eq := by
  cases rule with
  | ofKind kind => trivial
  | own script =>
    exact ⟨fun b b' inputs h => congrArg (script · inputs) h, fun b inputs =>
      (script b inputs).ignores_eq⟩

end Rule

namespace Catalog

/-- On expected inputs, each act of the catalogue's own rules is allowed. -/
def Uses (allowed : Script.Act → Prop) (expected : Int → Prop) (c : Catalog) : Prop :=
  ∀ kind entry, c.lookup? kind = some entry → entry.rule.Uses allowed expected

/-- To the catalogue's own rules, blocks that correspond are the same. -/
def Ignores (T : Block → Block → Prop) (c : Catalog) : Prop :=
  ∀ kind entry, c.lookup? kind = some entry → entry.rule.Ignores T

/-- No rule of the catalogue waits. -/
def Prompt (c : Catalog) : Prop :=
  c.Uses (· ≠ .wait) fun _ => True

/-- Rules of the catalogue's own go down the tree only. -/
def Descends (c : Catalog) : Prop :=
  c.Uses Script.Act.Descends fun _ => True

/-- No rule of the catalogue's own fails with an error. -/
def Avoids (e : EvalError) (c : Catalog) : Prop :=
  c.Uses (· ≠ .fail (.error e)) fun _ => True

@[simp] theorem rule_entryOf (kind : Kind) : (entryOf kind).rule = .ofKind kind := by
  cases kind <;> rfl

/-- A catalogue without rules of its own allows no act of one. -/
theorem uses_of_entries {c : Catalog}
    (h : ∀ entry ∈ c.entries, ∃ kind, entry.rule = .ofKind kind)
    (allowed : Script.Act → Prop) (expected : Int → Prop) : c.Uses allowed expected := by
  intro kind entry hk
  obtain ⟨kind', hrule⟩ := h entry (List.mem_of_find?_eq_some hk)
  rw [hrule]
  trivial

theorem uses_standard (allowed : Script.Act → Prop) (expected : Int → Prop) :
    standard.Uses allowed expected := by
  refine uses_of_entries (fun entry h => ?_) allowed expected
  obtain ⟨kind, -, rfl⟩ := List.mem_map.mp h
  exact ⟨kind, rule_entryOf kind⟩

theorem ignores_standard (T : Block → Block → Prop) : standard.Ignores T := by
  intro kind entry h
  rw [lookup?_standard] at h
  cases h
  rw [rule_entryOf]
  trivial

theorem prompt_standard : standard.Prompt :=
  uses_standard _ _

theorem Ignores.mono {T T' : Block → Block → Prop} (hT : ∀ b b', T' b b' → T b b') {c : Catalog}
    (h : c.Ignores T) : c.Ignores T' :=
  fun kind entry hk => (h kind entry hk).mono hT

theorem ignores_eq (c : Catalog) : c.Ignores Eq :=
  fun _ entry _ => entry.rule.ignores_eq

end Catalog

end BlockCalculus
