import BlockCalculus.Catalog

/-!
# Walks

Evaluating a tree is a walk through it. A walk reports a step whenever a block has got its value,
and it can be left there and taken up again, so a walk is a value: it is over, or it has a step to
report and goes on after that, or it waits for a turn and goes on after that.

Where a walk is left, the tree may be edited. So a walk does not keep to the tree that it began on:
it asks for a block as it is at that time (`look`), and for what the catalogue says of a kind at
that time (`consult`). If nothing is edited, a look at a block shows what the walk came upon.

What a walk does then is its list of steps and how it ends (`steps`, `ending`). `bind` runs a walk
and then another one that depends on its value.
-/

namespace BlockCalculus

/-- A block that a walk came upon, and where that was. -/
structure Site where
  position : Position
  block : Block

/-- A step: a block has got a value on inputs. -/
structure Step extends Site where
  inputs : List Int
  result : Int

/-- Notes on a block what it got and gave in a step. -/
def Step.mark (s : Step) (h : Head) : Head :=
  { h with lastInput := some s.inputs, lastOutput := some s.result }

/-- Notes a step on its block in a tree. -/
def Step.record (s : Step) (tree : Block) : Block :=
  tree.modifyAt (fun b => { b with head := s.mark b.head }) s.position

/-- A walk that ends with a value or an error. -/
inductive Walk (α : Type) where
  | done (a : α)
  | fail (e : Failure)
  | step (s : Step) (rest : Unit → Walk α)
  | wait (rest : Unit → Walk α)
  | look (site : Site) (next : Block → Walk α)
  | consult (kind : Kind) (next : Option Entry → Walk α)

namespace Walk

variable {α β : Type}

/-- Walks on after a walk that ended with a value. -/
def bind : Walk α → (α → Walk β) → Walk β
  | done a, next => next a
  | fail e, _ => fail e
  | step s rest, next => step s fun _ => bind (rest ()) next
  | wait rest, next => wait fun _ => bind (rest ()) next
  | look site go, next => look site fun b => bind (go b) next
  | consult kind go, next => consult kind fun entry => bind (go entry) next

instance : Monad Walk where
  pure := done
  bind := bind

/-- The steps of a walk through a tree that nobody edits, in order. -/
def steps (c : Catalog) : Walk α → List Step
  | done _ => []
  | fail _ => []
  | step s rest => s :: steps c (rest ())
  | wait rest => steps c (rest ())
  | look site next => steps c (next site.block)
  | consult kind next => steps c (next (c.lookup? kind))

/-- How a walk through a tree that nobody edits ends. -/
def ending (c : Catalog) : Walk α → Except Failure α
  | done a => .ok a
  | fail e => .error e
  | step _ rest => ending c (rest ())
  | wait rest => ending c (rest ())
  | look site next => ending c (next site.block)
  | consult kind next => ending c (next (c.lookup? kind))

@[simp] theorem steps_done (c : Catalog) (a : α) : (done a).steps c = [] := rfl

@[simp] theorem ending_done (c : Catalog) (a : α) : (done a).ending c = .ok a := rfl

/-- A walk that goes on takes the steps of the first part, and those of the second one if the first
ends with a value. -/
theorem steps_bind (c : Catalog) (w : Walk α) (next : α → Walk β) :
    (w.bind next).steps c =
      w.steps c ++ match w.ending c with
        | .ok a => (next a).steps c
        | .error _ => [] := by
  induction w with
  | done a => simp [bind, steps, ending]
  | fail e => simp [bind, steps, ending]
  | step s rest ih => simpa [bind, steps, ending] using ih ()
  | wait rest ih => simpa [bind, steps, ending] using ih ()
  | look site go ih => simpa [bind, steps, ending] using ih site.block
  | consult kind go ih => simpa [bind, steps, ending] using ih (c.lookup? kind)

/-- A walk that goes on ends as its second part does, if the first ends with a value. -/
theorem ending_bind (c : Catalog) (w : Walk α) (next : α → Walk β) :
    (w.bind next).ending c =
      match w.ending c with
      | .ok a => (next a).ending c
      | .error e => .error e := by
  induction w with
  | done a => simp [bind, ending]
  | fail e => simp [bind, ending]
  | step s rest ih => simpa [bind, ending] using ih ()
  | wait rest ih => simpa [bind, ending] using ih ()
  | look site go ih => simpa [bind, ending] using ih site.block
  | consult kind go ih => simpa [bind, ending] using ih (c.lookup? kind)

end Walk

end BlockCalculus
