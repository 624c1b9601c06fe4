import BlockCalculus.Proofs.Bounds
import BlockCalculus.Proofs.Kleene
import BlockCalculus.Proofs.Mirror

/-!
# Steps come in post-order

A block reports a step when it has got its value, and by then it has evaluated all that it needs,
one after the other. So the steps of an evaluation that gives a value are those of the evaluations
that it made, each of them complete, and its own step comes last. `Block.PostOrder` says which
evaluations these are and in what order, by the kind of the block. A recursion goes down through its
own block; its steps show it coming up again, one turn after the other.

The evaluations of occupants are those of the occupants as trees of their own, with all the levels
that the tree has. That is what the two comparisons at the beginning are for:

* `walk_under`: where in a tree a block stands makes no difference to its steps but for positions.
* `walk_of_le`: an evaluation that gives a value takes the same steps with more levels.

`Walk.Comes` is a walk that comes to a value by some steps, and `Walk.comes_bind` is how it does so
in parts; the rules are taken apart by that.
-/

namespace BlockCalculus

/-! ## Evaluations further down, and with more levels -/

/-- A step as it is seen from a tree in which its own tree stands at a position. -/
def Step.under (p : Position) (s : Step) : Step :=
  { s with position := p ++ s.position }

/-- The second site is the first one seen from a tree in which its tree stands at a position. -/
def Site.Under (p : Position) (s s' : Site) : Prop :=
  s'.position = p ++ s.position ∧ s'.block = s.block

/-- Failures are seen as they are, and the steps of the first walk from further up. -/
def Regard.under (p : Position) : Regard Failure Step :=
  ⟨fun _ => False, id, Step.under p, id⟩

theorem Comparison.pairs_under (c : Catalog) (p : Position) :
    (matching c (Site.Under p) (.under p)).Pairs where
  kind h := by rw [h.2]
  param h name := by rw [h.2]
  seek := by
    rintro s s' ⟨hposition, hblock⟩ name
    rw [hblock]
    cases hseek : Slot.seek? name s.block.slots with
    | none => exact .inl ⟨rfl, rfl⟩
    | some found =>
      refine .inr ⟨found.1, found.2, found.2, rfl, rfl, ?_, rfl⟩
      rw [hposition, List.append_assoc]
  own := c.ignores_eq.mono fun b b' ⟨s, s', hs, hb, hb'⟩ => by rw [hb, hb', hs.2]
  fail := by
    rintro s s' ⟨-, hblock⟩ α e -
    rw [hblock]
    exact .fail rfl

/-- **Where a block stands makes no difference to its evaluation**, but for the positions of its
steps. -/
theorem walk_under (c : Catalog) (ceiling : Int) (levels : Nat) (p q : Position) (b : Block)
    (inputs : List Int) :
    (walk ceiling levels ⟨p ++ q, b⟩ inputs).ending c =
        (walk ceiling levels ⟨q, b⟩ inputs).ending c ∧
      (walk ceiling levels ⟨p ++ q, b⟩ inputs).steps c =
        ((walk ceiling levels ⟨q, b⟩ inputs).steps c).map (Step.under p) := by
  have hpairs := Comparison.pairs_under c p
  have hmatches : (walk ceiling levels ⟨q, b⟩ inputs).Matches c (Site.Under p) (.under p)
      (walk ceiling levels ⟨p ++ q, b⟩ inputs) := by
    refine walk_related 0 hpairs ?_ ?_ (fun _ => Rule.extends_self hpairs _ ceiling) levels _ _
      inputs ⟨rfl, rfl⟩
    · rintro s ⟨_, _⟩ inputs r ⟨rfl, hblock⟩
      obtain rfl := hblock
      exact .step rfl (.done r)
    · exact fun _ _ _ _ => .fail rfl
  obtain ⟨e, -, hexcused⟩ | ⟨hend, hsteps⟩ := hmatches.ending_steps
  · exact hexcused.elim
  · exact ⟨eq_of_mapError_id hend.symm, (List.map_id _).symm.trans hsteps.symm⟩

/-- **An evaluation that gives a value is the same with more levels.** -/
theorem walk_of_le {c : Catalog} {ceiling : Int} {levels levels' : Nat} (hle : levels ≤ levels')
    {site : Site} {inputs : List Int} {r : Int}
    (h : (walk ceiling levels site inputs).ending c = .ok r) :
    (walk ceiling levels' site inputs).ending c = .ok r ∧
      (walk ceiling levels' site inputs).steps c = (walk ceiling levels site inputs).steps c := by
  obtain ⟨extra, rfl⟩ := Nat.exists_eq_add_of_le hle
  have hbounds : (walk ceiling levels site inputs).Matches c Eq
      (.unlessBound (· = .error .recursionLimit)) (walk ceiling (levels + extra) site inputs) :=
    walk_bounds c (· = .error .recursionLimit) rfl (.inl rfl) levels extra site inputs
  obtain ⟨e, herror, -⟩ | ⟨hend, hsteps⟩ := hbounds.eq_unlessBound
  · rw [h] at herror
    cases herror
  · exact ⟨hend.symm.trans h, hsteps.symm⟩

/-! ## Walks that come to a value -/

namespace Walk

variable {α β : Type}

/-- The walk through the standard catalogue comes to a value by some steps. -/
def Comes (w : Walk α) (a : α) (steps : List Step) : Prop :=
  w.ending .standard = .ok a ∧ w.steps .standard = steps

/-- **A walk in two parts comes to a value if both parts do**, by the steps of the one and then
those of the other. -/
theorem comes_bind {w : Walk α} {next : α → Walk β} {b : β} {steps : List Step} :
    (w.bind next).Comes b steps ↔
      ∃ a first second, w.Comes a first ∧ (next a).Comes b second ∧ steps = first ++ second := by
  unfold Comes
  rw [ending_bind, steps_bind]
  cases w.ending .standard with
  | error e => simp
  | ok a =>
    constructor
    · rintro ⟨hend, rfl⟩
      exact ⟨a, _, _, ⟨rfl, rfl⟩, ⟨hend, rfl⟩, rfl⟩
    · rintro ⟨_, _, _, ⟨ha, rfl⟩, ⟨hend, rfl⟩, rfl⟩
      cases ha
      exact ⟨hend, rfl⟩

theorem comes_done {a b : α} {l : List Step} :
    (done a : Walk α).Comes b l ↔ b = a ∧ l = [] := by
  simp [Comes, ending, steps, eq_comm]

theorem not_comes_fail {e : Failure} {a : α} {l : List Step} :
    ¬ (fail e : Walk α).Comes a l := by
  simp [Comes, ending]

end Walk

/-! ## The order of steps -/

/-- The steps of an evaluation as they are seen from a tree in which it was made at a position. -/
def Walk.Stepped.stepsAt (p : Position) (e : Walk.Stepped) : List Step :=
  e.steps.map (Step.under p)

/-- The step that a block reports of itself. -/
def Block.ownStep (b : Block) (inputs : List Int) (result : Int) : Step :=
  ⟨⟨[], b.clearTrace⟩, inputs, result⟩

/-- The steps of one turn of a recursion, from its value at `k` to that at `k + 1`. -/
def Block.turnSteps (run : Block → List Int → Walk.Stepped) (b : Block) (next : Nat × Block)
    (xs : List Int) (z : Nat → Int) (k : Nat) : List Step :=
  (run next.2 (xs ++ [(k : Int), z k])).stepsAt [next.1] ++
    [b.ownStep (xs ++ [((k + 1 : Nat) : Int)]) (z (k + 1))]

/-- **The steps by which a block gives a value on inputs**, in terms of the evaluations of its
occupants. `run` evaluates a block step by step. -/
inductive Block.PostOrder (run : Block → List Int → Walk.Stepped) (b : Block) :
    List Int → Int → List Step → Prop where
  /-- A base function evaluates nothing else. -/
  | basic {xs : List Int} {r : Int}
      (hk : b.head.kind = .zero ∨ b.head.kind = .successor ∨ b.head.kind = .projection) :
      PostOrder run b xs r [b.ownStep xs r]
  /-- The parts of a composition come in the order of their numbers, then the outer function. -/
  | composition {xs : List Int} {m r : Int} {g : Nat → Nat × Block} {y : Nat → Int}
      {f : Nat × Block} (hk : b.head.kind = .composition) (hm : b.param? "m" = some m)
      (hg : ∀ j, j < m.toNat → Slot.seek? ("g" ++ toString (1 + j)) b.slots = some (g j))
      (hy : ∀ j, j < m.toNat → (run (g j).2 xs).outcome = .ok (y j))
      (hf : Slot.seek? "f" b.slots = some f)
      (hr : (run f.2 ((List.range m.toNat).map y)).outcome = .ok r) :
      PostOrder run b xs r
        ((List.range m.toNat).flatMap (fun j => (run (g j).2 xs).stepsAt [(g j).1]) ++
          (run f.2 ((List.range m.toNat).map y)).stepsAt [f.1] ++ [b.ownStep xs r])
  /-- A recursion on zero or less evaluates its base case, and its value is that on zero. -/
  | base {xs : List Int} {n r : Int} {base : Nat × Block}
      (hk : b.head.kind = .primitiveRecursion) (hn : n ≤ 0)
      (hbase : Slot.seek? Catalog.baseCase.name b.slots = some base)
      (h0 : (run base.2 xs).outcome = .ok r)
      (hself : (run b (xs ++ [0])).outcome = .ok r) :
      PostOrder run b (xs ++ [n]) r
        ((run base.2 xs).stepsAt [base.1] ++ [b.ownStep (xs ++ [n]) r])
  /-- A recursion on `n` reports its values at `0`, ..., `n`: the first one after the base case, and
  each of the others after the recursive case at its predecessor. -/
  | recursion {xs : List Int} {n : Nat} {z : Nat → Int} {base next : Nat × Block}
      (hk : b.head.kind = .primitiveRecursion) (hn : 0 < n)
      (hbase : Slot.seek? Catalog.baseCase.name b.slots = some base)
      (hnext : Slot.seek? Catalog.recursiveCase.name b.slots = some next)
      (h0 : (run base.2 xs).outcome = .ok (z 0))
      (hz : ∀ k, k < n → (run next.2 (xs ++ [(k : Int), z k])).outcome = .ok (z (k + 1)))
      (hself : ∀ k, k ≤ n → (run b (xs ++ [(k : Int)])).outcome = .ok (z k)) :
      PostOrder run b (xs ++ [(n : Int)]) (z n)
        ((run base.2 xs).stepsAt [base.1] ++ [b.ownStep (xs ++ [0]) (z 0)] ++
          (List.range n).flatMap (b.turnSteps run next xs z))
  /-- A search tries the candidates up to its value, and only at its value is the function zero. -/
  | minimization {xs : List Int} {n : Nat} {y : Nat → Int} {f : Nat × Block}
      (hk : b.head.kind = .minimization) (hf : Slot.seek? "f" b.slots = some f)
      (hy : ∀ k, k ≤ n → (run f.2 (xs ++ [(k : Int)])).outcome = .ok (y k))
      (hzero : ∀ k, k ≤ n → (y k = 0 ↔ k = n)) :
      PostOrder run b xs n
        ((List.range (n + 1)).flatMap
            (fun k : Nat => (run f.2 (xs ++ [(k : Int)])).stepsAt [f.1]) ++
          [b.ownStep xs n])
  | custom {xs : List Int} {r : Int} {body : Nat × Block} (hk : b.head.kind = .custom)
      (hbody : Slot.seek? Catalog.customBody.name b.slots = some body)
      (hr : (run body.2 xs).outcome = .ok r) :
      PostOrder run b xs r ((run body.2 xs).stepsAt [body.1] ++ [b.ownStep xs r])

/-- What the evaluator comes to for a block somewhere in a tree is what `run` comes to for the block
as a tree of its own, by the same steps. -/
def Evaluator.RunsAs (eval : Evaluator) (run : Block → List Int → Walk.Stepped) : Prop :=
  ∀ (p : Position) (b : Block) (xs : List Int) (r : Int) (steps : List Step),
    (eval ⟨p, b.clearTrace⟩ xs).Comes r steps →
      (run b xs).outcome = .ok r ∧ steps = (run b xs).stepsAt p

/-- A name leads from a tree without its notes to an occupant without its notes. -/
theorem Block.seek?_of_clearTrace {b : Block} {slot : String} {found : Nat × Block}
    (h : Slot.seek? slot b.clearTrace.slots = some found) :
    ∃ d, Slot.seek? slot b.slots = some (found.1, d) ∧ found.2 = d.clearTrace := by
  rw [clearTrace, seek?_mapHeads] at h
  obtain ⟨⟨i, d⟩, hd, rfl⟩ := Option.map_eq_some_iff.mp h
  exact ⟨d, hd, rfl⟩

theorem Block.param?_clearTrace (b : Block) (name : String) :
    b.clearTrace.param? name = b.param? name := by
  rw [clearTrace, param?_mapHeads]
  exact fun _ => rfl

theorem Block.kind_clearTrace (b : Block) : b.clearTrace.head.kind = b.head.kind := by
  rw [clearTrace, head_mapHeads]

/-- A block comes to a value if the rule of its kind does with one level less, and then it reports
the value. -/
theorem comes_walk {ceiling : Int} {levels : Nat} {b : Block} {inputs : List Int} {r : Int}
    {steps : List Step} (h : (walk ceiling levels ⟨[], b.clearTrace⟩ inputs).Comes r steps) :
    ∃ l earlier, levels = l + 1 ∧
      (Rule.apply ceiling (.ofKind b.head.kind) (walk ceiling l) ⟨[], b.clearTrace⟩ inputs).Comes r
        earlier ∧
      steps = earlier ++ [b.ownStep inputs r] := by
  cases levels with
  | zero => exact absurd h Walk.not_comes_fail
  | succ l =>
    obtain ⟨hend, rfl⟩ := h
    rw [ending_walk_succ, b.kind_clearTrace] at hend
    refine ⟨l, _, rfl, ⟨hend, rfl⟩, ?_⟩
    rw [steps_walk_of_lookup? (Catalog.lookup?_standard _), Catalog.rule_entryOf, b.kind_clearTrace,
      hend]
    rfl

section Rules

variable {run : Block → List Int → Walk.Stepped} {eval : Evaluator} {b : Block} {xs : List Int}
  {r : Int} {steps : List Step}

namespace Rule

theorem comes_parameter {name : String} {n : Int}
    (h : (parameter b name).Comes n steps) : b.param? name = some n ∧ steps = [] := by
  unfold parameter at h
  split at h
  · rename_i k hk
    obtain ⟨rfl, rfl⟩ := Walk.comes_done.mp h
    exact ⟨hk, rfl⟩
  · exact absurd h Walk.not_comes_fail

theorem comes_occupant {slot : String} {site : Site}
    (h : (occupant ⟨[], b.clearTrace⟩ slot).Comes site steps) :
    ∃ found, Slot.seek? slot b.slots = some found ∧ site = ⟨[found.1], found.2.clearTrace⟩ ∧
      steps = [] := by
  obtain ⟨hend, rfl⟩ := h
  rw [ending_occupant] at hend
  split at hend
  · rename_i i d hseek
    obtain ⟨d', hd', rfl⟩ := Block.seek?_of_clearTrace hseek
    cases hend
    refine ⟨(i, d'), hd', rfl, ?_⟩
    simp only [occupant, Walk.steps, hseek]
  · cases hend

/-- The steps of evaluating what is in a slot. -/
theorem comes_inSlot (hev : eval.RunsAs run) {slot : String}
    (h : (inSlot eval ⟨[], b.clearTrace⟩ slot xs).Comes r steps) :
    ∃ found, Slot.seek? slot b.slots = some found ∧ (run found.2 xs).outcome = .ok r ∧
      steps = (run found.2 xs).stepsAt [found.1] := by
  obtain ⟨site, first, second, hsite, hcomes, rfl⟩ := Walk.comes_bind.mp h
  obtain ⟨found, hseek, rfl, rfl⟩ := comes_occupant hsite
  obtain ⟨hout, rfl⟩ := hev _ _ _ _ _ hcomes
  exact ⟨found, hseek, hout, rfl⟩

/-- **The parts of a composition are evaluated in the order of their numbers.** -/
theorem comes_parts (hev : eval.RunsAs run) {count first : Nat} {ys : List Int}
    (h : (parts eval ⟨[], b.clearTrace⟩ xs count first).Comes ys steps) :
    ∃ (g : Nat → Nat × Block) (y : Nat → Int), ys = (List.range count).map y ∧
      (∀ j, j < count → Slot.seek? ("g" ++ toString (first + j)) b.slots = some (g j) ∧
        (run (g j).2 xs).outcome = .ok (y j)) ∧
      steps = (List.range count).flatMap fun j => (run (g j).2 xs).stepsAt [(g j).1] := by
  induction count generalizing first ys steps with
  | zero =>
    obtain ⟨rfl, rfl⟩ := Walk.comes_done.mp h
    exact ⟨fun _ => (0, b), fun _ => 0, rfl, fun j hj => absurd hj (Nat.not_lt_zero j), rfl⟩
  | succ count ih =>
    obtain ⟨y, here, later, hy, hlater, rfl⟩ := Walk.comes_bind.mp h
    obtain ⟨ys', rest, nothing, hys, hdone, rfl⟩ := Walk.comes_bind.mp hlater
    obtain ⟨rfl, rfl⟩ := Walk.comes_done.mp hdone
    obtain ⟨found, hseek, hout, rfl⟩ := comes_inSlot hev hy
    obtain ⟨g, z, rfl, hall, rfl⟩ := ih hys
    refine ⟨fun j => j.casesOn found g, fun j => j.casesOn y z, ?_, ?_, ?_⟩
    · rw [List.range_succ_eq_map, List.map_cons, List.map_map]
      rfl
    · intro j hj
      cases j with
      | zero => exact ⟨hseek, hout⟩
      | succ j =>
        have := hall j (by omega)
        rwa [show first + 1 + j = first + (j + 1) by omega] at this
    · rw [List.range_succ_eq_map, List.flatMap_cons, List.flatMap_map, List.append_nil]
      rfl

/-- **A search evaluates its function at one candidate after the other, up to its value.** -/
theorem comes_search (hev : eval.RunsAs run) {f : Nat × Block} {exhausted : Walk Int}
    (hex : ∀ r steps, ¬ exhausted.Comes r steps) {count first : Nat}
    (h : (search eval ⟨[f.1], f.2.clearTrace⟩ xs exhausted count first).Comes r steps) :
    ∃ (more : Nat) (y : Nat → Int), r = (first + more : Nat) ∧
      (∀ k, k ≤ more → (run f.2 (xs ++ [((first + k : Nat) : Int)])).outcome = .ok (y k)) ∧
      (∀ k, k ≤ more → (y k = 0 ↔ k = more)) ∧
      steps = (List.range (more + 1)).flatMap fun k =>
        (run f.2 (xs ++ [((first + k : Nat) : Int)])).stepsAt [f.1] := by
  induction count generalizing first steps with
  | zero => exact absurd h (hex r steps)
  | succ count ih =>
    obtain ⟨v, here, later, hv, hlater, rfl⟩ := Walk.comes_bind.mp h
    obtain ⟨hout, rfl⟩ := hev _ _ _ _ _ hv
    by_cases hzero : v = 0
    · rw [if_pos hzero] at hlater
      obtain ⟨rfl, rfl⟩ := Walk.comes_done.mp hlater
      refine ⟨0, fun _ => 0, rfl, fun k hk => ?_, fun k hk => ?_, ?_⟩
      · obtain rfl := Nat.le_zero.mp hk
        exact hzero ▸ hout
      · exact ⟨fun _ => Nat.le_zero.mp hk, fun _ => rfl⟩
      · simp [List.range_succ]
    · rw [if_neg hzero] at hlater
      obtain ⟨more, y, rfl, hy, hne, rfl⟩ := ih hlater
      have hshift (k : Nat) : first + 1 + k = first + (k + 1) := by omega
      refine ⟨more + 1, fun k => k.casesOn v y, by rw [hshift], fun k hk => ?_, fun k hk => ?_, ?_⟩
      · cases k with
        | zero => exact hout
        | succ k =>
          have hk' := hy k (by omega)
          rwa [hshift] at hk'
      · cases k with
        | zero => exact ⟨fun h => absurd h hzero, fun h => by omega⟩
        | succ k => exact (hne k (by omega)).trans Nat.succ_inj.symm
      · rw [List.range_succ_eq_map (n := more + 1), List.flatMap_cons, List.flatMap_map]
        simp only [hshift, Nat.succ_eq_add_one, Nat.add_zero]

end Rule

/-- The steps of the rules that evaluate occupants only. -/
theorem postOrder_of_apply (hev : eval.RunsAs run) {ceiling : Int}
    (hk : b.head.kind ≠ .primitiveRecursion)
    (h : (Rule.apply ceiling (.ofKind b.head.kind) eval ⟨[], b.clearTrace⟩ xs).Comes r steps) :
    b.PostOrder run xs r (steps ++ [b.ownStep xs r]) := by
  cases hkind : b.head.kind with
  | zero =>
    rw [hkind] at h
    obtain ⟨rfl, rfl⟩ := Walk.comes_done.mp h
    exact .basic (.inl hkind)
  | successor =>
    rw [hkind] at h
    simp only [Rule.apply, Rule.successor] at h
    split at h
    · obtain ⟨rfl, rfl⟩ := Walk.comes_done.mp h
      exact .basic (.inr (.inl hkind))
    · exact absurd h Walk.not_comes_fail
  | projection =>
    rw [hkind] at h
    simp only [Rule.apply, Rule.projection] at h
    split at h
    · exact absurd h Walk.not_comes_fail
    · obtain ⟨i, _, _, hi, hx, rfl⟩ := Walk.comes_bind.mp h
      obtain ⟨-, rfl⟩ := Rule.comes_parameter hi
      split at hx
      · obtain ⟨rfl, rfl⟩ := Walk.comes_done.mp hx
        exact .basic (.inr (.inr hkind))
      · exact absurd hx Walk.not_comes_fail
  | composition =>
    rw [hkind] at h
    obtain ⟨m, _, _, hm, hrest, rfl⟩ := Walk.comes_bind.mp h
    obtain ⟨hparam, rfl⟩ := Rule.comes_parameter hm
    obtain ⟨ys, _, _, hys, hf, rfl⟩ := Walk.comes_bind.mp hrest
    obtain ⟨g, y, rfl, hg, rfl⟩ := Rule.comes_parts hev hys
    obtain ⟨f, hseek, hr, rfl⟩ := Rule.comes_inSlot hev hf
    exact .composition hkind (b.param?_clearTrace "m" ▸ hparam) (fun j hj => (hg j hj).1)
      (fun j hj => (hg j hj).2) hseek hr
  | primitiveRecursion => exact absurd hkind hk
  | minimization =>
    rw [hkind] at h
    obtain ⟨site, _, _, hf, hsearch, rfl⟩ := Walk.comes_bind.mp h
    obtain ⟨f, hseek, rfl, rfl⟩ := Rule.comes_occupant hf
    obtain ⟨n, y, rfl, hy, hzero, rfl⟩ := Rule.comes_search hev
      (fun r steps hcomes => by cases hcomes.1) hsearch
    simp only [Nat.zero_add] at hy ⊢
    exact .minimization hkind hseek hy hzero
  | custom =>
    rw [hkind] at h
    simp only [Rule.apply, Rule.custom] at h
    split at h
    · rename_i i d hseek
      obtain ⟨d', hd', rfl⟩ := Block.seek?_of_clearTrace hseek
      obtain ⟨hr, rfl⟩ := hev _ _ _ _ _ h
      exact .custom hkind hd' hr
    · exact absurd h Walk.not_comes_fail

/-! ## Recursions -/

/-- A recursion on zero or less evaluates its base case only. -/
theorem Rule.comes_base (hev : eval.RunsAs run) {n : Int} (hn : n ≤ 0)
    (h : (primitiveRecursion eval ⟨[], b.clearTrace⟩ (xs ++ [n])).Comes r steps) :
    ∃ base, Slot.seek? Catalog.baseCase.name b.slots = some base ∧
      (run base.2 xs).outcome = .ok r ∧ steps = (run base.2 xs).stepsAt [base.1] := by
  rw [primitiveRecursion_concat, if_pos hn] at h
  exact comes_inSlot hev h

/-- A recursion on more than zero evaluates itself at the predecessor, then its recursive case. -/
theorem Rule.comes_recursion (hev : eval.RunsAs run) {n : Nat}
    (h : (primitiveRecursion eval ⟨[], b.clearTrace⟩ (xs ++ [((n + 1 : Nat) : Int)])).Comes r
      steps) :
    ∃ z earlier next, (eval ⟨[], b.clearTrace⟩ (xs ++ [(n : Int)])).Comes z earlier ∧
      Slot.seek? Catalog.recursiveCase.name b.slots = some next ∧
      (run next.2 (xs ++ [(n : Int), z])).outcome = .ok r ∧
      steps = earlier ++ (run next.2 (xs ++ [(n : Int), z])).stepsAt [next.1] := by
  rw [primitiveRecursion_concat, if_neg (by omega),
    show ((n + 1 : Nat) : Int) - 1 = (n : Int) by omega] at h
  obtain ⟨z, earlier, _, hz, hnext, rfl⟩ := Walk.comes_bind.mp h
  obtain ⟨next, hseek, hr, rfl⟩ := comes_inSlot hev hnext
  exact ⟨z, earlier, next, hz, hseek, hr, rfl⟩

/-- **A recursion comes up again one turn after the other.** It goes down through its own block with
one level less each time; `z` are the values that it meets on its way up. -/
theorem comes_turns {ceiling : Int} {levels : Nat}
    (hev : ∀ l, l ≤ levels → (walk ceiling l).RunsAs run)
    (hk : b.head.kind = .primitiveRecursion) {z : Nat → Int}
    (hz : ∀ (k : Nat) (r : Int), (run b (xs ++ [(k : Int)])).outcome = .ok r → r = z k)
    (next : Nat × Block)
    (hnext : ∀ found, Slot.seek? Catalog.recursiveCase.name b.slots = some found → found = next)
    {n l : Nat} (hl : l ≤ levels)
    (h : (walk ceiling l ⟨[], b.clearTrace⟩ (xs ++ [(n : Int)])).Comes r steps) :
    ∃ base, Slot.seek? Catalog.baseCase.name b.slots = some base ∧
      (0 < n → Slot.seek? Catalog.recursiveCase.name b.slots = some next) ∧
      (run base.2 xs).outcome = .ok (z 0) ∧
      (∀ k, k < n → (run next.2 (xs ++ [(k : Int), z k])).outcome = .ok (z (k + 1))) ∧
      (∀ k, k ≤ n → (run b (xs ++ [(k : Int)])).outcome = .ok (z k)) ∧
      steps = (run base.2 xs).stepsAt [base.1] ++ [b.ownStep (xs ++ [0]) (z 0)] ++
        (List.range n).flatMap (b.turnSteps run next xs z) := by
  induction n generalizing l r steps with
  | zero =>
    have hself := (hev l hl _ _ _ _ _ h).1
    obtain rfl := hz 0 r hself
    obtain ⟨l, earlier, rfl, hrule, rfl⟩ := comes_walk h
    rw [hk] at hrule
    obtain ⟨base, hbase, h0, rfl⟩ := Rule.comes_base (hev l (by omega)) (Int.le_refl 0) hrule
    refine ⟨base, hbase, fun h => absurd h (Nat.lt_irrefl 0), h0,
      fun k hlt => absurd hlt (Nat.not_lt_zero k), fun k hle => ?_, ?_⟩
    · obtain rfl := Nat.le_zero.mp hle
      exact hself
    · rw [List.range_zero, List.flatMap_nil, List.append_nil]
      rfl
  | succ n ih =>
    have hself := (hev l hl _ _ _ _ _ h).1
    obtain rfl := hz (n + 1) r hself
    obtain ⟨l, earlier, rfl, hrule, rfl⟩ := comes_walk h
    rw [hk] at hrule
    obtain ⟨v, earlier, found, hv, hfound, hr, rfl⟩ :=
      Rule.comes_recursion (hev l (by omega)) hrule
    obtain rfl := hnext found hfound
    obtain rfl := hz n v (hev l (by omega) _ _ _ _ _ hv).1
    obtain ⟨base, hbase, -, h0, hturns, hbelow, rfl⟩ := ih (by omega) hv
    refine ⟨base, hbase, fun _ => hfound, h0, fun k hlt => ?_, fun k hle => ?_, ?_⟩
    · rcases Nat.lt_succ_iff_lt_or_eq.mp hlt with hlt | rfl
      · exact hturns k hlt
      · exact hr
    · rcases Nat.le_succ_iff.mp hle with hle | rfl
      · exact hbelow k hle
      · exact hself
    · rw [List.range_succ, List.flatMap_append, List.flatMap_singleton, Block.turnSteps]
      simp only [List.append_assoc]

/-- A recursion has the value on zero for whatever is less. -/
theorem ending_walk_zero (hk : b.head.kind = .primitiveRecursion) {ceiling n : Int} (hn : n ≤ 0)
    (levels : Nat) :
    (walk ceiling levels ⟨[], b.clearTrace⟩ (xs ++ [0])).ending .standard =
      (walk ceiling levels ⟨[], b.clearTrace⟩ (xs ++ [n])).ending .standard := by
  cases levels with
  | zero => rfl
  | succ l =>
    rw [ending_walk_succ, ending_walk_succ, b.kind_clearTrace, hk]
    simp only [Rule.apply, Rule.primitiveRecursion_concat, if_pos hn, if_pos (Int.le_refl 0)]

/-! ## Trees -/

/-- **The steps by which a root comes to a value are in order**, if evaluation with as many levels
or less goes as `run` does. -/
theorem postOrder_of_walk {ceiling : Int} {levels : Nat}
    (hev : ∀ l, l ≤ levels → (walk ceiling l).RunsAs run)
    (h : (walk ceiling levels ⟨[], b.clearTrace⟩ xs).Comes r steps) :
    b.PostOrder run xs r steps := by
  by_cases hk : b.head.kind = .primitiveRecursion
  · rcases List.eq_nil_or_concat' xs with rfl | ⟨ys, n, rfl⟩
    · obtain ⟨l, earlier, -, hrule, -⟩ := comes_walk h
      rw [hk] at hrule
      exact absurd hrule Walk.not_comes_fail
    · by_cases hn : n ≤ 0
      · obtain ⟨l, earlier, rfl, hrule, rfl⟩ := comes_walk h
        have hzero := (ending_walk_zero hk hn (l + 1)).trans h.1
        have hself := (hev (l + 1) (Nat.le_refl _) _ _ _ _ _ ⟨hzero, rfl⟩).1
        rw [hk] at hrule
        obtain ⟨base, hbase, h0, rfl⟩ := Rule.comes_base (hev l (Nat.le_succ l)) hn hrule
        exact .base hk hn hbase h0 hself
      · obtain ⟨m, rfl⟩ : ∃ m : Nat, n = m := ⟨n.toNat, by omega⟩
        let z (k : Nat) : Int := (run b (ys ++ [(k : Int)])).outcome.toOption.getD 0
        have hz (k : Nat) (r : Int) (hr : (run b (ys ++ [(k : Int)])).outcome = .ok r) :
            r = z k := by
          simp only [z, hr]
          rfl
        obtain rfl := hz m r (hev levels (Nat.le_refl _) _ _ _ _ _ h).1
        obtain ⟨base, hbase, hnext, h0, hturns, hself, rfl⟩ :=
          comes_turns hev hk hz ((Slot.seek? Catalog.recursiveCase.name b.slots).getD (0, b))
            (fun found hfound => by rw [hfound, Option.getD_some]) (Nat.le_refl _) h
        exact .recursion hk (by omega) hbase (hnext (by omega)) h0 hturns hself
  · obtain ⟨l, earlier, rfl, hrule, rfl⟩ := comes_walk h
    exact postOrder_of_apply (hev l (Nat.le_succ l)) hk hrule

end Rules

/-- Evaluation step by step gives the value that its walk ends with. -/
theorem Block.outcome_eq_ok {c : Catalog} {levels : Nat} {options : EvalOptions} {b : Block}
    {xs : List Int} {r : Int} :
    (b.evaluateSteppedWithin levels c options none xs).outcome = .ok r ↔
      (b.walkWithin levels options xs).ending c = .ok r := by
  rw [evaluateSteppedWithin, Walk.followStepped_eq]
  cases (b.walkWithin levels options xs).ending c with
  | ok v =>
    constructor
    · intro h
      cases h
      rfl
    · intro h
      cases h
      rfl
  | error e => exact ⟨nofun, nofun⟩

/-- Evaluation step by step, with more levels than there are left, is what evaluation goes as. -/
theorem runsAs_evaluateSteppedWithin (options : EvalOptions) {l levels : Nat} (hle : l ≤ levels) :
    (walk options.ceiling l).RunsAs fun b xs =>
      b.evaluateSteppedWithin levels .standard options none xs := by
  rintro p b xs r _ ⟨hend, rfl⟩
  obtain ⟨hend', hsteps⟩ := walk_of_le hle hend
  have hunder := walk_under .standard options.ceiling levels p [] b.clearTrace xs
  rw [List.append_nil] at hunder
  refine ⟨Block.outcome_eq_ok.mpr (hunder.1.symm.trans hend'), ?_⟩
  rw [← hsteps, hunder.2, Walk.Stepped.stepsAt, Block.evaluateSteppedWithin_steps]
  rfl

/-! ## A block's own steps -/

section Own

variable {run : Block → List Int → Walk.Stepped} {b : Block} {xs : List Int} {n r : Int}
  {steps : List Step}

/-- The steps of the evaluations in a block's slots are those of other blocks. -/
def Block.SlotsRunOthers (run : Block → List Int → Walk.Stepped) (b : Block) : Prop :=
  ∀ slot found, Slot.seek? slot b.slots = some found →
    ∀ xs, ∀ s ∈ (run found.2 xs).steps, s.block.head.id ≠ b.head.id

theorem Block.SlotsRunOthers.filter_stepsAt (h : b.SlotsRunOthers run) {slot : String}
    {found : Nat × Block} (hseek : Slot.seek? slot b.slots = some found) (xs : List Int)
    (p : Position) :
    ((run found.2 xs).stepsAt p).filter (fun s => s.block.head.id == b.head.id) = [] := by
  refine List.filter_eq_nil_iff.mpr fun s hs => ?_
  obtain ⟨s', hs', rfl⟩ := List.mem_map.mp hs
  exact fun heq => h slot found hseek xs s' hs' (beq_iff_eq.mp heq)

theorem Block.filter_ownStep (b : Block) (ys : List Int) (v : Int) :
    [b.ownStep ys v].filter (fun s => s.block.head.id == b.head.id) = [b.ownStep ys v] := by
  simp [ownStep]

/-- **A recursion on `n` reports its values on `0`, ..., `n`, each of them once and in this order.**
On what is less than zero it reports its value on zero. -/
theorem Block.PostOrder.own_results (h : b.PostOrder run (xs ++ [n]) r steps)
    (hk : b.head.kind = .primitiveRecursion) (hothers : b.SlotsRunOthers run) :
    (steps.filter fun s => s.block.head.id == b.head.id).map (fun s => Except.ok s.result) =
      (List.range (n.toNat + 1)).map fun k : Nat => (run b (xs ++ [(k : Int)])).outcome := by
  generalize hinputs : xs ++ [n] = inputs at h
  cases h with
  | @base ys m _ base _ hm hbase _ hself =>
    obtain ⟨rfl, hlast⟩ := List.append_inj' hinputs rfl
    cases hlast
    rw [List.filter_append, hothers.filter_stepsAt hbase, filter_ownStep, Int.toNat_of_nonpos hm]
    simp [hself, ownStep]
  | @recursion ys m z base next _ _ hbase hnext _ _ hself =>
    obtain ⟨rfl, hlast⟩ := List.append_inj' hinputs rfl
    cases hlast
    -- Of each turn there is the one step that ends it.
    have hturn (k : Nat) : (b.turnSteps run next xs z k).filter
        (fun s => s.block.head.id == b.head.id) =
          [b.ownStep (xs ++ [((k + 1 : Nat) : Int)]) (z (k + 1))] := by
      rw [turnSteps, List.filter_append, hothers.filter_stepsAt hnext, List.nil_append,
        filter_ownStep]
    rw [Int.toNat_natCast, List.filter_append, List.filter_append, hothers.filter_stepsAt hbase,
      List.nil_append, filter_ownStep, List.filter_flatMap, List.range_succ_eq_map]
    simp only [hturn, List.map_cons, List.map_nil, List.map_map, List.map_flatMap,
      List.singleton_append]
    rw [← List.map_eq_flatMap]
    refine List.cons_eq_cons.mpr ⟨(hself 0 (Nat.zero_le m)).symm, ?_⟩
    exact List.map_congr_left fun k hk => (hself (k + 1) (List.mem_range.mp hk)).symm
  | basic hk' | composition hk' | minimization hk' | custom hk' =>
    rw [hk] at hk'
    simp at hk'

end Own

namespace Block

/-- In a tree with distinct ids, the blocks evaluated in a slot of the root are not the root. -/
theorem DistinctIds.slotsRunOthers {tree : Block} (h : tree.DistinctIds) (levels : Nat)
    (c : Catalog) (options : EvalOptions) :
    tree.SlotsRunOthers fun b xs => b.evaluateSteppedWithin levels c options none xs := by
  intro slot found hseek xs s hs
  obtain ⟨shape, hshape, -⟩ := Slot.getElem?_of_seek? hseek
  rw [evaluateSteppedWithin_steps] at hs
  have hat := steps_at? c options.ceiling levels ⟨[], found.2.clearTrace⟩ (at?_nil _) xs s hs
  obtain ⟨d, hd, hcleared⟩ := exists_at?_of_clearTrace hat
  rw [← hcleared, id_clearTrace]
  exact h.ne_root hshape (mem_listing_iff.mpr ⟨_, hd⟩)

/-- **Steps come in post-order.** If a tree evaluated step by step gives a value, its steps are
those of the evaluations that it made in its slots, each complete and in the order that `PostOrder`
gives for the kind of the root, and then the step of the root itself. If moreover ids are distinct
and the root is a recursion on `xs` and `n`, the results of the steps of the root itself are its
values on `xs` and `0`, ..., `n`, or only that on `xs` and `0` if `n` is negative. -/
theorem steps_postOrder (levels : Nat) (options : EvalOptions) {tree : Block} {inputs : List Int}
    {r : Int} :
    let run (b : Block) (xs : List Int) := b.evaluateSteppedWithin levels .standard options none xs
    (run tree inputs).outcome = .ok r →
      tree.PostOrder run inputs r (run tree inputs).steps ∧
      (tree.DistinctIds → tree.head.kind = .primitiveRecursion → ∀ xs n, inputs = xs ++ [n] →
        let own := (run tree inputs).steps.filter fun s => s.block.head.id == tree.head.id
        own.map (fun s => Except.ok s.result) =
          (List.range (n.toNat + 1)).map fun k : Nat =>
            (run tree (xs ++ [(k : Int)])).outcome) := by
  intro run hr
  have hsteps : (run tree inputs).steps = (tree.walkWithin levels options inputs).steps .standard :=
    evaluateSteppedWithin_steps
  have horder : tree.PostOrder run inputs r (run tree inputs).steps :=
    postOrder_of_walk (fun l hle => runsAs_evaluateSteppedWithin options hle)
      ⟨outcome_eq_ok.mp hr, hsteps.symm⟩
  refine ⟨horder, fun hids hk xs n hinputs => ?_⟩
  subst hinputs
  exact horder.own_results hk (hids.slotsRunOthers levels .standard options)

/-- Two and one are added. First the base case gets two, and with that the sum at zero is two; then
the recursive case adds one, by its parts in order, and with that the sum at one is three. -/
theorem steps_postOrder_plus :
    let run (b : Block) (xs : List Int) :=
      b.evaluateSteppedWithin evaluationLimit .standard {} none xs
    (run plus [2, 1]).outcome = .ok 3 ∧ plus.PostOrder run [2, 1] 3 (run plus [2, 1]).steps ∧
      plus.DistinctIds ∧ plus.head.kind = .primitiveRecursion ∧
      (run plus [2, 1]).steps.map (fun s => (s.block.head.id, s.result)) =
        [("first", 2), ("plus", 2), ("previous", 2), ("successor", 3), ("next", 3), ("plus", 3)] ∧
      ((run plus [2, 1]).steps.filter fun s => s.block.head.id == plus.head.id).map
          (fun s => Except.ok s.result) =
        [(run plus [2, 0]).outcome, (run plus [2, 1]).outcome] := by
  intro run
  have hr : (run plus [2, 1]).outcome = .ok 3 := rfl
  obtain ⟨horder, hown⟩ := steps_postOrder evaluationLimit {} hr
  exact ⟨hr, horder, distinctIds_plus, rfl, rfl, hown distinctIds_plus rfl [2] 1 rfl⟩

end Block

end BlockCalculus
