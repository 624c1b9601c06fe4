import BlockCalculus.Proofs.Walk

/-!
# Evaluation computes Kleene's functions

`ComputesWithin within b xs r` says, by one rule for each kind of block, that the function of the
block `b` has the value `r` on `xs`. The rules know nothing of levels and ceilings. Recursion is the
iteration of the recursive case from the value of the base case up, where the evaluator goes down
through its own block. A search is for the least zero without a bound. All that `within` does is to
say which candidates the searches of a derivation may end at; `Computes` admits all.

The results are for a tree that nobody edits, and the standard catalogue:

* `computesWithin_of_walk`: what a walk gives is the value, by searches below the ceiling.
* `ComputesWithin.reaches`: a value whose searches end below the ceiling is what the walk gives, as
  soon as it may descend far enough; if it may not, it fails for that reason and for no other.
* `evaluate_computes`: both, for the evaluation of a tree.
-/

namespace BlockCalculus

/-- The value of the block on inputs, by the rule of its kind, where every search ends at a
candidate in `within`. -/
inductive ComputesWithin (within : Nat → Prop) : Block → List Int → Int → Prop where
  | zero {b : Block} {xs : List Int} (hk : b.head.kind = .zero) : ComputesWithin within b xs 0
  | successor {b : Block} {x : Int} (hk : b.head.kind = .successor) :
      ComputesWithin within b [x] (x + 1)
  | projection {b : Block} {xs : List Int} {i x : Int} (hk : b.head.kind = .projection)
      (hi : b.param? "i" = some i) (hpos : 1 ≤ i) (hx : xs[(i - 1).toNat]? = some x) :
      ComputesWithin within b xs x
  | composition {b f : Block} {g : Nat → Block} {m r : Int} {y : Nat → Int} {xs : List Int}
      (hk : b.head.kind = .composition) (hm : b.param? "m" = some m)
      (hg : ∀ j, j < m.toNat → b.child? ("g" ++ toString (1 + j)) = some (g j))
      (hy : ∀ j, j < m.toNat → ComputesWithin within (g j) xs (y j))
      (hf : b.child? "f" = some f)
      (hr : ComputesWithin within f ((List.range m.toNat).map y) r) : ComputesWithin within b xs r
  | base {b base : Block} {n r : Int} {xs : List Int} (hk : b.head.kind = .primitiveRecursion)
      (hn : n ≤ 0) (hbase : b.child? "Base Case" = some base)
      (hr : ComputesWithin within base xs r) : ComputesWithin within b (xs ++ [n]) r
  | recursion {b base next : Block} {n : Nat} {z : Nat → Int} {xs : List Int}
      (hk : b.head.kind = .primitiveRecursion) (hn : 0 < n)
      (hbase : b.child? "Base Case" = some base) (hnext : b.child? "Recursive Case" = some next)
      (h0 : ComputesWithin within base xs (z 0))
      (hz : ∀ k, k < n → ComputesWithin within next (xs ++ [(k : Int), z k]) (z (k + 1))) :
      ComputesWithin within b (xs ++ [(n : Int)]) (z n)
  | minimization {b f : Block} {n : Nat} {y : Nat → Int} {xs : List Int}
      (hk : b.head.kind = .minimization) (hf : b.child? "f" = some f) (hn : within n)
      (hy : ∀ k, k < n → ComputesWithin within f (xs ++ [(k : Int)]) (y k))
      (hne : ∀ k, k < n → y k ≠ 0) (h0 : ComputesWithin within f (xs ++ [(n : Int)]) 0) :
      ComputesWithin within b xs n
  | custom {b body : Block} {r : Int} {xs : List Int} (hk : b.head.kind = .custom)
      (hbody : b.child? "Custom Function" = some body) (hr : ComputesWithin within body xs r) :
      ComputesWithin within b xs r

/-- The value of the block on inputs, whatever candidates searches end at. -/
abbrev Computes : Block → List Int → Int → Prop :=
  ComputesWithin fun _ => True

namespace ComputesWithin

variable {within within' : Nat → Prop} {b : Block} {xs : List Int} {r : Int}

/-- Admitting more candidates loses no value. -/
theorem mono (hw : ∀ n, within n → within' n) (h : ComputesWithin within b xs r) :
    ComputesWithin within' b xs r := by
  induction h with
  | zero hk => exact .zero hk
  | successor hk => exact .successor hk
  | projection hk hi hpos hx => exact .projection hk hi hpos hx
  | composition hk hm hg _ hf _ ihy ihr => exact .composition hk hm hg ihy hf ihr
  | base hk hn hbase _ ih => exact .base hk hn hbase ih
  | recursion hk hn hbase hnext _ _ ih0 ihz => exact .recursion hk hn hbase hnext ih0 ihz
  | minimization hk hf hn _ hne _ ihy ih0 => exact .minimization hk hf (hw _ hn) ihy hne ih0
  | custom hk hbody _ ih => exact .custom hk hbody ih

/-- Values go by the kinds, the parameters and the slots of blocks only. -/
theorem of_mapHeads {f : Head → Head} (hkind : ∀ h, (f h).kind = h.kind)
    (hparams : ∀ h, (f h).params = h.params) {b' : Block} (h : ComputesWithin within b' xs r) :
    ∀ b : Block, b' = b.mapHeads f → ComputesWithin within b xs r := by
  have hchild : ∀ {name : String} {b d : Block}, (b.mapHeads f).child? name = some d →
      ∃ c, b.child? name = some c ∧ d = c.mapHeads f := by
    intro name b d h
    rw [Block.child?_mapHeads] at h
    obtain ⟨c, hc, rfl⟩ := Option.map_eq_some_iff.mp h
    exact ⟨c, hc, rfl⟩
  have hparam := Block.param?_mapHeads hparams
  have hk' : ∀ {b : Block} {k : Kind}, (b.mapHeads f).head.kind = k → b.head.kind = k := by
    intro b k h
    rwa [Block.head_mapHeads, hkind] at h
  induction h with
  | zero hk => rintro b rfl; exact .zero (hk' hk)
  | successor hk => rintro b rfl; exact .successor (hk' hk)
  | projection hk hi hpos hx =>
    rintro b rfl
    exact .projection (hk' hk) (hparam _ b ▸ hi) hpos hx
  | @composition _ _ g m _ _ _ hk hm hg _ hf _ ihy ihr =>
    rintro b rfl
    obtain ⟨c, hc, hfc⟩ := hchild hf
    -- The parts of the one tree, as far as there are any, are found again in the other one.
    refine .composition (hk' hk) (hparam _ b ▸ hm)
      (g := fun j => (b.child? ("g" ++ toString (1 + j))).getD b) ?_ ?_ hc (ihr c hfc)
    · intro j hj
      obtain ⟨d, hd, -⟩ := hchild (hg j hj)
      rw [hd, Option.getD_some]
    · intro j hj
      obtain ⟨d, hd, hgd⟩ := hchild (hg j hj)
      exact ihy j hj _ (by rw [hd, Option.getD_some, hgd])
  | base hk hn hbase _ ih =>
    rintro b rfl
    obtain ⟨c, hc, hbc⟩ := hchild hbase
    exact .base (hk' hk) hn hc (ih c hbc)
  | recursion hk hn hbase hnext _ _ ih0 ihz =>
    rintro b rfl
    obtain ⟨c, hc, hbc⟩ := hchild hbase
    obtain ⟨d, hd, hnd⟩ := hchild hnext
    exact .recursion (hk' hk) hn hc hd (ih0 c hbc) fun k hlt => ihz k hlt d hnd
  | minimization hk hf hn _ hne _ ihy ih0 =>
    rintro b rfl
    obtain ⟨c, hc, hfc⟩ := hchild hf
    exact .minimization (hk' hk) hc hn (fun k hlt => ihy k hlt c hfc) hne (ih0 c hfc)
  | custom hk hbody _ ih =>
    rintro b rfl
    obtain ⟨c, hc, hbc⟩ := hchild hbody
    exact .custom (hk' hk) hc (ih c hbc)

/-- The converse: changed heads of the same kinds and parameters have the same values. -/
theorem mapHeads {f : Head → Head} (hkind : ∀ h, (f h).kind = h.kind)
    (hparams : ∀ h, (f h).params = h.params) (h : ComputesWithin within b xs r) :
    ComputesWithin within (b.mapHeads f) xs r := by
  have hchild : ∀ {name : String} {b c : Block}, b.child? name = some c →
      (b.mapHeads f).child? name = some (c.mapHeads f) := by
    intro name b c hc
    rw [Block.child?_mapHeads, hc, Option.map_some]
  have hparam := Block.param?_mapHeads hparams
  have hk' : ∀ {b : Block} {k : Kind}, b.head.kind = k → (b.mapHeads f).head.kind = k := by
    intro b k h
    rwa [Block.head_mapHeads, hkind]
  induction h with
  | zero hk => exact .zero (hk' hk)
  | successor hk => exact .successor (hk' hk)
  | projection hk hi hpos hx => exact .projection (hk' hk) ((hparam _ _).trans hi) hpos hx
  | composition hk hm hg _ hf _ ihy ihr =>
    exact .composition (hk' hk) ((hparam _ _).trans hm) (fun j hj => hchild (hg j hj)) ihy
      (hchild hf) ihr
  | base hk hn hbase _ ih => exact .base (hk' hk) hn (hchild hbase) ih
  | recursion hk hn hbase hnext _ _ ih0 ihz =>
    exact .recursion (hk' hk) hn (hchild hbase) (hchild hnext) ih0 ihz
  | minimization hk hf hn _ hne _ ihy ih0 =>
    exact .minimization (hk' hk) (hchild hf) hn ihy hne ih0
  | custom hk hbody _ ih => exact .custom (hk' hk) (hchild hbody) ih

end ComputesWithin

/-! ## What a walk gives is the value -/

section Soundness

variable {P : Block → List Int → Int → Prop} {eval : Evaluator} {site : Site} {xs : List Int}
  {r : Int}

/-- What the evaluator gives for a block has a property. -/
def Evaluator.Gives (eval : Evaluator) (P : Block → List Int → Int → Prop) : Prop :=
  ∀ (site : Site) (xs : List Int) (r : Int), (eval site xs).ending .standard = .ok r →
    P site.block xs r

namespace Walk

variable {α β : Type}

/-- A walk that goes on ends with a value only if both parts do. -/
theorem ending_bind_eq_ok {c : Catalog} {w : Walk α} {next : α → Walk β} {b : β} :
    (w.bind next).ending c = .ok b ↔ ∃ a, w.ending c = .ok a ∧ (next a).ending c = .ok b := by
  rw [ending_bind]
  cases w.ending c with
  | ok a => simp
  | error e => simp

end Walk

namespace Rule

theorem child?_of_inSlot (hev : eval.Gives P) {slot : String}
    (h : (inSlot eval site slot xs).ending .standard = .ok r) :
    ∃ d, site.block.child? slot = some d ∧ P d xs r := by
  rw [ending_inSlot] at h
  cases hseek : Slot.seek? slot site.block.slots with
  | none => rw [hseek] at h; cases h
  | some found =>
    rw [hseek] at h
    exact ⟨found.2, Block.child?_of_seek? hseek, hev _ _ _ h⟩

theorem param?_of_parameter {b : Block} {name : String} {n : Int}
    (h : (parameter b name).ending .standard = .ok n) : b.param? name = some n := by
  unfold parameter at h
  split at h
  · rename_i k hk
    cases h
    exact hk
  · cases h

/-- The values of parts, each of a block in the slot of its number. -/
theorem children_of_parts (hev : eval.Gives P) {count first : Nat} {ys : List Int}
    (h : (parts eval site xs count first).ending .standard = .ok ys) :
    ∃ (g : Nat → Block) (y : Nat → Int), ys = (List.range count).map y ∧
      ∀ j, j < count → site.block.child? ("g" ++ toString (first + j)) = some (g j) ∧
        P (g j) xs (y j) := by
  induction count generalizing first ys with
  | zero =>
    cases h
    exact ⟨fun _ => site.block, fun _ => 0, rfl, fun j hj => absurd hj (Nat.not_lt_zero j)⟩
  | succ count ih =>
    rw [parts, Walk.ending_bind_eq_ok] at h
    obtain ⟨y, hy, h⟩ := h
    obtain ⟨ys', hys, h⟩ := Walk.ending_bind_eq_ok.mp h
    cases h
    obtain ⟨d, hd, hP⟩ := child?_of_inSlot hev hy
    obtain ⟨g, z, rfl, hall⟩ := ih hys
    refine ⟨fun j => j.casesOn d g, fun j => j.casesOn y z, ?_, ?_⟩
    · rw [List.range_succ_eq_map, List.map_cons, List.map_map]
      rfl
    · intro j hj
      cases j with
      | zero => exact ⟨hd, hP⟩
      | succ j =>
        have := hall j (by omega)
        rwa [show first + 1 + j = first + (j + 1) by omega] at this

/-- A search that ends gives the first candidate at which the function is zero. -/
theorem least_of_search (hev : eval.Gives P) {f : Site} {exhausted : Walk Int}
    (hex : ∀ r, exhausted.ending .standard ≠ .ok r) {count first : Nat}
    (h : (search eval f xs exhausted count first).ending .standard = .ok r) :
    ∃ (n : Nat) (y : Nat → Int), r = n ∧ n < first + count ∧
      (∀ k, first ≤ k → k < n → P f.block (xs ++ [(k : Int)]) (y k) ∧ y k ≠ 0) ∧
      P f.block (xs ++ [(n : Int)]) 0 := by
  induction count generalizing first with
  | zero => exact absurd h (hex r)
  | succ count ih =>
    rw [search, Walk.ending_bind_eq_ok] at h
    obtain ⟨v, hv, h⟩ := h
    have hP := hev _ _ _ hv
    split at h
    · rename_i hzero
      cases h
      refine ⟨first, fun _ => 0, rfl, by omega, fun k hlo hhi => by omega, ?_⟩
      rw [← hzero]
      exact hP
    · rename_i hzero
      obtain ⟨n, y, hr, hn, hy, h0⟩ := ih h
      refine ⟨n, fun k => if k = first then v else y k, hr, by omega, ?_, h0⟩
      intro k hlo hhi
      dsimp only
      by_cases hk : k = first
      · rw [if_pos hk, hk]
        exact ⟨hP, hzero⟩
      · rw [if_neg hk]
        exact hy k (by omega) hhi

end Rule

/-- One more turn of a recursion. -/
theorem ComputesWithin.recursion_succ {within : Nat → Prop} {b next : Block} {xs : List Int}
    {n z r : Int} (hk : b.head.kind = .primitiveRecursion) (hn : 0 < n)
    (hnext : b.child? "Recursive Case" = some next) (hz : ComputesWithin within b (xs ++ [n - 1]) z)
    (hr : ComputesWithin within next (xs ++ [n - 1, z]) r) :
    ComputesWithin within b (xs ++ [n]) r := by
  obtain ⟨k, rfl⟩ : ∃ k : Nat, n = k + 1 := ⟨(n - 1).toNat, by omega⟩
  rw [Int.add_sub_cancel] at hz hr
  generalize hinputs : xs ++ [(k : Int)] = inputs at hz
  -- What the value at the predecessor comes from: the base case, or turns of the recursion.
  cases hz with
  | base _ hn0 hbase hz =>
    obtain ⟨rfl, hlast⟩ := List.append_inj' hinputs rfl
    obtain rfl : k = 0 := by
      cases hlast
      omega
    refine .recursion (n := 1) (z := fun j => if j = 0 then z else r) hk Nat.one_pos hbase hnext
      hz ?_
    intro j hj
    obtain rfl : j = 0 := by omega
    exact hr
  | @recursion _ _ next' m z' _ _ hm hbase hnext' h0 hz =>
    obtain ⟨rfl, hlast⟩ := List.append_inj' hinputs rfl
    obtain rfl : m = k := by
      cases hlast
      rfl
    obtain rfl : next = next' := Option.some.inj (hnext.symm.trans hnext')
    let w : Nat → Int := fun j => if j = m + 1 then r else z' j
    have hturn : ComputesWithin within b (xs ++ [((m + 1 : Nat) : Int)]) (w (m + 1)) := by
      refine .recursion (z := w) hk (Nat.succ_pos m) hbase hnext ?_ ?_
      · simpa [w] using h0
      · intro j hj
        rcases Nat.lt_succ_iff_lt_or_eq.mp hj with hlt | rfl
        · have h1 : j ≠ m + 1 := by omega
          have h2 : j ≠ m := by omega
          simpa [w, h1, h2] using hz j hlt
        · simpa [w] using hr
    simpa [w] using hturn
  | zero hk' | successor hk' | projection hk' | composition hk' | minimization hk' | custom hk' =>
    rw [hk] at hk'
    cases hk'

/-- **What a walk gives is the value**, by searches that end below the ceiling. -/
theorem computesWithin_of_walk (ceiling : Int) (levels : Nat) :
    (walk ceiling levels).Gives (ComputesWithin fun n => (n : Int) < ceiling) := by
  induction levels with
  | zero => intro site xs r h; cases h
  | succ levels ih =>
    intro site xs r h
    rw [ending_walk_succ] at h
    cases hk : site.block.head.kind with
    | zero =>
      rw [hk] at h
      cases h
      exact .zero hk
    | successor =>
      rw [hk] at h
      simp only [Rule.apply, Rule.successor] at h
      split at h
      · cases h
        exact .successor hk
      · cases h
    | projection =>
      rw [hk] at h
      simp only [Rule.apply, Rule.projection] at h
      split at h
      · cases h
      · obtain ⟨i, hi, h⟩ := Walk.ending_bind_eq_ok.mp h
        split at h
        · rename_i x hx
          cases h
          split at hx
          · rename_i hpos
            exact .projection hk (Rule.param?_of_parameter hi) hpos hx
          · cases hx
        · cases h
    | composition =>
      rw [hk] at h
      obtain ⟨m, hm, h⟩ := Walk.ending_bind_eq_ok.mp h
      obtain ⟨ys, hys, h⟩ := Walk.ending_bind_eq_ok.mp h
      obtain ⟨g, y, rfl, hg⟩ := Rule.children_of_parts ih hys
      obtain ⟨f, hf, hr⟩ := Rule.child?_of_inSlot ih h
      exact .composition hk (Rule.param?_of_parameter hm) (fun j hj => (hg j hj).1)
        (fun j hj => (hg j hj).2) hf hr
    | primitiveRecursion =>
      rw [hk] at h
      simp only [Rule.apply, Rule.primitiveRecursion] at h
      split at h
      · cases h
      · rename_i n hlast
        obtain ⟨others, rfl⟩ := List.getLast?_eq_some_iff.mp hlast
        rw [List.dropLast_concat] at h
        split at h
        · rename_i hn
          obtain ⟨base, hbase, hr⟩ := Rule.child?_of_inSlot ih h
          exact .base hk hn hbase hr
        · rename_i hn
          obtain ⟨z, hz, h⟩ := Walk.ending_bind_eq_ok.mp h
          obtain ⟨next, hnext, hr⟩ := Rule.child?_of_inSlot ih h
          exact .recursion_succ hk (by omega) hnext (ih _ _ _ hz) hr
    | minimization =>
      rw [hk] at h
      obtain ⟨f, hf, h⟩ := Walk.ending_bind_eq_ok.mp h
      obtain ⟨n, y, rfl, hn, hy, h0⟩ := Rule.least_of_search ih (fun r hr => by cases hr) h
      rw [Rule.ending_occupant] at hf
      split at hf
      · rename_i i d hseek
        cases hf
        refine .minimization hk (Block.child?_of_seek? hseek) (by omega)
          (fun k hlt => (hy k (Nat.zero_le k) hlt).1) (fun k hlt => (hy k (Nat.zero_le k) hlt).2) h0
      · cases hf
    | custom =>
      rw [hk] at h
      simp only [Rule.apply, Rule.custom] at h
      split at h
      · rename_i i d hseek
        exact .custom hk (Block.child?_of_seek? hseek) (ih _ _ _ h)
      · cases h

end Soundness

/-! ## The value is what a walk gives -/

section Completeness

namespace Walk

variable {α β : Type} {a : α} {b : β}

/-- A walk for every number of levels ends in the given way once there are enough levels, and
otherwise fails for want of levels, if it does not end in that way already. -/
def Tends (w : Nat → Walk α) (e : Except Failure α) : Prop :=
  (∀ l, (w l).ending .standard = e ∨ (w l).ending .standard = .error (.error .recursionLimit)) ∧
    ∃ enough, ∀ l, enough ≤ l → (w l).ending .standard = e

/-- A walk for every number of levels tends to the value. -/
def Reaches (w : Nat → Walk α) (a : α) : Prop :=
  Tends w (.ok a)

theorem Reaches.tends {w : Nat → Walk α} (h : Reaches w a) : Tends w (.ok a) :=
  h

theorem Reaches.of_ending {w : Nat → Walk α} (h : ∀ l, (w l).ending .standard = .ok a) :
    Reaches w a :=
  ⟨fun l => .inl (h l), 0, fun l _ => h l⟩

theorem Tends.congr {w w' : Nat → Walk α} {e : Except Failure α}
    (h : ∀ l, (w' l).ending .standard = (w l).ending .standard) (hw : Tends w e) : Tends w' e := by
  refine ⟨fun l => ?_, ?_⟩
  · rw [h]
    exact hw.1 l
  · obtain ⟨enough, hend⟩ := hw.2
    exact ⟨enough, fun l hl => (h l).trans (hend l hl)⟩

theorem Reaches.congr {w w' : Nat → Walk α}
    (h : ∀ l, (w' l).ending .standard = (w l).ending .standard) (hw : Reaches w a) :
    Reaches w' a :=
  hw.tends.congr h

/-- A walk that goes on from a value tends to what it goes on to. -/
theorem Reaches.bind_tends {w : Nat → Walk α} {next : Nat → α → Walk β} {e : Except Failure β}
    (hw : Reaches w a) (hnext : Tends (fun l => next l a) e) :
    Tends (fun l => (w l).bind (next l)) e := by
  refine ⟨fun l => ?_, ?_⟩
  · rw [ending_bind]
    rcases hw.1 l with h | h
    · rw [h]
      exact hnext.1 l
    · rw [h]
      exact .inr rfl
  · obtain ⟨n, hn⟩ := hw.2
    obtain ⟨m, hm⟩ := hnext.2
    refine ⟨max n m, fun l hl => ?_⟩
    rw [ending_bind, hn l (by omega)]
    exact hm l (by omega)

theorem Reaches.bind {w : Nat → Walk α} {next : Nat → α → Walk β} (hw : Reaches w a)
    (hnext : Reaches (fun l => next l a) b) : Reaches (fun l => (w l).bind (next l)) b :=
  hw.bind_tends hnext.tends

/-- A block tends to what the rule of its kind tends to, one level below. -/
theorem Tends.of_apply {ceiling : Int} {site : Site} {xs : List Int} {e : Except Failure Int}
    (h : Tends (fun l => Rule.apply ceiling (.ofKind site.block.head.kind)
      (walk ceiling l) site xs) e) : Tends (fun l => walk ceiling l site xs) e := by
  refine ⟨fun l => ?_, ?_⟩
  · cases l with
    | zero => exact .inr rfl
    | succ l =>
      rw [ending_walk_succ]
      exact h.1 l
  · obtain ⟨enough, hend⟩ := h.2
    refine ⟨enough + 1, fun l hl => ?_⟩
    obtain ⟨k, rfl⟩ : ∃ k, l = k + 1 := ⟨l - 1, by omega⟩
    rw [ending_walk_succ]
    exact hend k (by omega)

/-- A block reaches what the rule of its kind reaches, one level below. -/
theorem Reaches.of_apply {ceiling : Int} {site : Site} {xs : List Int} {r : Int}
    (h : Reaches (fun l => Rule.apply ceiling (.ofKind site.block.head.kind)
      (walk ceiling l) site xs) r) : Reaches (fun l => walk ceiling l site xs) r :=
  Tends.of_apply h.tends

end Walk

namespace Rule

variable {ceiling : Int} {site : Site} {xs : List Int} {r : Int}

/-- The block reaches the value, wherever it is in the tree. -/
def BlockReaches (ceiling : Int) (b : Block) (xs : List Int) (r : Int) : Prop :=
  ∀ p, Walk.Reaches (fun l => walk ceiling l ⟨p, b⟩ xs) r

theorem inSlot_reaches {slot : String} {d : Block} (hd : site.block.child? slot = some d)
    (h : BlockReaches ceiling d xs r) :
    Walk.Reaches (fun l => inSlot (walk ceiling l) site slot xs) r := by
  obtain ⟨i, hseek⟩ := Block.seek?_eq_some_of_child? hd
  refine Walk.Reaches.congr (fun l => ?_) (h (site.position ++ [i]))
  rw [ending_inSlot, hseek]

theorem parts_reaches {g : Nat → Block} {y : Nat → Int} {count first : Nat}
    (hg : ∀ j, j < count → site.block.child? ("g" ++ toString (first + j)) = some (g j))
    (hy : ∀ j, j < count → BlockReaches ceiling (g j) xs (y j)) :
    Walk.Reaches (fun l => parts (walk ceiling l) site xs count first)
      ((List.range count).map y) := by
  induction count generalizing first g y with
  | zero => exact .of_ending fun _ => rfl
  | succ count ih =>
    have hhead : Walk.Reaches (fun l => inSlot (walk ceiling l) site ("g" ++ toString first) xs)
        (y 0) := inSlot_reaches (hg 0 (Nat.succ_pos count)) (hy 0 (Nat.succ_pos count))
    have htail : Walk.Reaches (fun l => parts (walk ceiling l) site xs count (first + 1))
        ((List.range count).map fun j => y (j + 1)) := by
      refine ih (fun j hj => ?_) fun j hj => hy (j + 1) (by omega)
      rw [show first + 1 + j = first + (j + 1) by omega]
      exact hg (j + 1) (by omega)
    have hlist : (List.range (count + 1)).map y =
        y 0 :: (List.range count).map fun j => y (j + 1) := by
      rw [List.range_succ_eq_map, List.map_cons, List.map_map]
      rfl
    rw [hlist]
    exact hhead.bind (htail.bind (.of_ending fun _ => rfl))

/-- A search reaches the first zero, if that is among its candidates. -/
theorem search_reaches {f : Site} {y : Nat → Int} {n : Nat} {exhausted : Walk Int}
    (hy : ∀ k, k < n → BlockReaches ceiling f.block (xs ++ [(k : Int)]) (y k))
    (hne : ∀ k, k < n → y k ≠ 0) (h0 : BlockReaches ceiling f.block (xs ++ [(n : Int)]) 0)
    {count first : Nat} (hlo : first ≤ n) (hhi : n < first + count) :
    Walk.Reaches (fun l => search (walk ceiling l) f xs exhausted count first) (n : Int) := by
  induction count generalizing first with
  | zero => omega
  | succ count ih =>
    by_cases hfirst : first = n
    · subst hfirst
      exact (h0 f.position).bind (.of_ending fun _ => rfl)
    · have hrest := ih (Nat.lt_of_le_of_ne hlo hfirst) (by omega)
      refine (hy first (by omega) f.position).bind (.congr (fun l => ?_) hrest)
      rw [if_neg (hne first (by omega))]

theorem primitiveRecursion_concat (eval : Evaluator) (site : Site) (xs : List Int) (n : Int) :
    primitiveRecursion eval site (xs ++ [n]) =
      if n ≤ 0 then inSlot eval site Catalog.baseCase.name xs
      else (eval site (xs ++ [n - 1])).bind fun z =>
        inSlot eval site Catalog.recursiveCase.name (xs ++ [n - 1, z]) := by
  simp [primitiveRecursion]

end Rule

/-- **A value is what the walk gives**, if its searches end below the ceiling. -/
theorem ComputesWithin.reaches {ceiling : Int} {b : Block} {xs : List Int} {r : Int}
    (h : ComputesWithin (fun n => (n : Int) < ceiling) b xs r) :
    Rule.BlockReaches ceiling b xs r := by
  induction h with
  | zero hk =>
    intro p
    refine .of_apply (.of_ending fun l => ?_)
    rw [hk]
    rfl
  | successor hk =>
    intro p
    refine .of_apply (.of_ending fun l => ?_)
    rw [hk]
    rfl
  | @projection b xs i x hk hi hpos hx =>
    intro p
    refine .of_apply (.of_ending fun l => ?_)
    have hne : xs.isEmpty = false := by
      cases xs with
      | nil => simp at hx
      | cons _ _ => rfl
    rw [hk]
    simp only [Rule.apply, Rule.projection, Rule.parameter, hne, hi, Walk.bind]
    rw [if_pos hpos, hx]
    rfl
  | @composition b f g m r y xs hk hm hg _ hf _ ihy ihr =>
    intro p
    have hparts : Walk.Reaches (fun l => Rule.parts (walk ceiling l) ⟨p, b⟩ xs m.toNat 1)
        ((List.range m.toNat).map y) := Rule.parts_reaches hg ihy
    have hboth : Walk.Reaches (fun l => (Rule.parts (walk ceiling l) ⟨p, b⟩ xs m.toNat 1).bind
        fun ys => Rule.inSlot (walk ceiling l) ⟨p, b⟩ "f" ys) r :=
      hparts.bind (Rule.inSlot_reaches hf ihr)
    refine .of_apply (.congr (fun l => ?_) hboth)
    rw [hk]
    simp only [Rule.apply, Rule.composition, Rule.parameter, hm, Walk.bind]
  | @base b base n r xs hk hn hbase _ ih =>
    intro p
    have hslot : Walk.Reaches (fun l => Rule.inSlot (walk ceiling l) ⟨p, b⟩ "Base Case" xs) r :=
      Rule.inSlot_reaches hbase ih
    refine .of_apply (.congr (fun l => ?_) hslot)
    rw [hk]
    simp only [Rule.apply, Rule.primitiveRecursion_concat, if_pos hn]
    rfl
  | @recursion b base next n z xs hk hn hbase hnext _ _ ih0 ihz =>
    intro p
    -- Going down through the block itself meets the values of the iteration, one for each turn.
    have hturns : ∀ k, k ≤ n → Walk.Reaches (fun l => walk ceiling l ⟨p, b⟩ (xs ++ [(k : Int)]))
        (z k) := by
      intro k hle
      induction k with
      | zero =>
        have hslot : Walk.Reaches (fun l => Rule.inSlot (walk ceiling l) ⟨p, b⟩ "Base Case" xs)
            (z 0) := Rule.inSlot_reaches hbase ih0
        refine .of_apply (.congr (fun l => ?_) hslot)
        rw [hk]
        simp only [Rule.apply, Rule.primitiveRecursion_concat]
        rfl
      | succ k ih =>
        have hturn : Walk.Reaches (fun l => (walk ceiling l ⟨p, b⟩ (xs ++ [(k : Int)])).bind
            fun v => Rule.inSlot (walk ceiling l) ⟨p, b⟩ "Recursive Case" (xs ++ [(k : Int), v]))
            (z (k + 1)) :=
          (ih (by omega)).bind (Rule.inSlot_reaches hnext (ihz k (by omega)))
        refine .of_apply (.congr (fun l => ?_) hturn)
        rw [hk]
        simp only [Rule.apply, Rule.primitiveRecursion_concat]
        rw [if_neg (by omega), show ((k + 1 : Nat) : Int) - 1 = (k : Int) by omega]
        rfl
    exact hturns n (Nat.le_refl n)
  | @minimization b f n y xs hk hf hn _ hne _ ihy ih0 =>
    intro p
    obtain ⟨i, hseek⟩ := Block.seek?_eq_some_of_child? hf
    have hsearch : Walk.Reaches (fun l => Rule.search (walk ceiling l) ⟨p ++ [i], f⟩ xs
        (.look ⟨p, b⟩ fun b => .fail (.error (.nonConvergence ceiling b.head.id))) ceiling.toNat 0)
        (n : Int) := Rule.search_reaches ihy hne ih0 (Nat.zero_le n) (by omega)
    refine .of_apply (.congr (fun l => ?_) hsearch)
    rw [hk]
    simp only [Rule.apply, Rule.minimization, Walk.ending_bind, Rule.ending_occupant, hseek]
  | @custom b body r xs hk hbody _ ih =>
    intro p
    obtain ⟨i, hseek⟩ := Block.seek?_eq_some_of_child? hbody
    refine .of_apply (.congr (fun l => ?_) (ih (p ++ [i])))
    rw [hk]
    simp only [Rule.apply, Rule.custom, Catalog.customBody, hseek]

end Completeness

/-! ## Evaluating a tree -/

namespace Block

variable {options : EvalOptions} {tree : Block} {inputs : List Int} {r : Int}

/-- What evaluation gives is the value, by searches that end below the ceiling. -/
theorem computesWithin_of_evaluate
    (h : (tree.evaluate .standard options inputs).outcome = .ok r) :
    ComputesWithin (fun n => (n : Int) < options.ceiling) tree inputs r := by
  rw [evaluate_outcome Catalog.prompt_standard] at h
  have hwalk : (tree.walk options inputs).ending .standard = .ok r := by
    cases hend : (tree.walk options inputs).ending .standard with
    | ok n =>
      rw [hend] at h
      exact congrArg Except.ok (Except.ok.inj h)
    | error e =>
      rw [hend] at h
      cases h
  refine (computesWithin_of_walk _ _ _ _ _ hwalk).of_mapHeads ?_ ?_ tree rfl
  · intro _; rfl
  · intro _; rfl

theorem clearTrace_reaches
    (h : ComputesWithin (fun n => (n : Int) < options.ceiling) tree inputs r) :
    Walk.Reaches (fun l => BlockCalculus.walk options.ceiling l ⟨[], tree.clearTrace⟩ inputs)
      r := by
  have hcleared :
      ComputesWithin (fun n => (n : Int) < options.ceiling) tree.clearTrace inputs r := by
    refine ComputesWithin.mapHeads ?_ ?_ h
    · intro _; rfl
    · intro _; rfl
  exact hcleared.reaches []

/-- A value whose searches end below the ceiling is what evaluation gives, up to the limit on blocks
under evaluation at once. -/
theorem evaluate_of_computesWithin
    (h : ComputesWithin (fun n => (n : Int) < options.ceiling) tree inputs r) :
    (tree.evaluate .standard options inputs).outcome = .ok r ∨
      (tree.evaluate .standard options inputs).outcome = .error (.evaluation .recursionLimit) := by
  have hend : (tree.walk options inputs).ending .standard = .ok r ∨
      (tree.walk options inputs).ending .standard = .error (.error .recursionLimit) :=
    (clearTrace_reaches h).1 evaluationLimit
  rw [evaluate_outcome Catalog.prompt_standard]
  rcases hend with hok | hlimit
  · exact .inl (by rw [hok]; rfl)
  · exact .inr (by rw [hlimit]; rfl)

/-- **Evaluation computes Kleene's functions.** What it gives is the value of the tree on the
inputs, with notes or without. A value whose searches end below the ceiling is what evaluation
gives, unless too many blocks would be under evaluation at once; and that depends on the limit
alone, since with enough levels the walk gives the value. With notes the same holds exactly if the
inputs and the value can be written; otherwise there is no value. -/
theorem evaluate_computes (options : EvalOptions) (tree : Block) (inputs : List Int) (r : Int) :
    ((tree.evaluate .standard options inputs).outcome = .ok r → Computes tree inputs r) ∧
      ((tree.evaluateNoted .standard options inputs).outcome = .ok r → Computes tree inputs r) ∧
      (ComputesWithin (fun n => (n : Int) < options.ceiling) tree inputs r →
        ((tree.evaluate .standard options inputs).outcome = .ok r ∨
          (tree.evaluate .standard options inputs).outcome =
            .error (.evaluation .recursionLimit)) ∧
        (∃ enough, ∀ levels, enough ≤ levels →
          (BlockCalculus.walk options.ceiling levels ⟨[], tree.clearTrace⟩ inputs).ending
            .standard = .ok r) ∧
        (Notable inputs (.ok r) →
          (tree.evaluateNoted .standard options inputs).outcome = .ok r ∨
            (tree.evaluateNoted .standard options inputs).outcome =
              .error (.evaluation .recursionLimit)) ∧
        (¬ Notable inputs (.ok r) →
          (tree.evaluateNoted .standard options inputs).outcome = .error .unwritable ∨
            (tree.evaluateNoted .standard options inputs).outcome =
              .error (.evaluation .recursionLimit))) := by
  have hsound : ∀ {r}, (tree.evaluate .standard options inputs).outcome = .ok r →
      Computes tree inputs r :=
    fun h => (computesWithin_of_evaluate h).mono fun _ _ => trivial
  refine ⟨hsound, fun h => hsound (evaluate_eq_ok_of_evaluateNoted h), fun h => ?_⟩
  have hvalue := evaluate_of_computesWithin h
  refine ⟨hvalue, (clearTrace_reaches h).2, fun hn => ?_, fun hn => ?_⟩
  · rcases hvalue with hok | hlimit
    · exact .inl ((evaluateNoted_of_evaluate_eq_ok hok).1 hn)
    · exact .inr ((evaluateNoted_of_evaluate_eq_error hlimit).1 hn.1)
  · rcases hvalue with hok | hlimit
    · exact .inl ((evaluateNoted_of_evaluate_eq_ok hok).2 hn)
    · by_cases hin : ∀ x ∈ inputs, Text.isWritable x = true
      · exact .inr ((evaluateNoted_of_evaluate_eq_error hlimit).1 hin)
      · exact .inl ((evaluateNoted_of_evaluate_eq_error hlimit).2 hin)

/-- Two and three make five, by the rules and by evaluation. -/
theorem evaluate_computes_plus :
    (plus.evaluate .standard {} [2, 3]).outcome = .ok 5 ∧ Computes plus [2, 3] 5 ∧
      ComputesWithin (fun n => (n : Int) < 100) plus [2, 3] 5 ∧
      ((plus.evaluate .standard {} [2, 3]).outcome = .ok 5 ∨
        (plus.evaluate .standard {} [2, 3]).outcome = .error (.evaluation .recursionLimit)) := by
  have hvalue : (plus.evaluate .standard {} [2, 3]).outcome = .ok 5 := rfl
  have hwithin : ComputesWithin (fun n => (n : Int) < 100) plus [2, 3] 5 :=
    computesWithin_of_evaluate hvalue
  have h := evaluate_computes {} plus [2, 3] 5
  exact ⟨hvalue, h.1 hvalue, hwithin, (h.2.2 hwithin).1⟩

end Block

end BlockCalculus
