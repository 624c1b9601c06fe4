import BlockCalculus.Proofs.Mirror
import BlockCalculus.Proofs.Subtree
import Mathlib.Data.Finset.SymmDiff

/-!
# All ways through a tree lead to the same blocks

The blocks of a tree are visited in several ways: with a stack (`listing`), by recursion that ends
early (`isBelow`), and by recursion that changes a block on the way (`updateFirst?`). They are all
compared with one recursion that goes through the tree in pre-order and notes where it is (`tour`).

* `map_snd_tour`, `mem_tour_iff`, `nodup_tour`: the stack lists the blocks in pre-order, and the
  block at every position once.
* `isBelow_eq`: an id is below the root if it is listed after the root.
* `updateFirst?_cases`: the block that is changed is the first one listed that is to be changed.
* `toggled_breakpoints`, `toggleBreakpoint_toggled`: what becomes of breakpoints if one is toggled.
* `traversals_agree`: the main result.
-/

namespace BlockCalculus

namespace Block

/-! ## Pre-order by recursion -/

mutual

/-- The blocks of a tree in pre-order, each with its position. The root is at `p`. -/
def tour (p : Position) : Block → List (Position × Block)
  | ⟨head, slots⟩ => (p, ⟨head, slots⟩) :: tourAll p 0 slots

/-- The blocks in slots in pre-order, each with its position. The slots are those of a block at `p`,
from the index `i` on. -/
def tourAll (p : Position) (i : Nat) : List Slot → List (Position × Block)
  | [] => []
  | ⟨_, none⟩ :: rest => tourAll p (i + 1) rest
  | ⟨_, some b⟩ :: rest => tour (p ++ [i]) b ++ tourAll p (i + 1) rest

end

mutual

/-- **The stack lists the blocks in the order of the recursion.** -/
theorem map_snd_tour (p : Position) : (b : Block) → (b.tour p).map Prod.snd = b.listing
  | ⟨head, slots⟩ => by
    rw [tour, List.map_cons, map_snd_tourAll p 0 slots, listing_mk]

theorem map_snd_tourAll (p : Position) (i : Nat) : (slots : List Slot) →
    (tourAll p i slots).map Prod.snd = (Slot.occupants slots).flatMap listing
  | [] => by rw [tourAll]; rfl
  | ⟨_, none⟩ :: rest => by
    rw [tourAll, map_snd_tourAll p (i + 1) rest]
    rfl
  | ⟨_, some b⟩ :: rest => by
    rw [tourAll, List.map_append, map_snd_tour (p ++ [i]) b, map_snd_tourAll p (i + 1) rest]
    rfl

end

/-- A slot is the first one or a later one. -/
theorem exists_getElem?_cons {P : Nat → Slot → Prop} {s : Slot} {rest : List Slot} :
    (∃ j t, (s :: rest)[j]? = some t ∧ P j t) ↔
      P 0 s ∨ ∃ j t, rest[j]? = some t ∧ P (j + 1) t := by
  constructor
  · rintro ⟨j, t, hj, ht⟩
    cases j with
    | zero =>
      obtain rfl : s = t := by simpa using hj
      exact .inl ht
    | succ j => exact .inr ⟨j, t, by simpa using hj, ht⟩
  · rintro (hs | ⟨j, t, hj, ht⟩)
    · exact ⟨0, s, rfl, hs⟩
    · exact ⟨j + 1, t, by simpa using hj, ht⟩

mutual

theorem mem_tour {p q : Position} {c : Block} : (b : Block) →
    ((q, c) ∈ b.tour p ↔ ∃ r, q = p ++ r ∧ b.at? r = some c)
  | ⟨head, slots⟩ => by
    rw [tour, List.mem_cons, mem_tourAll slots]
    constructor
    · rintro (h | ⟨j, s, hj, d, hd, r, hr, rfl⟩)
      · obtain ⟨rfl, rfl⟩ := Prod.mk.inj h
        exact ⟨[], by simp, at?_nil _⟩
      · obtain ⟨shape, occupant⟩ := s
        obtain rfl : occupant = some d := hd
        exact ⟨j :: r, by simp, at?_cons_eq_some.mpr ⟨shape, d, hj, hr⟩⟩
    · rintro ⟨r, rfl, hr⟩
      cases r with
      | nil =>
        rw [at?_nil] at hr
        exact .inl (by simp [Option.some.inj hr])
      | cons j r =>
        obtain ⟨shape, d, hj, hd⟩ := at?_cons_eq_some.mp hr
        exact .inr ⟨j, _, hj, d, rfl, r, hd, by simp⟩

theorem mem_tourAll {p q : Position} {i : Nat} {c : Block} : (slots : List Slot) →
    ((q, c) ∈ tourAll p i slots ↔ ∃ j s, slots[j]? = some s ∧
      ∃ d ∈ s.occupant, ∃ r, d.at? r = some c ∧ q = p ++ (i + j) :: r)
  | [] => by simp [tourAll]
  | ⟨shape, none⟩ :: rest => by
    rw [tourAll, mem_tourAll rest, exists_getElem?_cons]
    simp [Nat.add_assoc, Nat.add_comm 1]
  | ⟨shape, some b⟩ :: rest => by
    rw [tourAll, List.mem_append, mem_tour b, mem_tourAll rest, exists_getElem?_cons]
    simp [Nat.add_assoc, Nat.add_comm 1, and_comm]

end

/-- **The recursion comes to the block at every position**, and to nothing else. -/
theorem mem_tour_iff {p : Position} {b c : Block} : (p, c) ∈ b.tour [] ↔ b.at? p = some c := by
  simp [mem_tour]

mutual

/-- **The recursion comes to no position twice.** -/
theorem nodup_tour (p : Position) : (b : Block) → ((b.tour p).map Prod.fst).Nodup
  | ⟨head, slots⟩ => by
    rw [tour, List.map_cons, List.nodup_cons]
    refine ⟨fun hp => ?_, nodup_tourAll p 0 slots⟩
    obtain ⟨⟨q, c⟩, hmem, rfl⟩ := List.mem_map.mp hp
    obtain ⟨j, s, -, d, -, r, -, hq⟩ := (mem_tourAll slots).mp hmem
    simp at hq

theorem nodup_tourAll (p : Position) (i : Nat) : (slots : List Slot) →
    ((tourAll p i slots).map Prod.fst).Nodup
  | [] => by simp [tourAll]
  | ⟨_, none⟩ :: rest => by
    rw [tourAll]
    exact nodup_tourAll p (i + 1) rest
  | ⟨_, some b⟩ :: rest => by
    rw [tourAll, List.map_append, List.nodup_append]
    refine ⟨nodup_tour (p ++ [i]) b, nodup_tourAll p (i + 1) rest, ?_⟩
    -- positions in the first slot go on with `i`, those in later slots with more
    intro q hq q' hq' heq
    obtain ⟨⟨_, c⟩, hmem, rfl⟩ := List.mem_map.mp hq
    obtain ⟨⟨_, c'⟩, hmem', rfl⟩ := List.mem_map.mp hq'
    obtain ⟨r, rfl, -⟩ := (mem_tour b).mp hmem
    obtain ⟨j, s, -, d, -, r', -, rfl⟩ := (mem_tourAll rest).mp hmem'
    simp at heq
    omega

end

/-! ## Blocks below the root -/

theorem cons_tail_listing (b : Block) : b :: b.listing.tail = b.listing := by
  obtain ⟨head, slots⟩ := b
  rw [listing_mk, List.tail_cons]

/-- An occupied slot lists its occupant before what is in later slots. -/
theorem listing_occupied (shape : SlotShape) (b : Block) (rest : List Slot) :
    (Slot.occupants (⟨shape, some b⟩ :: rest)).flatMap listing =
      b.listing ++ (Slot.occupants rest).flatMap listing :=
  rfl

mutual

/-- A search with enough levels to descend finds what is listed after the root. -/
theorem isBelow?_eq (id : String) : (levels : Nat) → (b : Block) → b.height ≤ levels →
    isBelow? id levels b = some (b.listing.tail.any fun c => c.head.id == id)
  | levels, ⟨head, slots⟩, h => by
    rw [height] at h
    cases levels with
    | zero => omega
    | succ levels =>
      rw [isBelow?, isBelowAny?_eq id levels slots (by omega), listing_mk, List.tail_cons]

theorem isBelowAny?_eq (id : String) (levels : Nat) : (slots : List Slot) →
    heightAll slots ≤ levels → isBelowAny? id levels slots =
      some (((Slot.occupants slots).flatMap listing).any fun c => c.head.id == id)
  | [], _ => by rw [isBelowAny?]; rfl
  | ⟨_, none⟩ :: rest, h => by
    rw [heightAll] at h
    rw [isBelowAny?, isBelowAny?_eq id levels rest h]
    rfl
  | ⟨shape, some b⟩ :: rest, h => by
    rw [heightAll] at h
    have hb := isBelow?_eq id levels b (by omega)
    have hrest := isBelowAny?_eq id levels rest (by omega)
    rw [isBelowAny?, hb, hrest, listing_occupied, List.any_append, ← cons_tail_listing b,
      List.any_cons, List.tail_cons]
    by_cases hid : b.head.id = id
    · simp [hid]
    · cases hbelow : b.listing.tail.any fun c => c.head.id == id <;> simp [hid]

end

/-- **An id is below the root of a tree if it is listed after the root.** -/
theorem isBelow_eq {b : Block} (h : b.height ≤ nestingLimit) (id : String) :
    b.isBelow id = .ok (b.listing.tail.any fun c => c.head.id == id) := by
  rw [isBelow, isBelow?_eq id nestingLimit b h]

/-! ## The first block with a property -/

section UpdateFirst

variable (P : Head → Bool) (f : Head → Head)

/-- Changes the head of a block. -/
def withHead (b : Block) : Block :=
  { b with head := f b.head }

mutual

/-- **The block whose head is changed is the first one listed that has the property.** -/
theorem updateFirst?_cases : (b : Block) →
    (b.updateFirst? P f = none ∧ ∀ c ∈ b.listing, P c.head = false) ∨
      ∃ q c, b.updateFirst? P f = some (b.modifyAt (withHead f) q) ∧ b.at? q = some c ∧
        b.listing.find? (fun c => P c.head) = some c
  | ⟨head, slots⟩ => by
    rw [updateFirst?, listing_mk]
    by_cases hroot : P head = true
    · exact .inr
        ⟨[], ⟨head, slots⟩, by simp [hroot, modifyAt, withHead], at?_nil _, by simp [hroot]⟩
    · rcases updateFirstIn?_cases slots with
        ⟨hnone, hall⟩ | ⟨i, s, hi, d, hd, q, c, hsome, hq, hfind⟩
      · refine .inl ⟨by simp [hroot, hnone], ?_⟩
        rw [List.forall_mem_cons]
        exact ⟨by simpa using hroot, hall⟩
      · obtain ⟨shape, occupant⟩ := s
        obtain rfl : occupant = some d := hd
        refine .inr ⟨i :: q, c, ?_, at?_cons_eq_some.mpr ⟨shape, d, hi, hq⟩, ?_⟩
        · simp [hroot, hsome, modifyAt]
        · simpa [hroot] using hfind

theorem updateFirstIn?_cases : (slots : List Slot) →
    (updateFirstIn? P f slots = none ∧
      ∀ c ∈ (Slot.occupants slots).flatMap listing, P c.head = false) ∨
      ∃ i s, slots[i]? = some s ∧ ∃ d ∈ s.occupant, ∃ q c,
        updateFirstIn? P f slots = some (slots.modify i fun s =>
          { s with occupant := s.occupant.map (modifyAt (withHead f) q) }) ∧
        d.at? q = some c ∧
        ((Slot.occupants slots).flatMap listing).find? (fun c => P c.head) = some c
  | [] => .inl ⟨by rw [updateFirstIn?], by simp [Slot.occupants]⟩
  | ⟨shape, none⟩ :: rest => by
    rw [updateFirstIn?]
    rcases updateFirstIn?_cases rest with ⟨hnone, hall⟩ | ⟨i, s, hi, d, hd, q, c, hsome, hq, hfind⟩
    · exact .inl ⟨by rw [hnone]; rfl, hall⟩
    · exact .inr ⟨i + 1, s, by simpa using hi, d, hd, q, c, by simp [hsome], hq, hfind⟩
  | ⟨shape, some b⟩ :: rest => by
    rw [updateFirstIn?, listing_occupied]
    rcases updateFirst?_cases b with ⟨hb, hin⟩ | ⟨q, c, hb, hq, hfind⟩
    · have hskip : b.listing.find? (fun c => P c.head) = none :=
        List.find?_eq_none.mpr fun c hc => by simp [hin c hc]
      rcases updateFirstIn?_cases rest with
        ⟨hnone, hall⟩ | ⟨i, s, hi, d, hd, q, c, hsome, hq, hfind⟩
      · refine .inl ⟨by rw [hb, hnone]; rfl, fun c hc => ?_⟩
        exact (List.mem_append.mp hc).elim (hin c) (hall c)
      · refine .inr ⟨i + 1, s, by simpa using hi, d, hd, q, c, by simp [hb, hsome], hq, ?_⟩
        rw [List.find?_append, hskip, hfind]
        rfl
    · refine .inr ⟨0, _, rfl, b, rfl, q, c, by simp [hb], hq, ?_⟩
      rw [List.find?_append, hfind]
      rfl

end

end UpdateFirst

/-! ## Toggling a breakpoint -/

end Block

/-- Flips a breakpoint. -/
def Head.flipped (h : Head) : Head :=
  { h with breakpoint := !h.breakpoint }

namespace Block

/-- **Toggling a breakpoint flips that of the block that is found**, and fails if none is. -/
theorem toggleBreakpoint_cases (id : String) (tree : Block) :
    (tree.find? id = none ∧ tree.toggleBreakpoint id = .error (.noBlock id)) ∨
      ∃ q c, tree.find? id = some c ∧ tree.at? q = some c ∧
        tree.toggleBreakpoint id =
          .ok (!c.head.breakpoint, tree.modifyAt (withHead Head.flipped) q) := by
  unfold toggleBreakpoint
  rcases updateFirst?_cases (fun h => h.id == id) Head.flipped tree with
    ⟨hnone, hall⟩ | ⟨q, c, hsome, hq, hfind⟩
  · have hfind : tree.find? id = none :=
      List.find?_eq_none.mpr fun c hc => by simpa using hall c hc
    exact .inl ⟨hfind, by rw [hfind]⟩
  · have hfind : tree.find? id = some c := hfind
    refine .inr ⟨q, c, hfind, hq, ?_⟩
    unfold Head.flipped at hsome ⊢
    simp only [hfind, hsome]

/-- The heads listed around a block, and what a change of its head makes of them. -/
theorem exists_heads_eq {tree c : Block} {q : Position} (hq : tree.at? q = some c) :
    ∃ before after, tree.listing.map head = before ++ c.head :: after ∧
      ∀ f, (tree.modifyAt (withHead f) q).listing.map head = before ++ f c.head :: after := by
  obtain ⟨before, after, hlisting, hchange⟩ := exists_listing_eq hq
  refine ⟨before.map head, c.listing.tail.map head ++ after.map head, ?_, fun f => ?_⟩
  · rw [hlisting, ← cons_tail_listing c]
    simp
  · have hheads := congrArg (List.map Prod.fst) (hchange (withHead f))
    obtain ⟨head, slots⟩ := c
    simpa [withHead, listing_mk, frame, Function.comp_def] using hheads

theorem mem_breakpoints {b : Block} {id : String} :
    id ∈ b.breakpoints ↔ ∃ h ∈ b.listing.map head, h.breakpoint = true ∧ h.id = id := by
  simp [breakpoints, and_assoc]

section Toggled

variable {tree c : Block} {q : Position}

/-- Toggling changes no id. -/
theorem DistinctIds.toggled (hids : tree.DistinctIds) (hq : tree.at? q = some c) :
    (tree.modifyAt (withHead Head.flipped) q).DistinctIds := by
  obtain ⟨before, after, hheads, hchange⟩ := exists_heads_eq hq
  have hsame : (tree.modifyAt (withHead Head.flipped) q).listing.map (fun d => d.head.id) =
      tree.listing.map fun d => d.head.id := by
    have hnew := congrArg (List.map Head.id) (hchange Head.flipped)
    have hold := congrArg (List.map Head.id) hheads
    simp only [List.map_map, List.map_append, List.map_cons] at hnew hold
    exact hnew.trans hold.symm
  unfold DistinctIds
  rw [hsame]
  exact hids

/-- **Toggling adds the id to those with a breakpoint, or takes it away.** -/
theorem toggled_breakpoints (hids : tree.DistinctIds) (hq : tree.at? q = some c) :
    (tree.modifyAt (withHead Head.flipped) q).breakpoints.toFinset =
      symmDiff tree.breakpoints.toFinset {c.head.id} := by
  obtain ⟨before, after, hheads, hchange⟩ := exists_heads_eq hq
  -- no other head has the id
  have hothers : ∀ h ∈ before ++ after, h.id ≠ c.head.id := by
    have hnodup : (tree.listing.map head |>.map Head.id).Nodup := by
      rw [List.map_map]
      exact hids
    rw [hheads, List.map_append, List.map_cons, List.nodup_middle, List.nodup_cons,
      ← List.map_append] at hnodup
    intro h hmem heq
    exact hnodup.1 (List.mem_map.mpr ⟨h, hmem, heq⟩)
  have hmiddle (h : Head) (id : String) :
      (∃ g ∈ before ++ h :: after, g.breakpoint = true ∧ g.id = id) ↔
        (h.breakpoint = true ∧ h.id = id) ∨
          ∃ g ∈ before ++ after, g.breakpoint = true ∧ g.id = id := by
    simp only [List.mem_append, List.mem_cons]
    grind
  have hflip : c.head.flipped.breakpoint = !c.head.breakpoint := rfl
  have hid : c.head.flipped.id = c.head.id := rfl
  ext id
  rw [List.mem_toFinset, Finset.mem_symmDiff, List.mem_toFinset, Finset.mem_singleton,
    mem_breakpoints, mem_breakpoints, hheads, hchange, hmiddle, hmiddle, hflip, hid]
  by_cases heq : id = c.head.id
  · subst heq
    have hnone : ¬ ∃ g ∈ before ++ after, g.breakpoint = true ∧ g.id = c.head.id := by
      rintro ⟨g, hg, -, hgid⟩
      exact hothers g hg hgid
    simp only [hnone]
    cases c.head.breakpoint <;> simp
  · simp [heq, Ne.symm heq]

/-- Toggled twice, a breakpoint is as it was. -/
theorem toggleBreakpoint_toggled (hids : tree.DistinctIds) (hq : tree.at? q = some c) :
    (tree.modifyAt (withHead Head.flipped) q).toggleBreakpoint c.head.id =
      .ok (c.head.breakpoint, tree) := by
  have hhere : (tree.modifyAt (withHead Head.flipped) q).at? q =
      some (c.withHead Head.flipped) := by
    rw [at?_modifyAt_self, hq, Option.map_some]
  have hback (b : Block) : withHead Head.flipped (withHead Head.flipped b) = b := by
    obtain ⟨⟨⟩, slots⟩ := b
    simp [withHead, Head.flipped]
  rcases toggleBreakpoint_cases c.head.id (tree.modifyAt (withHead Head.flipped) q) with
    ⟨hnone, -⟩ | ⟨q', c', hfind, hq', htoggle⟩
  · have hlisted := mem_listing_iff.mpr ⟨q, hhere⟩
    have hne := List.find?_eq_none.mp hnone _ hlisted
    simp [withHead, Head.flipped] at hne
  · -- the id leads to the same position again
    have hid : c'.head.id = c.head.id := by simpa using List.find?_some hfind
    obtain rfl := (hids.toggled hq).position_eq hq' hhere hid
    rw [hhere] at hq'
    obtain rfl := Option.some.inj hq'
    rw [htoggle, modifyAt_modifyAt, modifyAt_eq_self fun b _ => hback b]
    simp [withHead, Head.flipped]

end Toggled

/-! ## The main result -/

/-- What is found is the first block listed that has the id. -/
theorem find?_eq_some_iff {tree c : Block} {id : String} :
    tree.find? id = some c ↔ c.head.id = id ∧ ∃ before after,
      tree.listing = before ++ c :: after ∧ ∀ d ∈ before, d.head.id ≠ id := by
  simp [find?, List.find?_eq_some_iff_append]

theorem find?_eq_none_iff {tree : Block} {id : String} :
    tree.find? id = none ↔ ∀ c ∈ tree.listing, c.head.id ≠ id := by
  simp [find?]

/-- A breakpoint that cannot be toggled leaves the tree as it is. -/
theorem apply_toggleBreakpoint_of_error {tree : Block} {id : String} {fault : Fault}
    (h : tree.toggleBreakpoint id = .error fault) (desk : Desk) :
    (Edit.toggleBreakpoint id).apply tree desk = (tree, desk) := by
  unfold Edit.apply
  dsimp only
  rw [h]
  rfl

/-- **All ways through a tree agree.** The stack lists the blocks in pre-order, the block at every
position once. An id leads to the first block listed that has it, and it is below the root if it is
listed after the root. If the ids are distinct, toggling a breakpoint fails and leaves the tree as
it is if the id leads nowhere. Otherwise it changes the flag of the block found and nothing else,
so it adds the id to those with a breakpoint or takes it away, and toggling again gives the tree
back. -/
theorem traversals_agree (tree : Block) :
    (tree.listing = (tree.tour []).map Prod.snd ∧ ((tree.tour []).map Prod.fst).Nodup ∧
      ∀ p c, (p, c) ∈ tree.tour [] ↔ tree.at? p = some c) ∧
    (∀ id, (tree.find? id = none ↔ ∀ c ∈ tree.listing, c.head.id ≠ id) ∧
      ∀ c, tree.find? id = some c ↔ c.head.id = id ∧ ∃ before after,
        tree.listing = before ++ c :: after ∧ ∀ d ∈ before, d.head.id ≠ id) ∧
    (tree.height ≤ nestingLimit → ∀ id,
      tree.isBelow id = .ok (tree.listing.tail.any fun c => c.head.id == id)) ∧
    (tree.DistinctIds → ∀ id,
      (tree.toggleBreakpoint id = .error (.noBlock id) ↔ tree.find? id = none) ∧
      (tree.find? id = none → ∀ desk, (Edit.toggleBreakpoint id).apply tree desk = (tree, desk)) ∧
      ∀ c, tree.find? id = some c → ∃ p, tree.at? p = some c ∧
        let toggled := tree.modifyAt (withHead Head.flipped) p
        tree.toggleBreakpoint id = .ok (!c.head.breakpoint, toggled) ∧
          toggled.breakpoints.toFinset = symmDiff tree.breakpoints.toFinset {id} ∧
          toggled.toggleBreakpoint id = .ok (c.head.breakpoint, tree)) := by
  refine ⟨⟨(map_snd_tour [] tree).symm, nodup_tour [] tree, fun p c => mem_tour_iff⟩,
    fun id => ⟨find?_eq_none_iff, fun c => find?_eq_some_iff⟩,
    fun hheight id => isBelow_eq hheight id,
    fun hids id => ?_⟩
  rcases toggleBreakpoint_cases id tree with ⟨hnone, hfail⟩ | ⟨q, c, hfind, hq, htoggle⟩
  · refine ⟨iff_of_true hfail hnone, fun _ => apply_toggleBreakpoint_of_error hfail, ?_⟩
    intro c hc
    simp [hnone] at hc
  · refine ⟨by simp [htoggle, hfind], by simp [hfind], ?_⟩
    rw [hfind]
    rintro _ ⟨rfl⟩
    obtain ⟨rfl, -⟩ := find?_eq_some_iff.mp hfind
    exact ⟨q, hq, htoggle, toggled_breakpoints hids hq, toggleBreakpoint_toggled hids hq⟩

/-- A breakpoint is set in addition and taken away again. No block has the other id. -/
theorem traversals_agree_plus :
    plus.height ≤ nestingLimit ∧ plus.DistinctIds ∧ plus.isBelow "previous" = .ok true ∧
      plus.toggleBreakpoint "last" = .error (.noBlock "last") ∧
      ∃ toggled, plus.toggleBreakpoint "previous" = .ok (true, toggled) ∧
        toggled.breakpoints.toFinset = symmDiff plus.breakpoints.toFinset {"previous"} ∧
        toggled.toggleBreakpoint "previous" = .ok (false, plus) := by
  have hheight : plus.height ≤ nestingLimit := by decide
  obtain ⟨-, -, hbelow, htoggle⟩ := traversals_agree plus
  have hlast : plus.find? "last" = none := by
    rw [← Option.isNone_iff_eq_none]
    decide +kernel
  have hflag : (plus.find? "previous").map (fun c => c.head.breakpoint) = some false := by
    decide +kernel
  obtain ⟨c, hc, hfalse⟩ := Option.map_eq_some_iff.mp hflag
  obtain ⟨p, -, hon, hset, hoff⟩ := (htoggle distinctIds_plus "previous").2.2 c hc
  rw [hfalse] at hon hoff
  refine ⟨hheight, distinctIds_plus, ?_, ?_, _, hon, hset, hoff⟩
  · rw [hbelow hheight]
    exact congrArg Except.ok (by decide +kernel)
  · exact (htoggle distinctIds_plus "last").1.mpr hlast

end Block

end BlockCalculus
