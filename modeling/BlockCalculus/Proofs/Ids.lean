import BlockCalculus.Proofs.Layout

/-!
# Trees whose ids tell blocks apart

What a tree lists is what stands at its positions (`Block.mem_listing_iff`). If the ids that it
lists are distinct, an id leads to one position only (`Block.DistinctIds.position_eq`): no block
below a root has the id of the root, blocks in different slots have different ids, and the trees in
the slots are such trees again.

Trees are told apart by what stands at their positions as well: two trees of the same shape with the
same head at every position are the same (`Block.ext_at?`).
-/

namespace BlockCalculus

namespace Block

/-! ## Positions and listings -/

theorem at?_cons_eq_some {b c : Block} {i : Nat} {rest : Position} :
    b.at? (i :: rest) = some c ↔
      ∃ shape d, b.slots[i]? = some ⟨shape, some d⟩ ∧ d.at? rest = some c := by
  rw [at?]
  cases b.slots[i]? with
  | none => simp
  | some s =>
    obtain ⟨shape, occupant⟩ := s
    cases occupant <;> simp

theorem mem_occupants {b c : Block} {shape : SlotShape} {i : Nat}
    (hi : b.slots[i]? = some ⟨shape, some c⟩) : c ∈ Slot.occupants b.slots :=
  List.mem_filterMap.mpr ⟨_, List.mem_of_getElem? hi, rfl⟩

theorem listingOf_eq_flatMap (stack : List Block) : listingOf stack = stack.flatMap listing := by
  induction stack with
  | nil => rw [listingOf, List.flatMap_nil]
  | cons b rest ih =>
    rw [List.flatMap_cons, ← ih, ← List.singleton_append, listingOf_append]
    rfl

theorem listing_mk (head : Head) (slots : List Slot) :
    listing ⟨head, slots⟩ = ⟨head, slots⟩ :: (Slot.occupants slots).flatMap listing := by
  rw [listing, listingOf, List.append_nil, listingOf_eq_flatMap]

/-- **A tree lists what stands at its positions.** -/
theorem mem_listing_iff {tree b : Block} : b ∈ tree.listing ↔ ∃ p, tree.at? p = some b := by
  induction tree using Block.induction with
  | mk head slots ih =>
    rw [listing_mk, List.mem_cons, List.mem_flatMap]
    constructor
    · rintro (rfl | ⟨c, hc, hb⟩)
      · exact ⟨[], at?_nil _⟩
      · obtain ⟨s, hs, hocc⟩ := List.mem_filterMap.mp hc
        obtain ⟨p, hp⟩ := (ih s hs c hocc).mp hb
        obtain ⟨i, hi⟩ := List.mem_iff_getElem?.mp hs
        obtain ⟨shape, occupant⟩ := s
        obtain rfl : occupant = some c := hocc
        exact ⟨i :: p, at?_cons_eq_some.mpr ⟨shape, c, hi, hp⟩⟩
    · rintro ⟨p, hp⟩
      cases p with
      | nil =>
        rw [at?_nil] at hp
        exact .inl (Option.some.inj hp).symm
      | cons i rest =>
        obtain ⟨shape, c, hi, hc⟩ := at?_cons_eq_some.mp hp
        have hs := List.mem_of_getElem? hi
        exact .inr ⟨c, List.mem_filterMap.mpr ⟨_, hs, rfl⟩, (ih _ hs c rfl).mpr ⟨rest, hc⟩⟩

/-- **Trees of the same shape are the same if they have the same head at every position.** The shape
is what is left once heads are mapped to whatever does not tell them apart. -/
theorem ext_at? {f : Head → Head} {t t' : Block} (hshape : t.mapHeads f = t'.mapHeads f)
    (hheads : ∀ p, (t.at? p).map head = (t'.at? p).map head) : t = t' := by
  induction t using Block.induction generalizing t' with
  | mk head slots ih =>
    obtain ⟨head', slots'⟩ := t'
    rw [mapHeads_mk, mapHeads_mk] at hshape
    have hslots := (Block.mk.inj hshape).2
    obtain rfl : head = head' := by simpa using hheads []
    congr 1
    apply List.ext_getElem?
    intro i
    have hi := congrArg (·[i]?) hslots
    simp only [List.getElem?_map] at hi
    have hbelow (p : Position) := hheads (i :: p)
    simp only [at?] at hbelow
    cases h : slots[i]? with
    | none =>
      rw [h, Option.map_none] at hi
      exact (Option.map_eq_none_iff.mp hi.symm).symm
    | some s =>
      rw [h, Option.map_some] at hi
      obtain ⟨s', h', hs'⟩ := Option.map_eq_some_iff.mp hi.symm
      rw [h']
      obtain ⟨shape, occupant⟩ := s
      obtain ⟨shape', occupant'⟩ := s'
      obtain ⟨rfl, hoccupant⟩ :
          shape' = shape ∧ occupant'.map (mapHeads f) = occupant.map (mapHeads f) :=
        Slot.mk.inj hs'
      cases occupant with
      | none => rw [Option.map_eq_none_iff.mp hoccupant]
      | some c =>
        obtain ⟨c', rfl, hc⟩ := Option.map_eq_some_iff.mp hoccupant
        rw [h, h'] at hbelow
        rw [ih _ (List.mem_of_getElem? h) c rfl hc.symm hbelow]

/-! ## Distinct ids -/

/-- No two blocks of the tree have the same id. -/
def DistinctIds (b : Block) : Prop :=
  (b.listing.map fun c => c.head.id).Nodup

instance (b : Block) : Decidable b.DistinctIds :=
  inferInstanceAs (Decidable (List.Nodup _))

namespace DistinctIds

variable {tree c c' d d' : Block} {shape shape' : SlotShape} {i j : Nat}

/-- What distinct ids come to for the root, for the tree in a slot, and for two slots. -/
theorem slots_spec (h : tree.DistinctIds) :
    (∀ c ∈ Slot.occupants tree.slots, c.DistinctIds ∧ ∀ d ∈ c.listing, d.head.id ≠ tree.head.id) ∧
      (Slot.occupants tree.slots).Pairwise fun c c' =>
        ∀ d ∈ c.listing, ∀ d' ∈ c'.listing, d.head.id ≠ d'.head.id := by
  obtain ⟨head, slots⟩ := tree
  unfold DistinctIds at h
  rw [listing_mk, List.map_cons, List.nodup_cons, List.map_flatMap, List.nodup_flatMap] at h
  obtain ⟨hroot, hin, hbetween⟩ := h
  refine ⟨fun c hc => ⟨hin c hc, fun d hd heq => hroot ?_⟩, hbetween.imp fun hdisjoint => ?_⟩
  · exact List.mem_flatMap.mpr ⟨c, hc, List.mem_map.mpr ⟨d, hd, heq⟩⟩
  · intro d hd d' hd' heq
    exact hdisjoint (List.mem_map_of_mem hd) (List.mem_map.mpr ⟨d', hd', heq.symm⟩)

/-- The tree in a slot has distinct ids too. -/
theorem of_slot (h : tree.DistinctIds) (hi : tree.slots[i]? = some ⟨shape, some c⟩) :
    c.DistinctIds :=
  (h.slots_spec.1 c (mem_occupants hi)).1

/-- No block in a slot has the id of the root. -/
theorem ne_root (h : tree.DistinctIds) (hi : tree.slots[i]? = some ⟨shape, some c⟩)
    (hd : d ∈ c.listing) : d.head.id ≠ tree.head.id :=
  (h.slots_spec.1 c (mem_occupants hi)).2 d hd

/-- Blocks in different slots have different ids. -/
theorem slot_eq (h : tree.DistinctIds) (hi : tree.slots[i]? = some ⟨shape, some c⟩)
    (hj : tree.slots[j]? = some ⟨shape', some c'⟩) (hd : d ∈ c.listing) (hd' : d' ∈ c'.listing)
    (hid : d.head.id = d'.head.id) : i = j := by
  have hpairs := List.pairwise_filterMap.mp h.slots_spec.2
  obtain ⟨hlti, hgeti⟩ := List.getElem?_eq_some_iff.mp hi
  obtain ⟨hltj, hgetj⟩ := List.getElem?_eq_some_iff.mp hj
  rcases Nat.lt_trichotomy i j with hlt | heq | hgt
  · have hne := List.pairwise_iff_getElem.mp hpairs i j hlti hltj hlt
    rw [hgeti, hgetj] at hne
    exact absurd hid (hne c rfl c' rfl d hd d' hd')
  · exact heq
  · have hne := List.pairwise_iff_getElem.mp hpairs j i hltj hlti hgt
    rw [hgeti, hgetj] at hne
    exact absurd hid.symm (hne c' rfl c rfl d' hd' d hd)

/-- **An id leads to one position only.** -/
theorem position_eq (h : tree.DistinctIds) {p q : Position} (hp : tree.at? p = some d)
    (hq : tree.at? q = some d') (hid : d.head.id = d'.head.id) : p = q := by
  induction p generalizing tree q with
  | nil =>
    cases q with
    | nil => rfl
    | cons j q =>
      obtain ⟨shape, c, hj, hc⟩ := at?_cons_eq_some.mp hq
      obtain rfl := Option.some.inj ((at?_nil tree).symm.trans hp)
      exact absurd hid.symm (h.ne_root hj (mem_listing_iff.mpr ⟨q, hc⟩))
  | cons i p ih =>
    obtain ⟨shape, c, hi, hc⟩ := at?_cons_eq_some.mp hp
    have hmem := mem_listing_iff.mpr ⟨p, hc⟩
    cases q with
    | nil =>
      obtain rfl := Option.some.inj ((at?_nil tree).symm.trans hq)
      exact absurd hid (h.ne_root hi hmem)
    | cons j q =>
      obtain ⟨shape', c', hj, hc'⟩ := at?_cons_eq_some.mp hq
      obtain rfl := h.slot_eq hi hj hmem (mem_listing_iff.mpr ⟨q, hc'⟩) hid
      rw [hi] at hj
      obtain ⟨-, rfl⟩ : shape = shape' ∧ c = c' := by simpa using hj
      rw [ih (h.of_slot hi) hc hc']

end DistinctIds

end Block

end BlockCalculus
