import BlockCalculus.Build

/-!
# Working at a desk

`Build.outcome` is what work comes to at a desk: a result or a fault, and the desk as it is left.
Work goes on after a piece that came to a result, at the desk that the piece left
(`outcome_bind_of_ok`), and if the whole came to a result, so did every piece (`exists_of_bind`,
`exists_of_mapM`). Work that comes to a result at every desk is put together from such work
(`Succeeds.bind`, `Succeeds.mapM`). Steady work comes to the same at every desk (`Steady.mapM`).
-/

namespace BlockCalculus

/-- If work without a desk came to a result, so did its first piece and the rest. -/
theorem exists_of_bind_eq_ok {α β : Type} {first : Except Fault α} {next : α → Except Fault β}
    {b : β} (h : first >>= next = .ok b) : ∃ a, first = .ok a ∧ next a = .ok b := by
  cases first with
  | error f => cases h
  | ok a => exact ⟨a, rfl, h⟩

namespace Build

variable {α β : Type} {desk desk' : Desk}

/-- What work comes to at a desk. -/
def outcome (work : Build α) (desk : Desk) : Except Fault α × Desk :=
  work.run.run desk

@[simp] theorem outcome_pure (a : α) (desk : Desk) :
    (pure a : Build α).outcome desk = (.ok a, desk) :=
  rfl

@[simp] theorem outcome_throw (f : Fault) (desk : Desk) :
    (throw f : Build α).outcome desk = (.error f, desk) :=
  rfl

@[simp] theorem outcome_ofExcept (r : Except Fault α) (desk : Desk) :
    (ofExcept r).outcome desk = (r, desk) := by
  cases r <;> rfl

@[simp] theorem outcome_issue (desk : Desk) :
    issue.outcome desk = (.ok (desk.issued + 1), { desk with issued := desk.issued + 1 }) :=
  rfl

theorem outcome_bind (work : Build α) (next : α → Build β) (desk : Desk) :
    (work >>= next).outcome desk =
      match work.outcome desk with
      | (.ok a, desk') => (next a).outcome desk'
      | (.error f, desk') => (.error f, desk') := by
  unfold outcome
  rw [ExceptT.run_bind, StateT.run_bind]
  generalize work.run.run desk = result
  obtain ⟨_ | _, _⟩ := result <;> rfl

@[simp] theorem outcome_map (f : α → β) (work : Build α) (desk : Desk) :
    (f <$> work).outcome desk = ((work.outcome desk).1.map f, (work.outcome desk).2) := by
  rw [map_eq_pure_bind, outcome_bind]
  generalize work.outcome desk = result
  obtain ⟨_ | _, _⟩ := result <;> rfl

/-- Work goes on after a piece that came to a result. -/
theorem outcome_bind_of_ok {work : Build α} {a : α} (h : work.outcome desk = (.ok a, desk'))
    (next : α → Build β) : (work >>= next).outcome desk = (next a).outcome desk' := by
  rw [outcome_bind, h]

/-- If work came to a result, so did its first piece and the rest. -/
theorem exists_of_bind {work : Build α} {next : α → Build β} {b : β}
    (h : (work >>= next).outcome desk = (.ok b, desk')) :
    ∃ a between, work.outcome desk = (.ok a, between) ∧
      (next a).outcome between = (.ok b, desk') := by
  rw [outcome_bind] at h
  generalize work.outcome desk = result at h
  obtain ⟨_ | a, between⟩ := result
  · simp at h
  · exact ⟨a, between, rfl, h⟩

/-- The work comes to a result at every desk. -/
def Succeeds (work : Build α) : Prop :=
  ∀ desk, ∃ a desk', work.outcome desk = (.ok a, desk')

theorem Succeeds.bind {work : Build α} {next : α → Build β} (hwork : work.Succeeds)
    (hnext : ∀ a, (next a).Succeeds) : (work >>= next).Succeeds := by
  intro desk
  obtain ⟨a, between, ha⟩ := hwork desk
  obtain ⟨b, desk', hb⟩ := hnext a between
  exact ⟨b, desk', by rw [outcome_bind_of_ok ha, hb]⟩

/-- Work on a list comes to a result if the work on each item does. -/
theorem Succeeds.mapM {work : α → Build β} {items : List α}
    (h : ∀ a ∈ items, (work a).Succeeds) : (items.mapM work).Succeeds := by
  induction items with
  | nil => exact fun desk => ⟨[], desk, rfl⟩
  | cons a rest ih =>
    rw [List.mapM_cons]
    refine (h a List.mem_cons_self).bind fun b => ?_
    refine (ih fun a ha => h a (List.mem_cons_of_mem _ ha)).bind fun bs => ?_
    exact fun desk => ⟨b :: bs, desk, rfl⟩

/-- What work on a list came to is what the work on its items came to. -/
theorem exists_of_mapM {work : α → Build β} {items : List α} {results : List β}
    (h : (items.mapM work).outcome desk = (.ok results, desk')) :
    ∀ b ∈ results, ∃ a ∈ items, ∃ before after, (work a).outcome before = (.ok b, after) := by
  induction items generalizing desk results with
  | nil =>
    rw [List.mapM_nil, outcome_pure] at h
    obtain ⟨rfl, -⟩ : [] = results ∧ desk = desk' := by simpa using h
    simp
  | cons a rest ih =>
    rw [List.mapM_cons] at h
    obtain ⟨b, between, hb, h⟩ := exists_of_bind h
    obtain ⟨others, between', hothers, h⟩ := exists_of_bind h
    rw [outcome_pure] at h
    obtain ⟨rfl, rfl⟩ : b :: others = results ∧ between' = desk' := by simpa using h
    intro c hc
    obtain rfl | hmem := List.mem_cons.mp hc
    · exact ⟨a, List.mem_cons_self, desk, between, hb⟩
    · obtain ⟨a', ha', hwork⟩ := ih hothers c hmem
      exact ⟨a', List.mem_cons_of_mem a ha', hwork⟩

/-- What the work comes to is the same at every desk, as far as `view` can tell. -/
def Steady (view : α → β) (work : Build α) : Prop :=
  ∀ ⦃desk₁ desk₁' desk₂ desk₂' : Desk⦄ ⦃a₁ a₂ : α⦄, work.outcome desk₁ = (.ok a₁, desk₁') →
    work.outcome desk₂ = (.ok a₂, desk₂') → view a₁ = view a₂

/-- Work on a list is steady if the work on each item is. -/
theorem Steady.mapM {γ : Type} {view : β → γ} {work : α → Build β} {items : List α}
    (h : ∀ a ∈ items, (work a).Steady view) : (items.mapM work).Steady (List.map view) := by
  intro desk₁ desk₁' desk₂ desk₂' bs₁ bs₂ h₁ h₂
  induction items generalizing desk₁ desk₁' desk₂ desk₂' bs₁ bs₂ with
  | nil =>
    rw [List.mapM_nil, outcome_pure] at h₁ h₂
    obtain ⟨rfl, -⟩ : [] = bs₁ ∧ desk₁ = desk₁' := by simpa using h₁
    obtain ⟨rfl, -⟩ : [] = bs₂ ∧ desk₂ = desk₂' := by simpa using h₂
    rfl
  | cons a rest ih =>
    rw [List.mapM_cons] at h₁ h₂
    obtain ⟨b₁, between₁, hb₁, h₁⟩ := exists_of_bind h₁
    obtain ⟨others₁, between₁', hothers₁, h₁⟩ := exists_of_bind h₁
    obtain ⟨b₂, between₂, hb₂, h₂⟩ := exists_of_bind h₂
    obtain ⟨others₂, between₂', hothers₂, h₂⟩ := exists_of_bind h₂
    rw [outcome_pure] at h₁ h₂
    obtain ⟨rfl, -⟩ : b₁ :: others₁ = bs₁ ∧ between₁' = desk₁' := by simpa using h₁
    obtain ⟨rfl, -⟩ : b₂ :: others₂ = bs₂ ∧ between₂' = desk₂' := by simpa using h₂
    rw [List.map_cons, List.map_cons, h a List.mem_cons_self hb₁ hb₂,
      ih (fun a ha => h a (List.mem_cons_of_mem _ ha)) hothers₁ hothers₂]

end Build

end BlockCalculus
