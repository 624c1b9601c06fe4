import BlockCalculus.Document.State
import BlockCalculus.Proofs.Desk

/-!
# Opening documents

What loading a document comes to (`outcome_load`, `outcome_ofSound`), and what is known of a state
that was loaded: its document was sound (`exists_of_load`), its library was registered block by
block, and its root was loaded, given its numbers of inputs, and checked (`Opened`).
-/

namespace BlockCalculus

namespace EditorState

/-- **What loading a document comes to**: the state of a sound one, or findings and no state. -/
theorem outcome_load (files : Files) (c : Catalog) (source : Source) (desk : Desk) :
    (load files c source).outcome desk =
      match readSource files source with
      | .error f => (.error f, desk)
      | .ok (.error findings) => (.ok (.error findings), desk)
      | .ok (.ok doc) =>
        match Document.check doc with
        | .error f => (.error f, desk)
        | .ok [] => (((ofSound c doc).outcome desk).1.map .ok, ((ofSound c doc).outcome desk).2)
        | .ok findings => (.ok (.error findings), desk) := by
  unfold load
  rw [Build.outcome_bind, Build.outcome_ofExcept]
  cases readSource files source with
  | error f => rfl
  | ok read =>
    cases read with
    | error findings => rfl
    | ok doc =>
      dsimp only
      unfold ofJson
      rw [Build.outcome_bind, Build.outcome_ofExcept, Document.validate]
      cases Document.check doc with
      | error f => rfl
      | ok findings =>
        cases findings with
        | cons finding rest => rfl
        | nil =>
          rw [← Build.outcome_map, map_eq_pure_bind]
          rfl

/-- **What setting up the state of a sound document comes to**: the library first, then the root. -/
theorem outcome_ofSound (c : Catalog) (doc : Json) (desk : Desk) :
    (ofSound c doc).outcome desk =
      match (Library.registerAll (((doc.get? "customBlocks").bind Json.obj?).getD [])
          { catalog := c }).outcome desk with
      | (.error f, between) => (.error f, between)
      | (.ok library, between) =>
        let state : EditorState :=
          { inputs := integers (doc.getD "inputs")
            inputCount := max 0 (((doc.getD "inputCount").int?).getD 0)
            library }
        match doc.present? "rootBlock" with
        | none => (.ok state, between)
        | some data =>
          match (Block.load c loadLimit 0 data).outcome between with
          | (.error f, desk') => (.error f, desk')
          | (.ok b, desk') =>
            (((b.propagate state.inputCount).checked c).map fun root =>
              { state with root := some root }, desk') := by
  unfold ofSound
  rw [Build.outcome_bind]
  generalize Build.outcome (Library.registerAll _ _) desk = result
  obtain ⟨_ | library, between⟩ := result
  · rfl
  · dsimp only
    cases doc.present? "rootBlock" with
    | none => rfl
    | some data =>
      dsimp only
      rw [Build.outcome_bind]
      generalize Build.outcome (Block.load _ _ _ _) between = result
      obtain ⟨_ | b, desk'⟩ := result
      · rfl
      · dsimp only
        rw [Build.outcome_bind, Build.outcome_map, Build.outcome_ofExcept]
        generalize Block.checked c _ = result
        cases result <;> rfl

variable {c : Catalog} {desk desk' : Desk} {s : EditorState}

/-- A state was loaded from a sound document. -/
theorem exists_of_load {files : Files} {source : Source}
    (h : (load files c source).outcome desk = (.ok (.ok s), desk')) :
    ∃ doc, (ofSound c doc).outcome desk = (.ok s, desk') := by
  rw [outcome_load] at h
  split at h
  · simp at h
  · simp at h
  · rename_i doc _
    split at h
    · simp at h
    · refine ⟨doc, ?_⟩
      generalize (ofSound c doc).outcome desk = result at h
      obtain ⟨_ | s', _⟩ := result <;> simp_all [Except.map]
    · simp at h

/-- What is known of a state that was loaded. -/
structure Opened (c : Catalog) (s : EditorState) : Prop where
  inputCount_nonneg : 0 ≤ s.inputCount
  library : ∃ saved before after,
    (Library.registerAll saved { catalog := c }).outcome before = (.ok s.library, after)
  root : ∀ root ∈ s.root, ∃ data b before after,
    (Block.load c loadLimit 0 data).outcome before = (.ok b, after) ∧
      (b.propagate s.inputCount).checked c = .ok root

theorem opened_of_ofSound {doc : Json} (h : (ofSound c doc).outcome desk = (.ok s, desk')) :
    s.Opened c := by
  rw [outcome_ofSound] at h
  split at h
  · simp at h
  · rename_i library between hlibrary
    dsimp only at h
    split at h
    · obtain ⟨rfl, -⟩ : _ = s ∧ _ := by simpa using h
      exact ⟨Int.le_max_left _ _, ⟨_, _, _, hlibrary⟩, by simp⟩
    · split at h
      · simp at h
      · rename_i b _ hload
        generalize hchecked : Block.checked c _ = result at h
        cases result with
        | error f => simp [Except.map] at h
        | ok root =>
          obtain ⟨rfl, -⟩ : _ = s ∧ _ := by simpa [Except.map] using h
          refine ⟨Int.le_max_left _ _, ⟨_, _, _, hlibrary⟩, ?_⟩
          rintro _ ⟨⟩
          exact ⟨_, b, _, _, hload, hchecked⟩

end EditorState

end BlockCalculus
