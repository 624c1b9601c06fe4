import BlockCalculus.Proofs.Comparison

/-!
# Walks that match

Two walks match if they go on side by side: where one takes a step the other takes one that looks
the same, where one waits or consults the catalogue so does the other, where they look they go on
side by side whatever the looks show, and in the end they have the same value or failures that look
the same. What is to look the same is a parameter (`Regard`), and so are the failures that excuse
the first walk from going on with the second. The first walk may look where the second does not, if
it makes no difference what it sees.

* `Comparison.matching`: matching respects how walks are put together, so evaluations can be shown
  to match one rule at a time.
* `Walk.Matches.ending_steps`, `Walk.Matches.follow`, `Walk.Matches.followStepped`: walks that match
  come out alike, however they are followed and wherever they are called off.
-/

namespace BlockCalculus

/-- How two walks are compared: which failures excuse the first one, what is seen of a failure, and
what is seen of a step of the first walk and of the second. -/
structure Regard (ε σ : Type) where
  Excuses : Failure → Prop
  failure : Failure → ε
  first : Step → σ
  second : Step → σ

/-- An evaluation failed in a way that excuses it. -/
def Regard.Excused {ε σ : Type} (R : Regard ε σ) (outcome : Except Fault Int) : Prop :=
  ∃ e : Failure, outcome = .error e.fault ∧ R.Excuses e

namespace Walk

/-- **Two walks go on side by side.** Looks at corresponding sites may show any two blocks with
which the sites correspond. A walk that fails on an excuse matches every other one. -/
inductive Matches (c : Catalog) (S : Site → Site → Prop) {ε σ : Type} (R : Regard ε σ) {α : Type} :
    Walk α → Walk α → Prop where
  | excused {e : Failure} {w' : Walk α} (h : R.Excuses e) : Matches c S R (.fail e) w'
  | done (a : α) : Matches c S R (.done a) (.done a)
  | fail {e e' : Failure} (h : R.failure e = R.failure e') : Matches c S R (.fail e) (.fail e')
  | step {s s' : Step} {rest rest' : Unit → Walk α} (h : R.first s = R.second s')
      (hrest : Matches c S R (rest ()) (rest' ())) :
      Matches c S R (.step s rest) (.step s' rest')
  | wait {rest rest' : Unit → Walk α} (hrest : Matches c S R (rest ()) (rest' ())) :
      Matches c S R (.wait rest) (.wait rest')
  | look {site site' : Site} {next next' : Block → Walk α} (hs : S site site')
      (hnext : ∀ b b', S ⟨site.position, b⟩ ⟨site'.position, b'⟩ →
        Matches c S R (next b) (next' b')) :
      Matches c S R (.look site next) (.look site' next')
  | glance {site : Site} {next : Block → Walk α} {w' : Walk α}
      (hnext : ∀ b, Matches c S R (next b) w') : Matches c S R (.look site next) w'
  | consult {kind : Kind} {next next' : Option Entry → Walk α}
      (hnext : Matches c S R (next (c.lookup? kind)) (next' (c.lookup? kind))) :
      Matches c S R (.consult kind next) (.consult kind next')

variable {c : Catalog} {S : Site → Site → Prop} {ε σ : Type} {R : Regard ε σ} {α β : Type}

theorem Matches.bind {w w' : Walk α} {next next' : α → Walk β} (hw : w.Matches c S R w')
    (hnext : ∀ a, (next a).Matches c S R (next' a)) :
    (w.bind next).Matches c S R (w'.bind next') := by
  induction hw with
  | excused h => exact .excused h
  | done a => exact hnext a
  | fail h => exact .fail h
  | step h _ ih => exact .step h ih
  | wait _ ih => exact .wait ih
  | look hs _ ih => exact .look hs ih
  | glance _ ih => exact .glance ih
  | consult _ ih => exact .consult ih

/-- Walks that match end alike and take steps that look the same, unless the first is excused. -/
theorem Matches.ending_steps {w w' : Walk α} (h : w.Matches c S R w') :
    (∃ e, w.ending c = .error e ∧ R.Excuses e) ∨
      (w.ending c).mapError R.failure = (w'.ending c).mapError R.failure ∧
        (w.steps c).map R.first = (w'.steps c).map R.second := by
  induction h with
  | excused h => exact .inl ⟨_, rfl, h⟩
  | done a => exact .inr ⟨rfl, rfl⟩
  | fail h => exact .inr ⟨congrArg Except.error h, rfl⟩
  | step h _ ih =>
    refine ih.imp id fun ⟨hend, hsteps⟩ => ⟨hend, ?_⟩
    rw [steps, steps, List.map_cons, List.map_cons, h, hsteps]
  | wait _ ih => exact ih
  | look hs _ ih => exact ih _ _ hs
  | glance _ ih => exact ih _
  | consult _ ih => exact ih

section Follow

variable {w w' : Walk Int} {T : Block → Block → Prop} {on on' : Bool} {t t' : Block} {ζ : Type}
  {view : Fault → ζ}

/-- **Followed directly, walks that match come out alike**, unless the first is excused. What steps
that look the same preserve of two trees holds of the trees that are left, and what failures that
look the same show of their faults is the same. -/
theorem Matches.follow (h : w.Matches c S R w')
    (hT : ∀ {s s' t t'}, R.first s = R.second s' → T t t' → T (trace on s t) (trace on' s' t'))
    (hview : ∀ {e e' : Failure}, R.failure e = R.failure e' → view e.fault = view e'.fault)
    (ht : T t t') (count : Nat) :
    R.Excused (w.follow c on t count).outcome ∨
      T (w.follow c on t count).tree (w'.follow c on' t' count).tree ∧
        (w.follow c on t count).steps = (w'.follow c on' t' count).steps ∧
        (w.follow c on t count).outcome.mapError view =
          (w'.follow c on' t' count).outcome.mapError view := by
  induction h generalizing t t' count with
  | excused h => exact .inl ⟨_, rfl, h⟩
  | done n => exact .inr ⟨ht, rfl, rfl⟩
  | fail h => exact .inr ⟨ht, rfl, congrArg Except.error (hview h)⟩
  | step h _ ih => exact ih (hT h ht) (count + 1)
  | wait _ _ => exact .inr ⟨ht, rfl, rfl⟩
  | look hs _ ih => exact ih _ _ hs ht count
  | glance _ ih => exact ih _ ht count
  | consult _ ih => exact ih ht count

/-- **Followed step by step, walks that match come out alike**, wherever they are called off, unless
the first is excused. -/
theorem Matches.followStepped (h : w.Matches c S R w')
    (hT : ∀ {s s' t t'}, R.first s = R.second s' → T t t' → T (trace on s t) (trace on' s' t'))
    (hview : ∀ {e e' : Failure}, R.failure e = R.failure e' → view e.fault = view e'.fault)
    (halt : Option (Nat × String)) (ht : T t t') {taken taken' : List Step}
    (htaken : taken.map R.first = taken'.map R.second) :
    R.Excused (w.followStepped c on halt t taken).outcome ∨
      T (w.followStepped c on halt t taken).tree (w'.followStepped c on' halt t' taken').tree ∧
        (w.followStepped c on halt t taken).steps.map R.first =
          (w'.followStepped c on' halt t' taken').steps.map R.second ∧
        (w.followStepped c on halt t taken).outcome.mapError view =
          (w'.followStepped c on' halt t' taken').outcome.mapError view := by
  have hreverse {taken taken' : List Step} (h : taken.map R.first = taken'.map R.second) :
      taken.reverse.map R.first = taken'.reverse.map R.second := by
    rw [List.map_reverse, List.map_reverse, h]
  induction h generalizing t t' taken taken' with
  | excused h => exact .inl ⟨_, rfl, h⟩
  | done n => exact .inr ⟨ht, hreverse htaken, rfl⟩
  | fail h => exact .inr ⟨ht, hreverse htaken, congrArg Except.error (hview h)⟩
  | @step s s' _ _ h _ ih =>
    have htaken' : (s :: taken).map R.first = (s' :: taken').map R.second := by
      rw [List.map_cons, List.map_cons, h, htaken]
    cases halt with
    | none => exact ih (hT h ht) htaken'
    | some call =>
      -- Both have taken as many steps, so they are called off at the same one.
      have hlen : taken.length = taken'.length := by simpa using congrArg List.length htaken
      simp only [Walk.followStepped, ← hlen]
      split
      · exact .inr ⟨hT h ht, hreverse htaken', rfl⟩
      · exact ih (hT h ht) htaken'
  | wait _ ih => exact ih ht htaken
  | look hs _ ih => exact ih _ _ hs ht htaken
  | glance _ ih => exact ih _ ht htaken
  | consult _ ih => exact ih ht htaken

end Follow

end Walk

/-- Matching respects how walks are put together. -/
def Comparison.matching (c : Catalog) (S : Site → Site → Prop) {ε σ : Type} (R : Regard ε σ) :
    Comparison c S where
  Rel := Walk.Matches c S R
  done := .done
  bind := .bind
  wait := .wait
  look := .look
  consult := .consult

end BlockCalculus
