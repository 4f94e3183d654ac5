import MapaZimSlupsk.Lts.Basic

/-!
# Simulations

A system refines a more abstract one if the abstract system can follow each of its steps, by a step
or by standing still.  What holds of every state the abstract system reaches then holds of the
states that the refining one reaches.

* `Lts.Simulates A B R` : every step of `A` is followed by a run of `B` that keeps `R`.
* `Lts.simulates_of_map` : the relation is given by an abstraction of the states, and one step of
  `B` suffices.
* `Lts.Simulates.reachable`, `Lts.Simulates.transfer` : whole runs, and the invariants of `B`.
* `Lts.Run.follow`, `Lts.Run.follow_observed` : runs under the same labels, or under those of them
  that are observed.
* `Lts.Reachable.forall_parts` : a system made of parts that run on their own.
* `Lts.guarded`, `Lts.guard_run_of_foldlM` : guarded runs by evaluation.
-/

namespace MapaZimSlupsk

namespace Lts

variable {S T L M : Type*} {A : Lts S L} {B : Lts T M} {R : S → T → Prop}

theorem Reachable.trans {s t u : S} (h : A.Reachable s t) (h' : A.Reachable t u) :
    A.Reachable s u := by
  obtain ⟨ls, hr⟩ := h
  obtain ⟨ls', hr'⟩ := h'
  exact ⟨ls ++ ls', hr.append hr'⟩

theorem Reachable.of_guard {C : S → L → Prop} {s t : S} (h : (A.guard C).Reachable s t) :
    A.Reachable s t := by
  obtain ⟨ls, hr⟩ := h
  exact hr.of_guard.reachable

/-- A guard that lets more steps through. -/
theorem Reachable.guard_mono {C C' : S → L → Prop} {s t : S} (h : (A.guard C).Reachable s t)
    (hC : ∀ s l, C s l → C' s l) : (A.guard C').Reachable s t :=
  h.invariant (I := (A.guard C').Reachable s) (.refl s) fun _ _ _ hr hst =>
    hr.tail ⟨hC _ _ hst.1, hst.2⟩

/-- Every step of `A` from a state related to one of `B` is followed by a run of `B`, perhaps an
empty one, to a state related to the new one. -/
def Simulates (A : Lts S L) (B : Lts T M) (R : S → T → Prop) : Prop :=
  ∀ s t l s', R s t → A.step s l s' → ∃ t', B.Reachable t t' ∧ R s' t'

/-- An abstraction of the states satisfying an invariant, under which each step is one of `B` or
invisible. -/
theorem simulates_of_map {J : S → Prop} (abs : S → T)
    (hJ : ∀ s l s', J s → A.step s l s' → J s')
    (hstep : ∀ s l s', J s → A.step s l s' → abs s' = abs s ∨ ∃ m, B.step (abs s) m (abs s')) :
    Simulates A B fun s t => J s ∧ abs s = t := by
  rintro s _ l s' ⟨hs, rfl⟩ hst
  rcases hstep s l s' hs hst with he | ⟨m, hm⟩
  · exact ⟨abs s, .refl _, hJ s l s' hs hst, he⟩
  · exact ⟨abs s', (Run.single hm).reachable, hJ s l s' hs hst, rfl⟩

/-- Whole runs are followed. -/
theorem Simulates.reachable (h : Simulates A B R) {s s' : S} {t : T} (hR : R s t)
    (hr : A.Reachable s s') : ∃ t', B.Reachable t t' ∧ R s' t' := by
  refine hr.invariant (I := fun s' => ∃ t', B.Reachable t t' ∧ R s' t') ⟨t, .refl t, hR⟩ ?_
  rintro s₁ l s₂ ⟨t₁, ht₁, hR₁⟩ hst
  obtain ⟨t₂, ht₂, hR₂⟩ := h s₁ t₁ l s₂ hR₁ hst
  exact ⟨t₂, ht₁.trans ht₂, hR₂⟩

/-- What holds of all states that `B` reaches holds of a state related to the one that `A`
reaches. -/
theorem Simulates.transfer (h : Simulates A B R) {s s' : S} {t : T} (hR : R s t)
    (hr : A.Reachable s s') {P : T → Prop} (hP : ∀ t', B.Reachable t t' → P t') :
    ∃ t', R s' t' ∧ P t' := by
  obtain ⟨t', ht', hR'⟩ := h.reachable hR hr
  exact ⟨t', hR', hP t' ht'⟩

/-- A run is followed label by label if each step is followed under its label. -/
theorem Run.follow {B : Lts T L} {s s' : S} {t : T} {ls : List L} (h : A.Run s ls s')
    (hR : R s t)
    (hstep : ∀ s t l s', R s t → A.step s l s' → ∃ t', B.step t l t' ∧ R s' t') :
    ∃ t', B.Run t ls t' ∧ R s' t' := by
  induction h with
  | nil => exact ⟨t, .nil, hR⟩
  | snoc _ hst ih =>
    obtain ⟨t₁, hr, hR₁⟩ := ih
    obtain ⟨t₂, hst₂, hR₂⟩ := hstep _ _ _ _ hR₁ hst
    exact ⟨t₂, .snoc hr hst₂, hR₂⟩

/-- The labels `ls` lead from `s` to the second last argument, and the last one holds those of them
that meet `V` where they are taken. -/
inductive Observed (A : Lts S L) (V : S → L → Prop) (s : S) : List L → S → List L → Prop
  | nil : Observed A V s [] s []
  | seen {ls vs : List L} {l : L} {t t' : S} : Observed A V s ls t vs → A.step t l t' → V t l →
      Observed A V s (ls ++ [l]) t' (vs ++ [l])
  | unseen {ls vs : List L} {l : L} {t t' : S} : Observed A V s ls t vs → A.step t l t' →
      ¬ V t l → Observed A V s (ls ++ [l]) t' vs

/-- Steps that keep `R` when only `A` takes them can be left out: the others make a run of `B`. -/
theorem Run.follow_observed {B : Lts T L} {V : S → L → Prop} {s s' : S} {t : T} {ls : List L}
    (h : A.Run s ls s') (hR : R s t)
    (hunseen : ∀ s t l s', R s t → A.step s l s' → ¬ V s l → R s' t)
    (hseen : ∀ s t l s', R s t → A.step s l s' → V s l → ∃ t', B.step t l t' ∧ R s' t') :
    ∃ vs t', A.Observed V s ls s' vs ∧ B.Run t vs t' ∧ R s' t' := by
  induction h with
  | nil => exact ⟨[], t, .nil, .nil, hR⟩
  | @snoc ls l s₁ s₂ _ hst ih =>
    obtain ⟨vs, t₁, hobs, hr, hR₁⟩ := ih
    by_cases hV : V s₁ l
    · obtain ⟨t₂, hst₂, hR₂⟩ := hseen s₁ t₁ l s₂ hR₁ hst hV
      exact ⟨vs ++ [l], t₂, .seen hobs hst hV, .snoc hr hst₂, hR₂⟩
    · exact ⟨vs, t₁, .unseen hobs hst hV, hr, hunseen s₁ t₁ l s₂ hR₁ hst hV⟩

/-! ### Systems with parts -/

/-- If every part of the new state is a new one, an old one or a step of `B` away from an old one,
then `B` reaches all parts of the states that `A` reaches. -/
theorem Reachable.forall_parts {J : S → Prop} {P : S → T → Prop} {s₀ s : S} {t₀ : T}
    (h : A.Reachable s₀ s) (hJ₀ : J s₀) (h₀ : ∀ t, P s₀ t → t = t₀)
    (hJ : ∀ s l s', J s → A.step s l s' → J s')
    (hstep : ∀ s l s', J s → A.step s l s' → ∀ t', P s' t' →
      t' = t₀ ∨ ∃ t, P s t ∧ (t' = t ∨ ∃ m, B.step t m t')) :
    ∀ t, P s t → B.Reachable t₀ t := by
  refine (h.invariant (I := fun s => J s ∧ ∀ t, P s t → B.Reachable t₀ t)
    ⟨hJ₀, fun t ht => ?_⟩ ?_).2
  · rw [h₀ t ht]
    exact .refl t₀
  rintro s l s' ⟨hs, hall⟩ hst
  refine ⟨hJ s l s' hs hst, fun t' ht' => ?_⟩
  obtain rfl | ⟨t, ht, rfl | ⟨m, hm⟩⟩ := hstep s l s' hs hst t' ht'
  · exact .refl _
  · exact hall _ ht
  · exact (hall t ht).tail hm

/-! ### Guarded runs by evaluation -/

/-- The step function, defined on the steps that meet `C`. -/
def guarded (C : S → L → Prop) [∀ s, DecidablePred (C s)] (f : S → L → Option S) (s : S) (l : L) :
    Option S :=
  if C s l then f s l else none

/-- A sequence of labels that the guarded step function accepts is a guarded run. -/
theorem guard_run_of_foldlM {C : S → L → Prop} [∀ s, DecidablePred (C s)] {f : S → L → Option S}
    {s t : S} {ls : List L} (h : ls.foldlM (guarded C f) s = some t) :
    ((ofFun f).guard C).Run s ls t := by
  induction ls generalizing s with
  | nil =>
    cases h
    exact .nil
  | cons l ls ih =>
    obtain ⟨u, hu, hr⟩ := Option.bind_eq_some_iff.1 h
    obtain ⟨hC, hu⟩ := Option.ite_none_right_eq_some.1 hu
    have hst : ((ofFun f).guard C).step s l u := ⟨hC, hu⟩
    exact (Run.single hst).append (ih hr)

/-- A guarded run whose end is looked at by evaluation. -/
theorem exists_guard_run_of_any (C : S → L → Prop) [∀ s, DecidablePred (C s)]
    (f : S → L → Option S) (s : S) (ls : List L) (p : S → Bool)
    (h : (ls.foldlM (guarded C f) s).any p = true) :
    ∃ t, ((ofFun f).guard C).Run s ls t ∧ p t = true := by
  obtain ⟨t, ht, hp⟩ := (Option.any_eq_true _ _).1 h
  exact ⟨t, guard_run_of_foldlM ht, hp⟩

end Lts

end MapaZimSlupsk
