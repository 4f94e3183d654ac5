import Mathlib.Tactic.Common

/-!
# Transition systems, runs and guarded runs

A program that is driven by events arriving in no fixed order (taps, answers to requests, expiring
timers) is a labelled transition system whose labels are the events; what holds in any order of the
events is what holds of all its runs.

## Main definitions

* `Lts S L` : states `S`, labels `L` and a step relation.
* `Lts.Run s ls t` : the labels `ls`, taken in this order, lead from `s` to `t`.
* `Lts.Reachable s t` : some run leads from `s` to `t`.
* `Lts.guard C` : the same system, restricted to the steps whose source state and label meet `C`.
* `Lts.within P` : the same system, restricted to the steps that end in a state satisfying `P`.
* `Lts.ofFun f` : the system of a partial step function; its runs can be computed.

A run of `A.guard C` is a run of `A` whose steps all meet `C`; a run of `A.within P` is a run of
`A` all of whose later states satisfy `P`.  `Lts.within_run_iff_guard_run` compares the two: when
a single step from a good state stays good exactly if it meets `C`, a whole run stays good exactly
if all its steps meet `C`.  `Lts.guard_run_iff_guard_run` compares two conditions on the steps.
-/

namespace MapaZimSlupsk

/-- A labelled transition system. -/
structure Lts (S : Type*) (L : Type*) where
  /-- `step t l t'` : in state `t` the label `l` may be taken and leads to `t'`. -/
  step : S → L → S → Prop

namespace Lts

variable {S L : Type*} (A : Lts S L)

/-- The labels `ls`, taken in this order from `s`, lead to the last argument. -/
inductive Run (s : S) : List L → S → Prop
  | nil : Run s [] s
  | snoc {ls : List L} {l : L} {t t' : S} :
      Run s ls t → A.step t l t' → Run s (ls ++ [l]) t'

/-- Some run leads from `s` to `t`. -/
def Reachable (s t : S) : Prop := ∃ ls, A.Run s ls t

/-- The steps of `A` whose source state and label meet `C`. -/
def guard (C : S → L → Prop) : Lts S L where
  step t l t' := C t l ∧ A.step t l t'

/-- The steps of `A` that end in a state satisfying `P`. -/
def within (P : S → Prop) : Lts S L where
  step t l t' := A.step t l t' ∧ P t'

/-- The transition system of a partial step function. -/
def ofFun (f : S → L → Option S) : Lts S L where
  step t l t' := f t l = some t'

variable {A}

namespace Run

theorem single {s t : S} {l : L} (h : A.step s l t) : A.Run s [l] t := .snoc .nil h

theorem append {s t u : S} {ls ls' : List L} (h : A.Run s ls t) (h' : A.Run t ls' u) :
    A.Run s (ls ++ ls') u := by
  induction h' with
  | nil => simpa using h
  | snoc _ hst ih =>
    rw [← List.append_assoc]
    exact .snoc ih hst

theorem cons {s t u : S} {l : L} {ls : List L} (h : A.step s l t) (h' : A.Run t ls u) :
    A.Run s (l :: ls) u :=
  (single h).append h'

theorem reachable {s t : S} {ls : List L} (h : A.Run s ls t) : A.Reachable s t := ⟨ls, h⟩

theorem eq_of_nil {s t : S} (h : A.Run s [] t) : t = s := by
  generalize hls : [] = ls at h
  cases h with
  | nil => rfl
  | snoc => simp at hls

/-- The last step of a run. -/
theorem exists_of_snoc {s t : S} {ls : List L} {l : L} (h : A.Run s (ls ++ [l]) t) :
    ∃ u, A.Run s ls u ∧ A.step u l t := by
  generalize hls : ls ++ [l] = ls' at h
  cases h with
  | nil => simp at hls
  | snoc hr hst =>
    obtain ⟨rfl, h⟩ := List.append_inj' hls rfl
    exact ⟨_, hr, List.singleton_inj.1 h ▸ hst⟩

/-- A relation between the labels taken and the state reached holds along every run if it holds
at the start and every step preserves it. -/
theorem invariant_labels {I : List L → S → Prop} {s t : S} {ls : List L} (h : A.Run s ls t)
    (h₀ : I [] s)
    (hstep : ∀ ls l t t', I ls t → A.step t l t' → I (ls ++ [l]) t') : I ls t := by
  induction h with
  | nil => exact h₀
  | snoc _ hst ih => exact hstep _ _ _ _ ih hst

/-- An inductive invariant holds in every state of a run. -/
theorem invariant {I : S → Prop} {s t : S} {ls : List L} (h : A.Run s ls t) (h₀ : I s)
    (hstep : ∀ t l t', I t → A.step t l t' → I t') : I t :=
  h.invariant_labels (I := fun _ => I) h₀ fun _ _ _ _ => hstep _ _ _

end Run

namespace Reachable

theorem refl (s : S) : A.Reachable s s := ⟨[], .nil⟩

theorem tail {s t t' : S} {l : L} (h : A.Reachable s t) (hst : A.step t l t') :
    A.Reachable s t' := by
  obtain ⟨ls, hr⟩ := h
  exact ⟨ls ++ [l], .snoc hr hst⟩

theorem invariant {I : S → Prop} {s t : S} (h : A.Reachable s t) (h₀ : I s)
    (hstep : ∀ t l t', I t → A.step t l t' → I t') : I t := by
  obtain ⟨_, hr⟩ := h
  exact hr.invariant h₀ hstep

end Reachable

/-! ### Guarded runs -/

theorem Run.of_guard {C : S → L → Prop} {s t : S} {ls : List L} (h : (A.guard C).Run s ls t) :
    A.Run s ls t := by
  induction h with
  | nil => exact .nil
  | snoc _ hst ih => exact .snoc ih hst.2

theorem Run.of_within {P : S → Prop} {s t : S} {ls : List L} (h : (A.within P).Run s ls t) :
    A.Run s ls t := by
  induction h with
  | nil => exact .nil
  | snoc _ hst ih => exact .snoc ih hst.1

theorem Run.last_of_within {P : S → Prop} {s t : S} {ls : List L}
    (h : (A.within P).Run s ls t) (h₀ : P s) : P t :=
  h.invariant h₀ fun _ _ _ _ hst => hst.2

/-- Along a run that keeps an invariant `J` anyway, all states satisfy `P` exactly if all steps
meet `C`, provided this is so for each single step between states satisfying `J`. -/
theorem within_run_iff_guard_run {P J : S → Prop} {C : S → L → Prop} {s t : S} {ls : List L}
    (hJ : J s) (hP : P s) (hJstep : ∀ t l t', J t → A.step t l t' → J t')
    (hstep : ∀ t l t', J t → P t → A.step t l t' → (P t' ↔ C t l)) :
    (A.within P).Run s ls t ↔ (A.guard C).Run s ls t := by
  constructor
  · intro h
    induction h with
    | nil => exact .nil
    | snoc hr hst ih =>
      have hJt := hr.of_within.invariant hJ hJstep
      have hPt := hr.last_of_within hP
      exact .snoc ih ⟨(hstep _ _ _ hJt hPt hst.1).1 hst.2, hst.1⟩
  · intro h
    induction h with
    | nil => exact .nil
    | snoc hr hst ih =>
      have hJt := hr.of_guard.invariant hJ hJstep
      have hPt := ih.last_of_within hP
      exact .snoc ih ⟨hst.2, (hstep _ _ _ hJt hPt hst.2).2 hst.1⟩

/-- A guard that is met wherever another one is, along runs that keep an invariant. -/
theorem Run.guard_imp {J : S → Prop} {C C' : S → L → Prop} {s t : S} {ls : List L}
    (h : (A.guard C).Run s ls t) (hJ : J s) (hJstep : ∀ t l t', J t → A.step t l t' → J t')
    (hstep : ∀ t l t', J t → A.step t l t' → C t l → C' t l) : (A.guard C').Run s ls t := by
  induction h with
  | nil => exact .nil
  | snoc hr hst ih =>
    exact .snoc ih ⟨hstep _ _ _ (hr.of_guard.invariant hJ hJstep) hst.2 hst.1, hst.2⟩

/-- Two guards that agree along runs without guards restrict the runs in the same way. -/
theorem guard_run_iff_guard_run {J : S → Prop} {C C' : S → L → Prop} {s t : S} {ls : List L}
    (hJ : J s) (hJstep : ∀ t l t', J t → A.step t l t' → J t')
    (hstep : ∀ t l t', J t → A.step t l t' → (C t l ↔ C' t l)) :
    (A.guard C).Run s ls t ↔ (A.guard C').Run s ls t :=
  ⟨fun h => h.guard_imp hJ hJstep fun _ _ _ hJt hst => (hstep _ _ _ hJt hst).1,
    fun h => h.guard_imp hJ hJstep fun _ _ _ hJt hst => (hstep _ _ _ hJt hst).2⟩

/-! ### Computed runs -/

/-- A sequence of labels that the step function accepts is a run. -/
theorem ofFun_run {f : S → L → Option S} {s t : S} {ls : List L}
    (h : ls.foldlM f s = some t) : (ofFun f).Run s ls t := by
  induction ls generalizing s with
  | nil =>
    cases h
    exact .nil
  | cons l ls ih =>
    obtain ⟨u, hu, hr⟩ := Option.bind_eq_some_iff.1 h
    exact .cons hu (ih hr)

/-- A run whose end is looked at by evaluation. -/
theorem exists_run_of_any (f : S → L → Option S) (s : S) (ls : List L) (p : S → Bool)
    (h : (ls.foldlM f s).any p = true) : ∃ t, (ofFun f).Run s ls t ∧ p t = true := by
  obtain ⟨t, ht, hp⟩ := (Option.any_eq_true _ _).1 h
  exact ⟨t, ofFun_run ht, hp⟩

/-- A run whose labels all satisfy `E` is one of the system guarded by `E`. -/
theorem Run.guard_of_labels {E : L → Prop} {s t : S} {ls : List L} (h : A.Run s ls t)
    (hE : ∀ l ∈ ls, E l) : (A.guard fun _ => E).Run s ls t := by
  induction h with
  | nil => exact .nil
  | snoc _ hst ih =>
    exact .snoc (ih fun l hl => hE l (List.mem_append_left _ hl)) ⟨hE _ (by simp), hst⟩

/-! ### Counters without a bound -/

/-- If from every state satisfying `Q` a run over labels satisfying `E` leads to one again, with
a larger counter, then the counter exceeds every bound. -/
theorem exists_run_counter_gt {Q : S → Prop} {E : L → Prop} (c : S → ℕ)
    (hloop : ∀ t, Q t → ∃ ls t', A.Run t ls t' ∧ (∀ l ∈ ls, E l) ∧ Q t' ∧ c t < c t') (b : ℕ)
    {s : S} (hs : Q s) : ∃ ls t, A.Run s ls t ∧ (∀ l ∈ ls, E l) ∧ b < c t := by
  suffices h : ∃ ls t, A.Run s ls t ∧ (∀ l ∈ ls, E l) ∧ Q t ∧ b < c t by
    obtain ⟨ls, t, hr, hE, -, hb⟩ := h
    exact ⟨ls, t, hr, hE, hb⟩
  induction b with
  | zero =>
    obtain ⟨ls, t, hr, hE, hQ, hc⟩ := hloop s hs
    exact ⟨ls, t, hr, hE, hQ, Nat.zero_lt_of_lt hc⟩
  | succ b ih =>
    obtain ⟨ls, t, hr, hE, hQ, hb⟩ := ih
    obtain ⟨ls', t', hr', hE', hQ', hc⟩ := hloop t hQ
    refine ⟨ls ++ ls', t', hr.append hr', ?_, hQ', by omega⟩
    intro l hl
    rcases List.mem_append.1 hl with hl | hl
    · exact hE l hl
    · exact hE' l hl

end Lts

end MapaZimSlupsk
