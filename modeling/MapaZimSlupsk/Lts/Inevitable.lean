import MapaZimSlupsk.Lts.Basic
import Mathlib.Order.WellFounded

/-!
# What a system cannot avoid

A property is inevitable from a state if every way of going on leads to a state that has it: no run
stops before, and no run goes on forever without.

* `Lts.Inevitable A P` : the states from which `P` is inevitable.
* `Lts.inevitable_of_measure` : **where every step decreases a measure, what holds of the states
  without a step is inevitable.**
-/

namespace MapaZimSlupsk

namespace Lts

variable {S L α : Type*} {A : Lts S L} {P : S → Prop} {s : S}

/-- `P` holds, or some step is possible and `P` is inevitable after each. -/
inductive Inevitable (A : Lts S L) (P : S → Prop) : S → Prop
  | now {s : S} : P s → Inevitable A P s
  | later {s : S} : (∃ l t, A.step s l t) → (∀ l t, A.step s l t → Inevitable A P t) →
      Inevitable A P s

/-- **Where every step decreases a measure, what holds of the states without a step is
inevitable.** -/
theorem inevitable_of_measure [Preorder α] [WellFoundedLT α] {J : S → Prop} (measure : S → α)
    (hJ : ∀ s l t, J s → A.step s l t → J t)
    (hlt : ∀ s l t, J s → A.step s l t → measure t < measure s)
    (hend : ∀ s, J s → (∀ l t, ¬ A.step s l t) → P s) (hs : J s) : A.Inevitable P s := by
  generalize hμ : measure s = μ
  induction μ using WellFoundedLT.induction generalizing s with
  | ind μ ih =>
    by_cases hstep : ∃ l t, A.step s l t
    · exact .later hstep fun l t hst => ih _ (hμ ▸ hlt s l t hs hst) (hJ s l t hs hst) rfl
    · exact .now (hend s hs fun l t hst => hstep ⟨l, t, hst⟩)

end Lts

end MapaZimSlupsk
