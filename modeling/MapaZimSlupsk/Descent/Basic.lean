import Mathlib.Data.Set.Card
import Mathlib.Order.Basic

/-!
# Sequences that only change downwards

A value that is observed at successive times, and whose rank in some order decreases strictly
whenever it changes, never comes back to an earlier value.  If the ranks are finitely many, it
changes only so often.

* `Descent.Falls rank x` : the rank decreases whenever `x` changes.
* `Falls.eq_of_eq` : **a value that is seen twice has been there in between.**
* `Falls.encard_changes_le` : **there are no more changes than ranks.**
-/

namespace MapaZimSlupsk

namespace Descent

variable {α β : Type*} [PartialOrder α] {rank : β → α} {x : ℕ → β} {S : Finset α} {k m n : ℕ}

/-- Whenever the value changes its rank decreases. -/
def Falls (rank : β → α) (x : ℕ → β) : Prop := ∀ n, x (n + 1) = x n ∨ rank (x (n + 1)) < rank (x n)

/-- The times after which the value changes. -/
def changes (x : ℕ → β) : Set ℕ := {n | x (n + 1) ≠ x n}

namespace Falls

theorem eq_or_lt (h : Falls rank x) (hmn : m ≤ n) : x n = x m ∨ rank (x n) < rank (x m) := by
  induction n, hmn using Nat.le_induction with
  | base => exact .inl rfl
  | succ n _ ih =>
    obtain hn | hn := h n
    · rwa [hn]
    · obtain he | hlt := ih
      · exact .inr (he ▸ hn)
      · exact .inr (hn.trans hlt)

theorem rank_le (h : Falls rank x) (hmn : m ≤ n) : rank (x n) ≤ rank (x m) := by
  obtain he | hlt := h.eq_or_lt hmn
  · rw [he]
  · exact hlt.le

/-- **A value seen at two times is the value at all times in between.** -/
theorem eq_of_eq (h : Falls rank x) (he : x n = x m) (hmk : m ≤ k) (hkn : k ≤ n) : x k = x m := by
  refine (h.eq_or_lt hmk).resolve_right fun hlt => ?_
  have hle := h.rank_le hkn
  rw [he] at hle
  exact absurd hlt (not_lt_of_ge hle)

/-- The ranks after the changes are different ones. -/
theorem injOn_changes (h : Falls rank x) : (changes x).InjOn fun n => rank (x (n + 1)) := by
  have hlt : ∀ {m n}, n ∈ changes x → m < n → rank (x (n + 1)) < rank (x (m + 1)) :=
    fun hn hmn => ((h _).resolve_left hn).trans_le (h.rank_le hmn)
  intro m hm n hn he
  obtain hmn | rfl | hnm := lt_trichotomy m n
  · exact absurd he (hlt hn hmn).ne'
  · rfl
  · exact absurd he (hlt hm hnm).ne

/-- **A value of finitely many ranks changes no more often than there are ranks.** -/
theorem encard_changes_le (h : Falls rank x) (hS : ∀ n, rank (x n) ∈ S) :
    (changes x).encard ≤ S.card := by
  rw [← Set.encard_coe_eq_coe_finsetCard S]
  exact Set.encard_le_encard_of_injOn (fun n _ => hS (n + 1)) h.injOn_changes

end Falls

end Descent

end MapaZimSlupsk
