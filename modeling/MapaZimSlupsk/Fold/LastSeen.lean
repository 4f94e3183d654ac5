import MapaZimSlupsk.Fold.LastWrite
import Mathlib.Data.List.Perm.Basic

/-!
# A loop that remembers the last element of a kind

A loop over a list with elements of two kinds remembers the last element of each kind and compares
the two at every step.  It notices a pair only if the one that comes first in the list is not
followed by another of its kind before the other comes.

* `Seen` : a pair, the first kind in front, that the loop notices.
* `seen_of_forall_rel` : an element of the second kind that is related to all of the first kind is
  noticed behind them.
* `exists_rel_of_forall_perm` : **if a pair is noticed in every order of the list, every element has
  a partner.**
-/

namespace MapaZimSlupsk

namespace Fold

variable {α : Type*} {P Q : α → Prop} {R : α → α → Prop} {l : List α} {c : α}

/-- An element `a` of the kind `P`, the last of its kind up to an element `b` of the kind `Q` that it
is related to. -/
def Seen (P Q : α → Prop) (R : α → α → Prop) (l : List α) : Prop :=
  ∃ u a m b w, l = u ++ a :: (m ++ b :: w) ∧ P a ∧ Q b ∧ (∀ d ∈ m, ¬ P d) ∧ R a b

/-- An element behind one of the other kind is noticed if it is related to all of that kind. -/
theorem seen_of_forall_rel {u w : List α} {b : α} (hb : Q b) (hu : ∃ a ∈ u, P a)
    (hR : ∀ a ∈ u, P a → R a b) : Seen P Q R (u ++ b :: w) := by
  rcases exists_last_or P u with ⟨u, a, m, rfl, ha, hm⟩ | hno
  · exact ⟨u, a, m, b, w, by simp, ha, hb, hm, hR a (by simp) ha⟩
  · obtain ⟨a, ha, hPa⟩ := hu
    exact absurd hPa (hno a ha)

/-- In the order "other elements, `c`, the kind `Q`" only `c` can take part in a pair. -/
theorem rel_of_seen_sorted (hPQ : ∀ a, P a → ¬ Q a) {u w : List α} (hc : P c)
    (hu : ∀ d ∈ u, ¬ Q d) (hw : ∀ d ∈ w, Q d)
    (h : Seen P Q R (u ++ c :: w) ∨ Seen Q P (fun a b => R b a) (u ++ c :: w)) :
    ∃ q ∈ w, R c q := by
  rcases h with ⟨u', a, m, b, v, hl, ha, hb, hm, hR⟩ | ⟨u', a, m, b, v, hl, ha, hb, -⟩
  · have hl' : u ++ c :: w = (u' ++ a :: m) ++ b :: v := by simpa using hl
    rcases append_cons_cases hl' with ⟨rfl, -⟩ | ⟨k, rfl, hk⟩ | ⟨k, -, rfl⟩
    · exact absurd hb (hPQ c hc)
    · -- `b` is of the kind `Q` behind `c`; the element in front of it is `c` itself
      rcases append_cons_cases hk with ⟨rfl, -⟩ | ⟨k', rfl, -⟩ | ⟨k', rfl, -⟩
      · exact ⟨b, by simp, hR⟩
      · exact absurd hc (hm c (by simp))
      · exact absurd (hw a (by simp)) (hPQ a ha)
    · exact absurd hb (hu b (by simp))
  · rcases append_cons_cases hl with ⟨rfl, -⟩ | ⟨k, rfl, -⟩ | ⟨k, -, rfl⟩
    · exact absurd ha (hPQ c hc)
    · exact absurd (hw b (by simp)) (hPQ b hb)
    · exact absurd ha (hu a (by simp))

/-- **A list in which a pair is noticed in every order has a partner for every element.** -/
theorem exists_rel_of_forall_perm [DecidablePred Q] (hPQ : ∀ a, P a → ¬ Q a)
    (h : ∀ l' : List α, l'.Perm l → Seen P Q R l' ∨ Seen Q P (fun a b => R b a) l')
    (hc : c ∈ l) (hPc : P c) : ∃ q ∈ l, Q q ∧ R c q := by
  obtain ⟨u, w, rfl⟩ := List.append_of_mem hc
  let rest := (u ++ w).filter fun d => !decide (Q d)
  let last := (u ++ w).filter fun d => decide (Q d)
  have hp : (rest ++ c :: last).Perm (u ++ c :: w) := by
    refine List.perm_middle.trans (List.Perm.trans (List.Perm.cons c ?_) List.perm_middle.symm)
    exact List.perm_append_comm.trans (List.filter_append_perm (fun d => decide (Q d)) (u ++ w))
  have hlast : ∀ d ∈ last, Q d := fun d hd => by simpa using (List.mem_filter.1 hd).2
  have hrest : ∀ d ∈ rest, ¬ Q d := fun d hd => by simpa using (List.mem_filter.1 hd).2
  obtain ⟨q, hq, hR⟩ := rel_of_seen_sorted hPQ hPc hrest hlast (h _ hp)
  refine ⟨q, hp.subset ?_, hlast q hq, hR⟩
  exact List.mem_append_right _ (List.mem_cons_of_mem _ hq)

end Fold

end MapaZimSlupsk
