import MapaZimSlupsk.Lts.Basic
import Mathlib.Data.Set.Insert

/-!
# A search that shows its answers one by one

What a page with a search is for, whatever its queries and answers are: posing a query clears the
answers shown, and then answers to it are shown, one at a time and in any order.

* `Search`, `Search.lts answers` : the query posed last and the answers found.
* `Search.found_subset` : nothing is shown that does not answer the query posed last.
* `Search.found_eq` : a search that has found all answers shows exactly these.
-/

namespace MapaZimSlupsk

/-- The query posed last, none if there is none, and the answers shown. -/
@[ext]
structure Search (Q α : Type*) where
  query : Option Q
  found : Set α

namespace Search

variable {Q α : Type*}

/-- What may happen to a search. -/
inductive Label (Q α : Type*) where
  /-- The query is posed or taken back, and the answers are cleared. -/
  | pose (query : Option Q)
  /-- An answer is found. -/
  | find (a : α)

/-- The searches with the given answers to each query. -/
def lts (answers : Q → Set α) : Lts (Search Q α) (Label Q α) where
  step s l t := match l with
    | .pose query => t = ⟨query, ∅⟩
    | .find a => ∃ q, s.query = some q ∧ a ∈ answers q ∧ t = ⟨s.query, insert a s.found⟩

variable {answers : Q → Set α} {s t : Search Q α}

/-- All that is shown answers the query posed last. -/
def Sound (answers : Q → Set α) (s : Search Q α) : Prop :=
  ∀ a ∈ s.found, ∃ q, s.query = some q ∧ a ∈ answers q

theorem sound_step {l : Label Q α} (h : s.Sound answers) (hst : (lts answers).step s l t) :
    t.Sound answers := by
  cases l with
  | pose query =>
    obtain rfl : t = ⟨query, ∅⟩ := hst
    exact fun a ha => absurd ha (Set.notMem_empty a)
  | find a =>
    obtain ⟨q, hq, ha, rfl⟩ := hst
    intro b hb
    rcases Set.mem_insert_iff.1 hb with rfl | hb
    · exact ⟨q, hq, ha⟩
    · exact h b hb

theorem Sound.of_reachable (h : s.Sound answers) (hr : (lts answers).Reachable s t) :
    t.Sound answers :=
  hr.invariant h fun _ _ _ => sound_step

/-- **Nothing is shown that does not answer the query.** -/
theorem Sound.found_subset (h : s.Sound answers) {q : Q} (hq : s.query = some q) :
    s.found ⊆ answers q := by
  intro a ha
  obtain ⟨q', hq', ha'⟩ := h a ha
  obtain rfl : q = q' := Option.some.inj (hq.symm.trans hq')
  exact ha'

/-- A search that misses no answer shows all answers and nothing else. -/
theorem Sound.found_eq (h : s.Sound answers) {q : Q} (hq : s.query = some q)
    (hall : answers q ⊆ s.found) : s.found = answers q :=
  (h.found_subset hq).antisymm hall

end Search

end MapaZimSlupsk
