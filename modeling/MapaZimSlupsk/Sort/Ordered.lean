import Mathlib.Algebra.Order.Ring.Int
import Mathlib.Data.List.Sort
import Mathlib.Tactic.Common

/-!
# Documents in the order of a key

A query that asks for an order gets the documents of a collection sorted by one of their fields;
documents with the same value there may come in any order.

* `OrderedBy key xs ys` : `ys` are the documents `xs` in the order of `key`.
* `OrderedBy.unique` : documents with different keys have one order only.
* `OrderedBy.lt_of_key_lt`, `OrderedBy.lt_iff_key_lt` : of two documents the one with the smaller
  key stands first.
* `OrderedBy.nodup_map_iff` : different values at different places.
* `OrderedBy.key_eq_iff` : the keys count the places exactly if the documents are `Numbered`.
-/

namespace MapaZimSlupsk

variable {α : Type*} {key : α → ℤ} {xs ys zs : List α}

/-- `ys` are the documents `xs` in the order of `key`. -/
structure OrderedBy (key : α → ℤ) (xs ys : List α) : Prop where
  perm : ys.Perm xs
  sorted : ys.Pairwise fun a b => key a ≤ key b

/-- The documents are numbered from one on, without gaps. -/
def Numbered (key : α → ℤ) (xs : List α) : Prop :=
  (xs.map key).Perm ((List.range xs.length).map fun i : ℕ => (i : ℤ) + 1)

instance [DecidableEq α] : Decidable (OrderedBy key xs ys) :=
  decidable_of_iff (ys.Perm xs ∧ ys.Pairwise fun a b => key a ≤ key b)
    ⟨fun h => ⟨h.1, h.2⟩, fun h => ⟨h.perm, h.sorted⟩⟩

instance : Decidable (Numbered key xs) :=
  inferInstanceAs (Decidable (List.Perm _ _))

theorem exists_orderedBy (key : α → ℤ) (xs : List α) : ∃ ys, OrderedBy key xs ys := by
  refine ⟨xs.mergeSort fun a b => key a ≤ key b, List.mergeSort_perm xs _, ?_⟩
  have htrans : ∀ a b c : α, decide (key a ≤ key b) → decide (key b ≤ key c) →
      decide (key a ≤ key c) := fun a b c hab hbc => by
    simp only [decide_eq_true_eq] at hab hbc ⊢
    exact hab.trans hbc
  have htotal : ∀ a b : α, decide (key a ≤ key b) || decide (key b ≤ key a) := fun a b => by
    simpa using le_total (key a) (key b)
  exact (List.pairwise_mergeSort htrans htotal xs).imp of_decide_eq_true

namespace OrderedBy

theorem mem_iff (h : OrderedBy key xs ys) {a : α} : a ∈ ys ↔ a ∈ xs := h.perm.mem_iff

theorem unique (h : OrderedBy key xs ys) (h' : OrderedBy key xs zs) (hnd : (xs.map key).Nodup) :
    ys = zs := by
  refine (h.perm.trans h'.perm.symm).eq_of_pairwise ?_ h.sorted h'.sorted
  intro a b ha hb hab hba
  exact List.inj_on_of_nodup_map hnd (h.mem_iff.1 ha) (h'.mem_iff.1 hb) (le_antisymm hab hba)

/-- Of two documents the one with the smaller key stands first. -/
theorem lt_of_key_lt (h : OrderedBy key xs ys) {a b : α} {i j : ℕ} (hi : ys[i]? = some a)
    (hj : ys[j]? = some b) (hab : key a < key b) : i < j := by
  obtain ⟨hil, rfl⟩ := List.getElem?_eq_some_iff.1 hi
  obtain ⟨hjl, rfl⟩ := List.getElem?_eq_some_iff.1 hj
  refine not_le.1 fun hji => ?_
  obtain hji | rfl := lt_or_eq_of_le hji
  · exact not_le.2 hab (List.pairwise_iff_getElem.1 h.sorted j i hjl hil hji)
  · exact lt_irrefl _ hab

/-- With different keys nothing else stands first. -/
theorem lt_iff_key_lt (h : OrderedBy key xs ys) (hnd : (xs.map key).Nodup) {a b : α} {i j : ℕ}
    (hi : ys[i]? = some a) (hj : ys[j]? = some b) : i < j ↔ key a < key b := by
  refine ⟨fun hij => ?_, h.lt_of_key_lt hi hj⟩
  refine not_le.1 fun hba => ?_
  obtain hba | hba := lt_or_eq_of_le hba
  · exact absurd (h.lt_of_key_lt hj hi hba) (by omega)
  · have hmem {a : α} {i : ℕ} (hi : ys[i]? = some a) : a ∈ xs :=
      h.mem_iff.1 (List.mem_of_getElem? hi)
    obtain rfl := List.inj_on_of_nodup_map hnd (hmem hj) (hmem hi) hba
    obtain ⟨hil, -⟩ := List.getElem?_eq_some_iff.1 hi
    have hnd' : ys.Nodup := h.perm.nodup_iff.2 hnd.of_map
    have := (List.getElem?_inj hil hnd').1 (hi.trans hj.symm)
    omega

/-- A function of the documents takes different values on them if it does at different places. -/
theorem nodup_map_iff (h : OrderedBy key xs ys) {β : Type*} (f : α → β) :
    (xs.map f).Nodup ↔
      ∀ (i j : ℕ) a b, ys[i]? = some a → ys[j]? = some b → f a = f b → i = j := by
  rw [← (h.perm.map f).nodup_iff]
  constructor
  · intro hnd i j a b hi hj hf
    obtain ⟨hil, -⟩ := List.getElem?_eq_some_iff.1 hi
    refine (List.getElem?_inj (l := ys.map f) (by simpa using hil) hnd).1 ?_
    simp [hi, hj, hf]
  · intro hinj
    refine List.nodup_iff_getElem?_ne_getElem?.2 fun i j hij hj he => ?_
    rw [List.length_map] at hj
    have hi : i < ys.length := hij.trans hj
    refine hij.ne (hinj i j ys[i] ys[j] (List.getElem?_eq_getElem hi)
      (List.getElem?_eq_getElem hj) ?_)
    simpa [hi, hj] using he

/-- The keys count the places exactly if the documents are numbered. -/
theorem key_eq_iff (h : OrderedBy key xs ys) :
    (∀ (i : ℕ) a, ys[i]? = some a → key a = i + 1) ↔ Numbered key xs := by
  have hlen := h.perm.length_eq
  have hmap : (ys.map key).Perm (xs.map key) := h.perm.map key
  constructor
  · intro hkey
    have heq : ys.map key = (List.range xs.length).map fun i : ℕ => (i : ℤ) + 1 := by
      refine List.ext_getElem (by simp [hlen]) fun i hi _ => ?_
      rw [List.length_map] at hi
      simpa using hkey i ys[i] (List.getElem?_eq_getElem hi)
    rw [Numbered, ← heq]
    exact hmap.symm
  · intro hnum i a hi
    obtain ⟨hil, rfl⟩ := List.getElem?_eq_some_iff.1 hi
    have heq : ys.map key = (List.range xs.length).map fun i : ℕ => (i : ℤ) + 1 := by
      refine (hmap.trans hnum).eq_of_pairwise (fun a b _ _ (hab : a ≤ b) hba => le_antisymm hab hba)
        (List.pairwise_map.2 h.sorted) ?_
      refine List.pairwise_map.2 (List.pairwise_lt_range.imp fun hab => ?_)
      omega
    have hget : (ys.map key)[i]? = some ((i : ℤ) + 1) := by
      rw [heq]
      simp [← hlen, hil]
    simpa [hil] using hget

end OrderedBy

example : OrderedBy (fun n : ℤ => n) [3, 1, 2] [1, 2, 3] := by decide

end MapaZimSlupsk
