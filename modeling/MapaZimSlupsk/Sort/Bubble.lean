import Mathlib.Data.List.Sort
import Mathlib.Order.Lattice
import Mathlib.Tactic.Common

/-!
# Sorting a list in place by nested swap loops

The loops

    for (i = 0; i < l.length; i++)
      for (j = 0; j < l.length - 1; j++)
        if (l[j] > l[j + 1]) swap l[j] and l[j + 1];

over any linear order.  One run of the inner loop is a *sweep*: it carries the largest element seen
so far to the right (`Bubble.inner_cons`).  After `k` runs the last `k` elements are sorted and
not below any other (`Bubble.inner_append`), so after `l.length` runs the list is sorted
(`Bubble.sort_sorted`), and swaps lose nothing (`Bubble.sort_perm`).
-/

namespace MapaZimSlupsk

namespace Bubble

variable {α : Type*} [LinearOrder α]

/-- The body of the inner loop: swap the elements at `j` and `j + 1` if they are out of order. -/
def swapAt (l : List α) (j : ℕ) : List α :=
  match l[j]?, l[j + 1]? with
  | some a, some b => if b < a then (l.set (j + 1) a).set j b else l
  | _, _ => l

/-- One run of the inner loop. -/
def inner (l : List α) : List α := (List.range (l.length - 1)).foldl swapAt l

/-- The nested loops. -/
def sort (l : List α) : List α := (List.range l.length).foldl (fun l _ => inner l) l

/-- Carry `a` through the list, leaving the smaller element behind at every position. -/
def sweep (a : α) : List α → List α
  | [] => [a]
  | b :: l => min a b :: sweep (max a b) l

theorem swapAt_append (u l : List α) (a b : α) :
    swapAt (u ++ a :: b :: l) u.length = u ++ min a b :: max a b :: l := by
  have ha : (u ++ a :: b :: l)[u.length]? = some a := by simp
  have hb : (u ++ a :: b :: l)[u.length + 1]? = some b := by simp
  simp only [swapAt, ha, hb]
  split_ifs with h
  · rw [List.set_append_right _ _ (Nat.le_succ _), List.set_append_right _ _ le_rfl]
    simp [min_eq_right h.le, max_eq_left h.le]
  · rw [min_eq_left (not_lt.1 h), max_eq_right (not_lt.1 h)]

theorem foldl_swapAt (l u : List α) (a : α) :
    (List.range' u.length l.length).foldl swapAt (u ++ a :: l) = u ++ sweep a l := by
  induction l generalizing u a with
  | nil => rfl
  | cons b l ih =>
    rw [List.length_cons, List.range'_succ, List.foldl_cons, swapAt_append]
    have := ih (u ++ [min a b]) (max a b)
    simpa [sweep] using this

/-- The inner loop is a sweep. -/
theorem inner_cons (a : α) (l : List α) : inner (a :: l) = sweep a l := by
  have := foldl_swapAt l [] a
  simpa [inner, List.range_eq_range'] using this

theorem sweep_perm (a : α) (l : List α) : (sweep a l).Perm (a :: l) := by
  induction l generalizing a with
  | nil => rfl
  | cons b l ih =>
    refine ((ih (max a b)).cons _).trans ?_
    rcases le_total a b with h | h
    · rw [min_eq_left h, max_eq_right h]
    · rw [min_eq_right h, max_eq_left h]
      exact .swap _ _ _

/-- A sweep ends with the largest element. -/
theorem exists_sweep_eq (a : α) (l : List α) :
    ∃ u m, sweep a l = u ++ [m] ∧ u.length = l.length ∧ a ≤ m ∧ ∀ x ∈ l, x ≤ m := by
  induction l generalizing a with
  | nil => exact ⟨[], a, rfl, rfl, le_rfl, by simp⟩
  | cons b l ih =>
    obtain ⟨u, m, he, hlen, ha, hl⟩ := ih (max a b)
    refine ⟨min a b :: u, m, by simp [sweep, he], by simp [hlen], (le_max_left _ _).trans ha, ?_⟩
    intro x hx
    rcases List.mem_cons.1 hx with rfl | hx
    · exact (le_max_right _ _).trans ha
    · exact hl x hx

/-- A sorted tail that no carried element exceeds is left alone. -/
theorem sweep_append {a : α} {l v : List α} (hv : v.Pairwise (· ≤ ·)) (ha : ∀ y ∈ v, a ≤ y)
    (hl : ∀ x ∈ l, ∀ y ∈ v, x ≤ y) : sweep a (l ++ v) = sweep a l ++ v := by
  induction l generalizing a with
  | nil =>
    induction v generalizing a with
    | nil => rfl
    | cons y v ih =>
      obtain ⟨hy, hv⟩ := List.pairwise_cons.1 hv
      have hay : a ≤ y := ha y List.mem_cons_self
      simp only [List.nil_append, sweep, min_eq_left hay, max_eq_right hay] at ih ⊢
      rw [ih hv hy (by simp)]
      rfl
  | cons b l ih =>
    simp only [List.cons_append, sweep, List.cons.injEq, true_and]
    refine ih (fun y hy => max_le (ha y hy) (hl b List.mem_cons_self y hy)) ?_
    exact fun x hx => hl x (List.mem_cons_of_mem _ hx)

theorem inner_perm (l : List α) : (inner l).Perm l := by
  cases l with
  | nil => rfl
  | cons a l => exact inner_cons a l ▸ sweep_perm a l

/-- One run of the inner loop lengthens the sorted tail by one element. -/
theorem inner_append {u v : List α} (hu : u ≠ []) (hv : v.Pairwise (· ≤ ·))
    (huv : ∀ x ∈ u, ∀ y ∈ v, x ≤ y) :
    ∃ u' m, inner (u ++ v) = u' ++ m :: v ∧ u'.length + 1 = u.length ∧
      (m :: v).Pairwise (· ≤ ·) ∧ ∀ x ∈ u', ∀ y ∈ m :: v, x ≤ y := by
  obtain ⟨a, l, rfl⟩ := List.exists_cons_of_ne_nil hu
  obtain ⟨u', m, he, hlen, ha, hl⟩ := exists_sweep_eq a l
  have hmem : ∀ x, x ∈ u' ∨ x = m ↔ x ∈ a :: l := fun x => by
    rw [← (sweep_perm a l).mem_iff, he]
    simp
  have hmv : ∀ y ∈ v, m ≤ y := fun y hy => huv m ((hmem m).1 (.inr rfl)) y hy
  refine ⟨u', m, ?_, by simp [hlen], List.pairwise_cons.2 ⟨hmv, hv⟩, fun x hx y hy => ?_⟩
  · rw [List.cons_append, inner_cons, sweep_append hv (huv a List.mem_cons_self)
      fun x hx => huv x (List.mem_cons_of_mem _ hx), he]
    simp
  · have hxl := (hmem x).1 (.inl hx)
    rcases List.mem_cons.1 hy with rfl | hy
    · rcases List.mem_cons.1 hxl with rfl | hxl
      · exact ha
      · exact hl x hxl
    · exact huv x hxl y hy

/-- After as many runs of the inner loop as the unsorted part has elements, all is sorted. -/
theorem foldl_inner_sorted (n k : ℕ) {u v : List α} (hn : u.length = n)
    (hv : v.Pairwise (· ≤ ·)) (huv : ∀ x ∈ u, ∀ y ∈ v, x ≤ y) :
    ((List.range' k n).foldl (fun l _ => inner l) (u ++ v)).Pairwise (· ≤ ·) := by
  induction n generalizing u v k with
  | zero => simpa [List.length_eq_zero_iff.1 hn] using hv
  | succ n ih =>
    obtain ⟨u', m, he, hlen, hv', huv'⟩ := inner_append (by rintro rfl; simp at hn) hv huv
    rw [List.range'_succ, List.foldl_cons, he]
    exact ih (k + 1) (by omega) hv' huv'

/-- **The nested loops sort the list.** -/
theorem sort_sorted (l : List α) : (sort l).Pairwise (· ≤ ·) := by
  have := foldl_inner_sorted l.length 0 (u := l) (v := []) rfl .nil (by simp)
  simpa [sort, List.range_eq_range'] using this

/-- **The nested loops only permute the list.** -/
theorem sort_perm (l : List α) : (sort l).Perm l := by
  suffices h : ∀ (is : List ℕ) (l : List α), (is.foldl (fun l _ => inner l) l).Perm l from h _ l
  intro is
  induction is with
  | nil => exact fun l => .refl l
  | cons i is ih => exact fun l => (ih (inner l)).trans (inner_perm l)

@[simp] theorem mem_sort {l : List α} {x : α} : x ∈ sort l ↔ x ∈ l := (sort_perm l).mem_iff

/-- Without repetitions the result is strictly ascending. -/
theorem sort_strictly_sorted {l : List α} (h : l.Nodup) : (sort l).Pairwise (· < ·) := by
  have hnd : (sort l).Pairwise (· ≠ ·) := (sort_perm l).nodup_iff.2 h
  exact ((sort_sorted l).and hnd).imp fun hxy => lt_of_le_of_ne hxy.1 hxy.2

example : sort [3, 1, 2] = [1, 2, 3] := by decide

end Bubble

end MapaZimSlupsk
