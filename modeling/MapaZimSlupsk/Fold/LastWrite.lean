import Mathlib.Data.List.Induction
import Mathlib.Tactic.Common

/-!
# The last write of a loop

A loop over a list in which every element either writes a value to a variable or leaves the
variable alone.  Afterwards the variable holds the value of the last element that wrote, or still
its old value if none did.

Where a loop keeps several variables, `append_cons_cases` compares the places of their last
writes.  Where it depends on the state whether an element writes, `Never` and `Last` look at each
element in the state in which the loop comes to it; `foldl_eq_iff` then says when a given value
is left.
-/

namespace MapaZimSlupsk

namespace Fold

variable {σ α β : Type*} {f : σ → α → σ} {g : σ → β} {W : α → Prop} {val : α → β}

/-- Elements that do not write the variable leave its value. -/
theorem foldl_of_forall_not (hk : ∀ s a, ¬ W a → g (f s a) = g s) {l : List α}
    (hl : ∀ a ∈ l, ¬ W a) (s : σ) : g (l.foldl f s) = g s := by
  induction l generalizing s with
  | nil => rfl
  | cons a l ih =>
    rw [List.foldl_cons, ih fun b hb => hl b (List.mem_cons_of_mem _ hb)]
    exact hk s a (hl a List.mem_cons_self)

/-- The value left is that of a write no later element of the list repeats. -/
theorem foldl_of_last (hw : ∀ s a, W a → g (f s a) = val a)
    (hk : ∀ s a, ¬ W a → g (f s a) = g s) {a : α} (ha : W a) {w : List α}
    (hl : ∀ b ∈ w, ¬ W b) (u : List α) (s : σ) : g ((u ++ a :: w).foldl f s) = val a := by
  rw [List.foldl_append, List.foldl_cons, foldl_of_forall_not hk hl, hw _ a ha]

/-- A list has a last element that writes, or none does. -/
theorem exists_last_or (W : α → Prop) (l : List α) :
    (∃ u a w, l = u ++ a :: w ∧ W a ∧ ∀ b ∈ w, ¬ W b) ∨ ∀ a ∈ l, ¬ W a := by
  induction l with
  | nil => exact .inr fun a ha => absurd ha List.not_mem_nil
  | cons c l ih =>
    rcases ih with ⟨u, a, w, rfl, ha, hl⟩ | hl
    · exact .inl ⟨c :: u, a, w, rfl, ha, hl⟩
    · by_cases hc : W c
      · exact .inl ⟨[], c, l, rfl, hc, hl⟩
      · exact .inr (List.forall_mem_cons.2 ⟨hc, hl⟩)

/-- **Where the value of a variable comes from**: an element that wrote it, or the old value. -/
theorem foldl_last_write (hw : ∀ s a, W a → g (f s a) = val a)
    (hk : ∀ s a, ¬ W a → g (f s a) = g s) (l : List α) (s : σ) :
    (∃ a ∈ l, W a ∧ g (l.foldl f s) = val a) ∨
      ((∀ a ∈ l, ¬ W a) ∧ g (l.foldl f s) = g s) := by
  rcases exists_last_or W l with ⟨u, a, w, rfl, ha, hl⟩ | hl
  · exact .inl ⟨a, by simp, ha, foldl_of_last hw hk ha hl u s⟩
  · exact .inr ⟨hl, foldl_of_forall_not hk hl s⟩

/-- If only one element writes the variable, its value is the one left. -/
theorem foldl_unique_write (hw : ∀ s a, W a → g (f s a) = val a)
    (hk : ∀ s a, ¬ W a → g (f s a) = g s) {l : List α} {a : α} (ha : a ∈ l) (hWa : W a)
    (huniq : ∀ b ∈ l, W b → b = a) (s : σ) : g (l.foldl f s) = val a := by
  rcases foldl_last_write hw hk l s with ⟨b, hb, hWb, he⟩ | ⟨hno, -⟩
  · rw [he, huniq b hb hWb]
  · exact absurd hWa (hno a ha)

/-- **Writes in any order**: the value left satisfies `R` for every order of the elements exactly
if every value written does, and the old one if no element writes. -/
theorem forall_perm_foldl_iff (hw : ∀ s a, W a → g (f s a) = val a)
    (hk : ∀ s a, ¬ W a → g (f s a) = g s) (R : β → Prop) (l : List α) (s : σ) :
    (∀ l' : List α, l'.Perm l → R (g (l'.foldl f s))) ↔
      (∀ a ∈ l, W a → R (val a)) ∧ ((∀ a ∈ l, ¬ W a) → R (g s)) := by
  constructor
  · refine fun h => ⟨fun a ha hWa => ?_, fun hl => ?_⟩
    · -- the element comes last
      obtain ⟨u, w, rfl⟩ := List.append_of_mem ha
      have hcomm : (w ++ [a]).Perm (a :: w) := List.perm_append_comm
      have hp : ((u ++ w) ++ [a]).Perm (u ++ a :: w) := by
        rw [List.append_assoc]
        exact hcomm.append_left u
      have := h _ hp
      rwa [foldl_of_last hw hk hWa (List.forall_mem_nil _)] at this
    · have := h l (List.Perm.refl l)
      rwa [foldl_of_forall_not hk hl] at this
  · rintro ⟨hval, hold⟩ l' hp
    rcases foldl_last_write hw hk l' s with ⟨a, ha, hWa, he⟩ | ⟨hl, he⟩
    · exact he ▸ hval a (hp.mem_iff.1 ha) hWa
    · exact he ▸ hold fun a ha => hl a (hp.mem_iff.2 ha)

/-- Of two elements of a list, they are the same, or one of them stands behind the other. -/
theorem append_cons_cases {u u' w w' : List α} {a a' : α} (h : u ++ a :: w = u' ++ a' :: w') :
    (a = a' ∧ u = u') ∨ (∃ m, w = m ++ a' :: w' ∧ u' = u ++ a :: m) ∨
      ∃ m, w' = m ++ a :: w ∧ u = u' ++ a' :: m := by
  rcases List.append_eq_append_iff.1 h with ⟨m, hu, hm⟩ | ⟨m, hu, hm⟩
  · cases m with
    | nil => exact .inl ⟨(List.cons.inj hm).1, by simpa using hu.symm⟩
    | cons c m =>
      obtain ⟨rfl, hw⟩ := List.cons.inj hm
      exact .inr (.inl ⟨m, hw, hu⟩)
  · cases m with
    | nil => exact .inl ⟨(List.cons.inj hm).1.symm, by simpa using hu⟩
    | cons c m =>
      obtain ⟨rfl, hw⟩ := List.cons.inj hm
      exact .inr (.inr ⟨m, hw, hu⟩)

/-! ### Writes that depend on the state -/

/-- No element of the list writes when the loop comes to it. -/
def Never (f : σ → α → σ) (W : σ → α → Prop) : σ → List α → Prop
  | _, [] => True
  | s, a :: l => ¬ W s a ∧ Never f W (f s a) l

instance Never.decidable (f : σ → α → σ) (W : σ → α → Prop) [∀ s, DecidablePred (W s)] :
    ∀ s l, Decidable (Never f W s l)
  | _, [] => isTrue trivial
  | s, a :: l =>
    have := Never.decidable f W (f s a) l
    inferInstanceAs (Decidable (¬ W s a ∧ Never f W (f s a) l))

/-- `a` is the last element of the list that writes when the loop comes to it. -/
def Last (f : σ → α → σ) (W : σ → α → Prop) (s : σ) (l : List α) (a : α) : Prop :=
  ∃ u w, l = u ++ a :: w ∧ W (u.foldl f s) a ∧ Never f W (f (u.foldl f s) a) w

section State

variable {W : σ → α → Prop} {s : σ} {l : List α} {a : α}

/-- The variable keeps its value if nothing writes it. -/
theorem foldl_of_never (hk : ∀ s a, ¬ W s a → g (f s a) = g s) (h : Never f W s l) :
    g (l.foldl f s) = g s := by
  induction l generalizing s with
  | nil => rfl
  | cons a l ih =>
    rw [List.foldl_cons, ih h.2]
    exact hk s a h.1

/-- The value left is that of the last write. -/
theorem foldl_of_lastWrite (hw : ∀ s a, W s a → g (f s a) = val a)
    (hk : ∀ s a, ¬ W s a → g (f s a) = g s) (h : Last f W s l a) : g (l.foldl f s) = val a := by
  obtain ⟨u, w, rfl, ha, hl⟩ := h
  rw [List.foldl_append, List.foldl_cons, foldl_of_never hk hl]
  exact hw _ a ha

/-- There is a last write, or none. -/
theorem exists_last_or_never (f : σ → α → σ) (W : σ → α → Prop) (s : σ) (l : List α) :
    (∃ a, Last f W s l a) ∨ Never f W s l := by
  induction l generalizing s with
  | nil => exact .inr trivial
  | cons c l ih =>
    rcases ih (f s c) with ⟨a, u, w, rfl, ha, hl⟩ | hl
    · exact .inl ⟨a, c :: u, w, rfl, ha, hl⟩
    · by_cases hc : W s c
      · exact .inl ⟨c, [], l, rfl, hc, hl⟩
      · exact .inr ⟨hc, hl⟩

/-- **When a given value is left**: it is that of the last write, or the old one and nothing
writes. -/
theorem foldl_eq_iff (hw : ∀ s a, W s a → g (f s a) = val a)
    (hk : ∀ s a, ¬ W s a → g (f s a) = g s) (b : β) :
    g (l.foldl f s) = b ↔ (∃ a, val a = b ∧ Last f W s l a) ∨ (g s = b ∧ Never f W s l) := by
  constructor
  · rintro rfl
    rcases exists_last_or_never f W s l with ⟨a, ha⟩ | hl
    · exact .inl ⟨a, (foldl_of_lastWrite hw hk ha).symm, ha⟩
    · exact .inr ⟨(foldl_of_never hk hl).symm, hl⟩
  · rintro (⟨a, rfl, ha⟩ | ⟨rfl, hl⟩)
    · exact foldl_of_lastWrite hw hk ha
    · exact foldl_of_never hk hl

end State

end Fold

end MapaZimSlupsk
