import MapaZimSlupsk.Fold.LastWrite
import Mathlib.Data.List.Nodup

/-!
# Lists with keys

A map is kept as a list of elements that carry their keys; writing an element replaces the one with
its key, or puts it at the end.

* `Keyed.put`, `Keyed.puts` : writing one element, and several.
* `Keyed.get` : the element with a key.
* `nodup_puts` : no key is there twice.
* `mem_puts_iff` : **what is there after some writes is the last element written under each key.**
* `puts_of_nodup` : writes under different keys are all there, in their order.
-/

namespace MapaZimSlupsk

namespace Keyed

variable {α κ : Type*} [DecidableEq κ] {key : α → κ} {l as : List α} {a b : α} {k : κ}

/-- Write an element. -/
def put (key : α → κ) (l : List α) (a : α) : List α :=
  if ∃ b ∈ l, key b = key a then l.map fun b => if key b = key a then a else b
  else l ++ [a]

/-- Write several elements. -/
def puts (key : α → κ) (l as : List α) : List α := as.foldl (put key) l

/-- The element with the key `k`. -/
def get (key : α → κ) (l : List α) (k : κ) : Option α := l.find? fun b => key b = k

theorem puts_cons : puts key l (a :: as) = puts key (put key l a) as := rfl

theorem put_of_not_mem (h : ∀ b ∈ l, key b ≠ key a) : put key l a = l ++ [a] :=
  if_neg fun ⟨b, hb, he⟩ => h b hb he

theorem map_key_put_of_mem (h : ∃ b ∈ l, key b = key a) : (put key l a).map key = l.map key := by
  unfold put
  rw [if_pos h, List.map_map]
  refine List.map_congr_left fun b _ => ?_
  show key (if key b = key a then a else b) = key b
  split_ifs with he
  · exact he.symm
  · rfl

theorem nodup_put (h : (l.map key).Nodup) (a : α) : ((put key l a).map key).Nodup := by
  by_cases hmem : ∃ b ∈ l, key b = key a
  · rwa [map_key_put_of_mem hmem]
  · have hnew : ∀ b ∈ l, key b ≠ key a := fun b hb he => hmem ⟨b, hb, he⟩
    rw [put_of_not_mem hnew, List.map_append, List.map_singleton, List.nodup_append]
    refine ⟨h, List.nodup_singleton _, fun x hx y hy => ?_⟩
    obtain ⟨b, hb, rfl⟩ := List.mem_map.1 hx
    rw [List.mem_singleton.1 hy]
    exact hnew b hb

/-- **No key is there twice.** -/
theorem nodup_puts (h : (l.map key).Nodup) (as : List α) : ((puts key l as).map key).Nodup := by
  induction as generalizing l with
  | nil => exact h
  | cons a as ih => exact ih (nodup_put h a)

/-! ### Reading -/

theorem get_put_self (l : List α) (a : α) : get key (put key l a) (key a) = some a := by
  unfold get put
  split_ifs with h
  · obtain ⟨b, hb, he⟩ := h
    induction l with
    | nil => cases hb
    | cons c l ih =>
      rw [List.map_cons, List.find?_cons]
      by_cases hc : key c = key a
      · simp [hc]
      · obtain rfl | hb := List.mem_cons.1 hb
        · exact absurd he hc
        · simp only [hc, if_false, decide_false]
          exact ih hb
  · rw [List.find?_append, List.find?_eq_none.2 fun b hb => by simpa using fun he => h ⟨b, hb, he⟩]
    simp

theorem get_put_of_ne (l : List α) (h : key a ≠ k) : get key (put key l a) k = get key l k := by
  unfold get put
  split_ifs with hmem
  · clear hmem
    induction l with
    | nil => rfl
    | cons c l ih =>
      rw [List.map_cons, List.find?_cons, List.find?_cons]
      by_cases hc : key c = key a
      · have hck : key c ≠ k := fun he => h (hc.symm.trans he)
        simp only [hc, if_true, h, decide_false, ih]
      · simp only [hc, if_false, ih]
  · rw [List.find?_append]
    simp [h]

theorem get_eq_some_iff (h : (l.map key).Nodup) : get key l k = some a ↔ a ∈ l ∧ key a = k := by
  constructor
  · intro hget
    exact ⟨List.mem_of_find?_eq_some hget, by simpa using List.find?_some hget⟩
  · rintro ⟨ha, rfl⟩
    cases hget : get key l (key a) with
    | none => exact absurd (decide_eq_true rfl) (List.find?_eq_none.1 hget a ha)
    | some b =>
      have hb : key b = key a := by simpa using List.find?_some hget
      rw [List.inj_on_of_nodup_map h (List.mem_of_find?_eq_some hget) ha hb]

/-- **What is there after some writes**: the last element written under each key. -/
theorem mem_puts_iff : a ∈ puts key [] as ↔ ∃ u w, as = u ++ a :: w ∧ ∀ b ∈ w, key b ≠ key a := by
  have hw : ∀ s b, key b = key a → get key (put key s b) (key a) = some b := fun s b hb => by
    rw [← hb]
    exact get_put_self s b
  have hk : ∀ s b, ¬ key b = key a → get key (put key s b) (key a) = get key s (key a) :=
    fun s b hb => get_put_of_ne s hb
  have hnd : ((puts key [] as).map key).Nodup := nodup_puts (l := []) List.nodup_nil as
  have hget : a ∈ puts key [] as ↔ get key (puts key [] as) (key a) = some a := by
    rw [get_eq_some_iff hnd, and_iff_left rfl]
  rw [hget]
  obtain ⟨u, b, w, rfl, hb, hlast⟩ | hno := Fold.exists_last_or (fun b => key b = key a) as
  · have hval := Fold.foldl_of_last (g := fun s => get key s (key a)) hw hk hb hlast u []
    constructor
    · intro he
      obtain rfl : b = a := Option.some.inj (hval.symm.trans he)
      exact ⟨u, w, rfl, hlast⟩
    · rintro ⟨u', w', he, hlast'⟩
      obtain ⟨rfl, -⟩ | ⟨m, hm, -⟩ | ⟨m, hm, -⟩ := Fold.append_cons_cases he
      · exact hval
      · exact absurd rfl (hlast a (hm ▸ by simp))
      · exact absurd hb (hlast' b (hm ▸ by simp))
  · have hval := Fold.foldl_of_forall_not (g := fun s => get key s (key a)) hk hno []
    constructor
    · exact fun he => by cases hval.symm.trans he
    · rintro ⟨u, w, rfl, -⟩
      exact absurd rfl (hno a (by simp))

theorem puts_of_forall_ne (hl : ∀ b ∈ l, ∀ a ∈ as, key b ≠ key a) (h : (as.map key).Nodup) :
    puts key l as = l ++ as := by
  induction as generalizing l with
  | nil => exact (List.append_nil l).symm
  | cons a as ih =>
    rw [List.map_cons, List.nodup_cons] at h
    rw [puts_cons, put_of_not_mem fun b hb => hl b hb a List.mem_cons_self, ih ?_ h.2,
      List.append_assoc, List.singleton_append]
    intro b hb c hc
    obtain hb | hb := List.mem_append.1 hb
    · exact hl b hb c (List.mem_cons_of_mem _ hc)
    · rw [List.mem_singleton.1 hb]
      exact fun he => h.1 (List.mem_map.2 ⟨c, hc, he.symm⟩)

/-- Writes under different keys are all there, in their order. -/
theorem puts_of_nodup (h : (as.map key).Nodup) : puts key [] as = as :=
  puts_of_forall_ne (fun _ hb => absurd hb List.not_mem_nil) h

end Keyed

end MapaZimSlupsk
