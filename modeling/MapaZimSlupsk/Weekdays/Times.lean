import MapaZimSlupsk.Firestore.Documents

/-!
# Numbers and departure times as texts

The app writes a departure time with one of four branches, for numbers with one digit and with more,
and the numbers of lines and stops as they are.

* `toString_inj` : the text of a number tells the number.
* `sub1` : the text for an hour and a minute, as the app makes it.
* `sub1_eq` : the branches leave no pair of numbers out.
* `sub1_inj` : **two times have the same text only if they are the same.**
-/

namespace MapaZimSlupsk

/-! ### Numerals -/

/-- The first separator shows where the first part ends. -/
theorem append_cons_inj {a : Char} {xs xs' ys ys' : List Char} (h : a ∉ xs) (h' : a ∉ xs')
    (he : xs ++ a :: ys = xs' ++ a :: ys') : xs = xs' ∧ ys = ys' := by
  obtain ⟨zs, rfl, hz⟩ | ⟨zs, rfl, hz⟩ := List.append_eq_append_iff.1 he
  · cases zs with
    | nil => exact ⟨by simp, (List.cons.inj hz).2⟩
    | cons z zs =>
      obtain rfl := (List.cons.inj hz).1
      exact absurd (by simp) h'
  · cases zs with
    | nil => exact ⟨by simp, (List.cons.inj hz).2.symm⟩
    | cons z zs =>
      obtain rfl := (List.cons.inj hz).1
      exact absurd (by simp) h

/-- Of other characters only the sign occurs in a numeral. -/
theorem not_mem_toString {c : Char} (hc : c.isDigit = false) (hsign : c ≠ '-') (n : ℤ) :
    c ∉ (toString n).toList := by
  have hdigit {m : ℕ} : c ∉ Nat.toDigits 10 m := fun h => by
    simp [Nat.isDigit_of_mem_toDigits (by decide) (by decide) h] at hc
  obtain ⟨he, -⟩ | ⟨he, -⟩ := toList_toString n
  · exact he ▸ hdigit
  · rw [he, List.mem_cons, not_or]
    exact ⟨hsign, hdigit⟩

theorem toDigits_inj {n m : ℕ} (h : Nat.toDigits 10 n = Nat.toDigits 10 m) : n = m := by
  have hval := congrArg (Nat.ofDigitChars 10 · 0) h
  simpa only [Nat.ofDigitChars_ten_toDigits] using hval

theorem sign_not_mem_toDigits (n : ℕ) : '-' ∉ Nat.toDigits 10 n := fun h =>
  absurd (Nat.isDigit_of_mem_toDigits (by decide) (by decide) h) (by decide)

theorem toString_inj {n m : ℤ} (h : toString n = toString m) : n = m := by
  have hlist := congrArg String.toList h
  obtain ⟨hn, hn0⟩ | ⟨hn, hn0⟩ := toList_toString n <;>
    obtain ⟨hm, hm0⟩ | ⟨hm, hm0⟩ := toList_toString m <;> rw [hn, hm] at hlist
  · have := toDigits_inj hlist
    omega
  · exact absurd (hlist ▸ List.mem_cons_self) (sign_not_mem_toDigits n.toNat)
  · exact absurd (hlist ▸ List.mem_cons_self) (sign_not_mem_toDigits m.toNat)
  · have := toDigits_inj (List.cons.inj hlist).2
    omega

/-! ### Times -/

/-- The text of a departure time. -/
def sub1 (h m : ℤ) : String :=
  let sub1 := ""
  let sub1 := if h < 10 ∧ m > 9 then "0" ++ toString h ++ ":" ++ toString m else sub1
  let sub1 := if h > 9 ∧ m < 10 then toString h ++ ":0" ++ toString m else sub1
  let sub1 := if h < 10 ∧ m < 10 then "0" ++ toString h ++ ":0" ++ toString m else sub1
  if h > 9 ∧ m > 9 then toString h ++ ":" ++ toString m else sub1

/-- A number with two digits. -/
def padded (n : ℤ) : String := if n < 10 then "0" ++ toString n else toString n

theorem sub1_eq (h m : ℤ) : sub1 h m = padded h ++ ":" ++ padded m := by
  have hzero : ∀ s : String, ":0" ++ s = ":" ++ ("0" ++ s) := fun s => by
    rw [← String.append_assoc]
    rfl
  unfold sub1 padded
  by_cases hh : h < 10 <;> by_cases hm : m < 10
  · simp [hh, hm, show ¬ m > 9 by omega, show ¬ h > 9 by omega, hzero, String.append_assoc]
  · simp [hh, hm, show m > 9 by omega, show ¬ h > 9 by omega, String.append_assoc]
  · simp [hh, hm, show ¬ m > 9 by omega, show h > 9 by omega, hzero, String.append_assoc]
  · simp [hh, hm, show m > 9 by omega, show h > 9 by omega, String.append_assoc]

theorem colon_not_mem_padded (n : ℤ) : ':' ∉ (padded n).toList := by
  have hno : ':' ∉ (toString n).toList := not_mem_toString (by decide) (by decide) n
  unfold padded
  split_ifs
  · rw [String.toList_append]
    simpa using hno
  · exact hno

/-- A number of at least two digits is not a shorter one behind a zero. -/
theorem zero_append_ne {n m : ℤ} (hn : n < 10) (hm : 10 ≤ m) :
    "0" ++ toString n ≠ toString m := by
  intro he
  have hlist : '0' :: (toString n).toList = (toString m).toList := by
    rw [← he, String.toList_append]
    rfl
  have hmd := ((toList_toString m).resolve_right fun h => by omega).1
  rw [hmd] at hlist
  obtain ⟨hnd, hn0⟩ | ⟨hnd, -⟩ := toList_toString n
  · -- both sides are read as numbers
    rw [hnd] at hlist
    have hval := congrArg (Nat.ofDigitChars 10 · 0) hlist
    simp only [Nat.ofDigitChars_cons, Nat.ofDigitChars_ten_toDigits] at hval
    have hval : n.toNat = m.toNat := by simpa using hval
    omega
  · -- a sign is no digit
    rw [hnd] at hlist
    exact absurd (hlist ▸ by simp) (sign_not_mem_toDigits m.toNat)

theorem padded_inj {n m : ℤ} : padded n = padded m ↔ n = m := by
  refine ⟨fun h => ?_, congrArg padded⟩
  unfold padded at h
  split_ifs at h with hn hm hm
  · have hlist := congrArg String.toList h
    rw [String.toList_append, String.toList_append] at hlist
    exact toString_inj (String.toList_inj.1 (List.append_cancel_left hlist))
  · exact absurd h (zero_append_ne hn (not_lt.1 hm))
  · exact absurd h.symm (zero_append_ne hm (not_lt.1 hn))
  · exact toString_inj h

/-- **The text of a time tells the time.** -/
theorem sub1_inj {h m h' m' : ℤ} : sub1 h m = sub1 h' m' ↔ h = h' ∧ m = m' := by
  refine ⟨fun he => ?_, fun ⟨hh, hm⟩ => hh ▸ hm ▸ rfl⟩
  have hlist : (padded h).toList ++ ':' :: (padded m).toList =
      (padded h').toList ++ ':' :: (padded m').toList := by
    have hlist := congrArg String.toList he
    simpa [sub1_eq, String.toList_append] using hlist
  obtain ⟨hh, hm⟩ := append_cons_inj (colon_not_mem_padded h) (colon_not_mem_padded h') hlist
  exact ⟨padded_inj.1 (String.toList_inj.1 hh), padded_inj.1 (String.toList_inj.1 hm)⟩

example : sub1 5 7 = "05:07" := by decide
example : sub1 23 45 = "23:45" := by decide

end MapaZimSlupsk
