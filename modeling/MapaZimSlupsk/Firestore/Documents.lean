import Mathlib.Algebra.Order.Field.Rat
import Mathlib.Data.List.DropRight
import Mathlib.Tactic.Common

/-!
# The documents the app reads

The database holds the collection `Przystanki` (one document per stop) and, for every line and
direction `j`, the collection `Dni powszednie/<line>/<j>/k1/p` (one document per stop of the first
course in this direction).  A read answers with the documents of a collection, in an order that
the app does not ask for.

Coordinates are rationals: a double is one, and the app only subtracts and compares them.
-/

namespace MapaZimSlupsk

/-- A document of the collection `Przystanki`. -/
structure Przystanek where
  /-- The name of the document itself (`doc.id`). -/
  docId : String
  id : ℤ
  name : String
  lat : ℚ
  lng : ℚ
  /-- The lines that serve the stop. -/
  linie : List String
  deriving DecidableEq, Repr

/-- A document of a route `Dni powszednie/<line>/<j>/k1/p`: the stop with the id `id`, the `l`-th
of the course, of the name `n`. -/
structure RouteStop where
  id : String
  l : ℤ
  n : String
  deriving DecidableEq, Repr

/-- The contents of the database. -/
structure Firestore where
  /-- The collection `Przystanki`. -/
  przystanki : List Przystanek
  /-- `trasa line j` : the collection `Dni powszednie/<line>/<j>/k1/p`. -/
  trasa : String → ℕ → List RouteStop

/-! ### Reading numbers -/

/-- The value of a decimal digit. -/
def digitValue (c : Char) : Option ℕ :=
  if '0' ≤ c ∧ c ≤ '9' then some (c.toNat - '0'.toNat) else none

/-- The value of a hexadecimal digit. -/
def hexValue (c : Char) : Option ℕ :=
  if '0' ≤ c ∧ c ≤ '9' then some (c.toNat - '0'.toNat)
  else if 'a' ≤ c ∧ c ≤ 'f' then some (c.toNat - 'a'.toNat + 10)
  else if 'A' ≤ c ∧ c ≤ 'F' then some (c.toNat - 'A'.toNat + 10)
  else none

/-- The value of a non-empty sequence of digits in the base `base`. -/
def digitsParse (base : ℕ) (value : Char → Option ℕ) : List Char → Option ℕ
  | [] => none
  | c :: cs => (c :: cs).foldlM (fun n c => (value c).map (base * n + ·)) 0

/-- The value of a non-empty sequence of decimal digits. -/
def natParse : List Char → Option ℕ := digitsParse 10 digitValue

/-- The value of a non-empty sequence of hexadecimal digits. -/
def hexParse : List Char → Option ℕ := digitsParse 16 hexValue

/-- The white space that `int.parse` leaves out at both ends. -/
def isWhitespace (c : Char) : Bool :=
  let n := c.toNat
  9 ≤ n ∧ n ≤ 13 ∨ n = 0x20 ∨ n = 0x85 ∨ n = 0xA0 ∨ n = 0x1680 ∨ 0x2000 ≤ n ∧ n ≤ 0x200A ∨
    n = 0x2028 ∨ n = 0x2029 ∨ n = 0x202F ∨ n = 0x205F ∨ n = 0x3000 ∨ n = 0xFEFF

/-- What follows the prefix of a hexadecimal literal. -/
def afterHexPrefix : List Char → Option (List Char)
  | '0' :: 'x' :: cs => some cs
  | '0' :: 'X' :: cs => some cs
  | _ => none

/-- A literal behind a minus sign. -/
def negativeParse (cs : List Char) : Option ℤ :=
  let value := match afterHexPrefix cs with
    | some cs => hexParse cs
    | none => natParse cs
  value.bind fun n => if n ≤ 2 ^ 63 then some (-n) else none

/-- A literal without a minus sign.  A hexadecimal one gives the 64 bits of the result. -/
def positiveParse (cs : List Char) : Option ℤ :=
  match afterHexPrefix cs with
  | some cs => (hexParse cs).bind fun n => if n < 2 ^ 64 then some (Int.bmod n (2 ^ 64)) else none
  | none => (natParse cs).bind fun n => if n < 2 ^ 63 then some n else none

/-- `int.parse`: a sign, perhaps, and a decimal or hexadecimal literal of a value that fits 64 bits,
between white space.  `none` stands for the `FormatException` thrown on other strings. -/
def intParse (s : String) : Option ℤ :=
  match (s.toList.dropWhile isWhitespace).rdropWhile isWhitespace with
  | '-' :: cs => negativeParse cs
  | '+' :: cs => positiveParse cs
  | cs => positiveParse cs

theorem foldlM_of_mem_none {base n : ℕ} {value : Char → Option ℕ} {cs : List Char} {c : Char}
    (hc : c ∈ cs) (h : value c = none) :
    cs.foldlM (fun n c => (value c).map (base * n + ·)) n = none := by
  induction cs generalizing n with
  | nil => cases hc
  | cons d cs ih =>
    rw [List.foldlM_cons]
    rcases List.mem_cons.1 hc with rfl | hc
    · rw [h]
      rfl
    · cases value d with
      | none => rfl
      | some m => exact ih hc

/-- A sequence of digits consists of digits. -/
theorem isSome_of_natParse {cs : List Char} {n : ℕ} (h : natParse cs = some n) :
    ∀ c ∈ cs, (digitValue c).isSome := by
  intro c hc
  by_contra hnone
  rw [Option.not_isSome_iff_eq_none] at hnone
  cases cs with
  | nil => cases hc
  | cons d cs =>
    have hfold : natParse (d :: cs) = none := foldlM_of_mem_none hc hnone
    cases hfold.symm.trans h

theorem isWhitespace_of_digit {c : Char} (h : (digitValue c).isSome) : isWhitespace c = false := by
  have hc : '0' ≤ c ∧ c ≤ '9' := by
    by_contra hc
    simp [digitValue, hc] at h
  have h0 : 48 ≤ c.toNat := hc.1
  have h9 : c.toNat ≤ 57 := hc.2
  rw [isWhitespace, decide_eq_false_iff_not]
  omega

/-- There is no white space around digits. -/
theorem trim_of_digits {cs : List Char} (h : ∀ c ∈ cs, (digitValue c).isSome) :
    (cs.dropWhile isWhitespace).rdropWhile isWhitespace = cs := by
  have hws : ∀ c ∈ cs, ¬ isWhitespace c = true := fun c hc => by
    simp [isWhitespace_of_digit (h c hc)]
  have hleft : cs.dropWhile isWhitespace = cs := by
    cases cs with
    | nil => rfl
    | cons c cs => exact List.dropWhile_cons_of_neg (hws c List.mem_cons_self)
  rw [hleft, List.rdropWhile_eq_self_iff]
  exact fun hne => hws _ (List.getLast_mem hne)

/-- Digits have no prefix of a hexadecimal literal. -/
theorem afterHexPrefix_of_digits {cs : List Char} (h : ∀ c ∈ cs, (digitValue c).isSome) :
    afterHexPrefix cs = none := by
  unfold afterHexPrefix
  split
  · exact absurd (h 'x' (by simp)) (by decide)
  · exact absurd (h 'X' (by simp)) (by decide)
  · rfl

theorem positiveParse_of_natParse {cs : List Char} {n : ℕ} (h : natParse cs = some n) :
    positiveParse cs = if n < 2 ^ 63 then some (n : ℤ) else none := by
  rw [positiveParse, afterHexPrefix_of_digits (isSome_of_natParse h), h]
  rfl

/-- A sequence of digits is read as its value, unless it does not fit 64 bits. -/
theorem intParse_of_natParse {s : String} {n : ℕ} (h : natParse s.toList = some n) :
    intParse s = if n < 2 ^ 63 then some (n : ℤ) else none := by
  have hdigits := isSome_of_natParse h
  rw [← positiveParse_of_natParse h, intParse, trim_of_digits hdigits]
  split
  · rename_i cs hs
    exact absurd (hdigits '-' (by simp [hs])) (by decide)
  · rename_i cs hs
    exact absurd (hdigits '+' (by simp [hs])) (by decide)
  · rfl

/-! ### Numerals -/

/-- A numeral consists of a sign, perhaps, and digits. -/
theorem toList_toString (n : ℤ) : (toString n).toList = Nat.toDigits 10 n.toNat ∧ 0 ≤ n ∨
    (toString n).toList = '-' :: Nat.toDigits 10 n.natAbs ∧ n < 0 := by
  cases n with
  | ofNat n => exact .inl ⟨Nat.toList_repr, Int.natCast_nonneg n⟩
  | negSucc n =>
    refine .inr ⟨?_, Int.negSucc_lt_zero n⟩
    show ("-" ++ (n + 1).repr).toList = _
    rw [String.toList_append, Nat.toList_repr]
    rfl

/-- The digits of a number are read one by one. -/
theorem foldlM_digits {cs : List Char} (h : ∀ c ∈ cs, c.isDigit = true) (n : ℕ) :
    cs.foldlM (fun n c => (digitValue c).map (10 * n + ·)) n = some (Nat.ofDigitChars 10 cs n) := by
  induction cs generalizing n with
  | nil => rfl
  | cons c cs ih =>
    have hc : digitValue c = some (c.toNat - '0'.toNat) := by
      have hdigit := h c List.mem_cons_self
      rw [Char.isDigit, Bool.and_eq_true, decide_eq_true_eq, decide_eq_true_eq] at hdigit
      exact if_pos hdigit
    rw [List.foldlM_cons, hc, Nat.ofDigitChars_cons]
    exact ih (fun d hd => h d (List.mem_cons_of_mem _ hd)) _

theorem natParse_toDigits (n : ℕ) : natParse (Nat.toDigits 10 n) = some n := by
  have hdigits : ∀ c ∈ Nat.toDigits 10 n, c.isDigit = true := fun c =>
    Nat.isDigit_of_mem_toDigits (by decide) (by decide)
  have hfold := foldlM_digits hdigits 0
  rw [Nat.ofDigitChars_ten_toDigits] at hfold
  cases hcs : Nat.toDigits 10 n with
  | nil => exact absurd hcs Nat.toDigits_ne_nil
  | cons c cs =>
    rw [← hfold, hcs]
    rfl

/-- `int.parse` reads what `toString` has written. -/
theorem intParse_toString {n : ℤ} (hl : -2 ^ 63 ≤ n) (hu : n < 2 ^ 63) :
    intParse (toString n) = some n := by
  obtain ⟨he, hn⟩ | ⟨he, hn⟩ := toList_toString n
  · rw [intParse_of_natParse (he ▸ natParse_toDigits n.toNat), if_pos (by omega),
      Int.toNat_of_nonneg hn]
  · have hparse := natParse_toDigits n.natAbs
    have hdigits := isSome_of_natParse hparse
    have hnil : Nat.toDigits 10 n.natAbs ≠ [] := Nat.toDigits_ne_nil
    have hleft : ('-' :: Nat.toDigits 10 n.natAbs).dropWhile isWhitespace =
        '-' :: Nat.toDigits 10 n.natAbs := List.dropWhile_cons_of_neg (by decide)
    have htrim : ('-' :: Nat.toDigits 10 n.natAbs).rdropWhile isWhitespace =
        '-' :: Nat.toDigits 10 n.natAbs := by
      rw [List.rdropWhile_eq_self_iff]
      intro hne
      rw [List.getLast_cons hnil]
      simp [isWhitespace_of_digit (hdigits _ (List.getLast_mem hnil))]
    have hval : -(n.natAbs : ℤ) = n := by omega
    rw [intParse, he, hleft, htrim]
    simp only [negativeParse, afterHexPrefix_of_digits hdigits, hparse, Option.bind_some]
    rw [if_pos (by omega), hval]

theorem intParse_natCast {n : ℕ} (h : n < 2 ^ 63) : intParse (toString n) = some (n : ℤ) := by
  have hn : toString (n : ℤ) = toString n := rfl
  exact hn ▸ intParse_toString (by omega) (by omega)

example : intParse "12" = some 12 := by decide
example : intParse " -0x1F " = some (-31) := by decide
example : intParse "1a" = none := by decide

end MapaZimSlupsk
