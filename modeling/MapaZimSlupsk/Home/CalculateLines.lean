import MapaZimSlupsk.Home.Handler
import MapaZimSlupsk.Lts.Basic

/-!
# One run of `calculateLines`

A call of `calculateLines` has its own lists `A`, `B`, `C`, its own flag `zrobione` and its own
index variables, shared by the closures it starts:

* the answer to its read of `Przystanki` runs one asynchronous closure per document, each up to
  its first `await` (`Calculation.onPrzystanek`, `Calculation.onPrzystanki`);
* a closure that passes the guard appends to `C`, issues the reads of the first line of `C` and is
  suspended for 500 ms; a `cursor` is the loop counter of a suspended closure;
* when the wait expires the closure goes on with the next line of `C`, or leaves the loop and sets
  `zrobione` (`Calculation.resume`).

`Calculation.lts` is the system of the waits of one run, in any order.  `Calculation.Covered` is
the invariant behind completeness: every place of `C` has been asked for, or some suspended
closure has yet to come to it.
-/

namespace MapaZimSlupsk

/-- A read of a route: the loop counter `i` and the direction `j` that its handler captures, and
the line in its path. -/
structure RouteRead where
  i : ℕ
  j : ℕ
  line : String
  deriving DecidableEq, Repr

/-- The variables of a call of `calculateLines`, and what it is waiting for. -/
structure Calculation where
  vars : IndexVars := {}
  A : List String := []
  B : List String := []
  C : List String := []
  zrobione : Bool := false
  /-- The read of `Przystanki` is not answered yet. -/
  waiting : Bool := false
  /-- The loop counters of the closures suspended in the wait of 500 ms. -/
  cursors : List ℕ := []
  /-- The reads of routes issued so far. -/
  issued : List RouteRead := []
  /-- Those of them that are not answered yet. -/
  pending : List RouteRead := []
  deriving DecidableEq, Repr

namespace Calculation

/-! ### The closures -/

/-- The elements of `A` that the double loop over `A` and `B` appends to `C`. -/
def common (A B : List String) : List String :=
  A.flatMap fun a => B.filterMap fun b => if a = b then some a else none

/-- Issue the read of direction `j` of `line`, then reset the index variables. -/
def issue (i : ℕ) (line : String) (c : Calculation) (j : ℕ) : Calculation :=
  { c with
    issued := c.issued ++ [⟨i, j, line⟩]
    pending := c.pending ++ [⟨i, j, line⟩]
    vars := c.vars.reset }

/-- The loop over `C` at the counter `i`: issue both reads and suspend at `i`, or leave the loop. -/
def iterate (c : Calculation) (i : ℕ) : Calculation × Option ℕ :=
  match c.C[i]? with
  | some line => ([1, 2].foldl (issue i line) c, some i)
  | none => ({ c with zrobione := true }, none)

/-- Set `A` and `B` from a document of a selected stop. -/
def assign (id1 id2 : ℤ) (c : Calculation) (doc : Przystanek) : Calculation :=
  let c := if doc.id = id1 then { c with A := doc.linie } else c
  if doc.id = id2 then { c with B := doc.linie } else c

/-- The guard in front of the loops. -/
def Guard (c : Calculation) : Prop := c.A.length ≠ 0 ∧ c.B.length ≠ 0 ∧ c.zrobione = false

instance (c : Calculation) : Decidable c.Guard := by unfold Guard; infer_instance

/-- The guarded block, up to its first `await`. -/
def enter (c : Calculation) : Calculation :=
  let c := { c with C := c.C ++ common c.A c.B }
  let (c, cursor) := c.iterate 0
  { c with cursors := c.cursors ++ cursor.toList }

/-- The closure of one document of `Przystanki`, up to its first `await`. -/
def onPrzystanek (id1 id2 : ℤ) (c : Calculation) (doc : Przystanek) : Calculation :=
  let c := c.assign id1 id2 doc
  if c.Guard then c.enter else c

/-- The closures of all documents: `forEach` starts every one before any of them resumes. -/
def onPrzystanki (id1 id2 : ℤ) (c : Calculation) (docs : List Przystanek) : Calculation :=
  docs.foldl (onPrzystanek id1 id2) c

/-- The wait of the `k`-th suspended closure expires. -/
def resume (c : Calculation) (k : ℕ) : Option Calculation :=
  match c.cursors[k]? with
  | none => none
  | some i =>
    let (c, cursor) := c.iterate (i + 1)
    some { c with cursors := c.cursors.eraseIdx k ++ cursor.toList }

/-- The system of the waits of one run. -/
def lts : Lts Calculation ℕ := .ofFun resume

/-- The run as it stands after the answer to its read of `Przystanki`. -/
def start (id1 id2 : ℤ) (docs : List Przystanek) : Calculation :=
  onPrzystanki id1 id2 {} docs

/-- No closure has a step left. -/
def Finished (c : Calculation) : Prop := c.waiting = false ∧ c.cursors = []

instance (c : Calculation) : Decidable c.Finished := by unfold Finished; infer_instance

/-! ### What each step does -/

variable {c c' : Calculation} {id1 id2 : ℤ} {doc : Przystanek} {docs : List Przystanek} {i k : ℕ}
  {line : String}

@[simp] theorem mem_common {A B : List String} : line ∈ common A B ↔ line ∈ A ∧ line ∈ B := by
  simp only [common, List.mem_flatMap, List.mem_filterMap]
  constructor
  · rintro ⟨a, ha, b, hb, h⟩
    split_ifs at h with hab
    cases h
    exact ⟨ha, hab ▸ hb⟩
  · exact fun ⟨ha, hb⟩ => ⟨line, ha, line, hb, if_pos rfl⟩

theorem iterate_of_some (h : c.C[i]? = some line) :
    c.iterate i = ({ c with
      issued := c.issued ++ [⟨i, 1, line⟩, ⟨i, 2, line⟩]
      pending := c.pending ++ [⟨i, 1, line⟩, ⟨i, 2, line⟩]
      vars := c.vars.reset }, some i) := by
  simp only [iterate, h, issue, List.foldl_cons, List.foldl_nil, List.append_assoc,
    List.cons_append, List.nil_append, IndexVars.reset]

theorem iterate_of_none (h : c.C[i]? = none) :
    c.iterate i = ({ c with zrobione := true }, none) := by
  simp only [iterate, h]

theorem assign_eq : c.assign id1 id2 doc = { c with
    A := if doc.id = id1 then doc.linie else c.A
    B := if doc.id = id2 then doc.linie else c.B } := by
  unfold assign
  split_ifs <;> rfl

/-- The guarded block appends to `C` and asks for its first line, if there is one. -/
theorem enter_cases (c : Calculation) :
    (∃ line, (c.C ++ common c.A c.B)[0]? = some line ∧
      c.enter = { c with
        C := c.C ++ common c.A c.B
        issued := c.issued ++ [⟨0, 1, line⟩, ⟨0, 2, line⟩]
        pending := c.pending ++ [⟨0, 1, line⟩, ⟨0, 2, line⟩]
        vars := c.vars.reset
        cursors := c.cursors ++ [0] }) ∨
    (c.C ++ common c.A c.B = [] ∧
      c.enter = { c with C := [], zrobione := true }) := by
  cases h : (c.C ++ common c.A c.B)[0]? with
  | some line =>
    refine .inl ⟨line, rfl, ?_⟩
    simp only [enter]
    rw [iterate_of_some h]
    rfl
  | none =>
    have hnil : c.C ++ common c.A c.B = [] := by
      simpa [List.getElem?_eq_none_iff] using h
    refine .inr ⟨hnil, ?_⟩
    simp only [enter]
    rw [iterate_of_none h]
    simp [hnil]

theorem resume_of_some (hi : c.cursors[k]? = some i) (hline : c.C[i + 1]? = some line) :
    c.resume k = some { c with
      issued := c.issued ++ [⟨i + 1, 1, line⟩, ⟨i + 1, 2, line⟩]
      pending := c.pending ++ [⟨i + 1, 1, line⟩, ⟨i + 1, 2, line⟩]
      vars := c.vars.reset
      cursors := c.cursors.eraseIdx k ++ [i + 1] } := by
  simp only [resume, hi]
  rw [iterate_of_some hline]
  rfl

theorem resume_of_none (hi : c.cursors[k]? = some i) (hline : c.C[i + 1]? = none) :
    c.resume k = some { c with zrobione := true, cursors := c.cursors.eraseIdx k } := by
  simp only [resume, hi]
  rw [iterate_of_none hline]
  simp

/-- A resumed closure asks for the next line of `C`, or is done. -/
theorem resume_cases (h : c.resume k = some c') : ∃ i, c.cursors[k]? = some i ∧
    ((∃ line, c.C[i + 1]? = some line ∧
      c' = { c with
        issued := c.issued ++ [⟨i + 1, 1, line⟩, ⟨i + 1, 2, line⟩]
        pending := c.pending ++ [⟨i + 1, 1, line⟩, ⟨i + 1, 2, line⟩]
        vars := c.vars.reset
        cursors := c.cursors.eraseIdx k ++ [i + 1] }) ∨
    (c.C[i + 1]? = none ∧
      c' = { c with zrobione := true, cursors := c.cursors.eraseIdx k })) := by
  cases hi : c.cursors[k]? with
  | none => simp [resume, hi] at h
  | some i =>
    refine ⟨i, rfl, ?_⟩
    cases hline : c.C[i + 1]? with
    | some line =>
      rw [resume_of_some hi hline] at h
      exact .inl ⟨line, rfl, (Option.some.inj h).symm⟩
    | none =>
      rw [resume_of_none hi hline] at h
      exact .inr ⟨rfl, (Option.some.inj h).symm⟩

/-- A wait can expire exactly if there is such a closure: there is always a next step for it. -/
theorem resume_eq_none_iff : c.resume k = none ↔ c.cursors.length ≤ k := by
  rw [← List.getElem?_eq_none_iff]
  cases hi : c.cursors[k]? with
  | none => simp [resume, hi]
  | some i =>
    cases hline : c.C[i + 1]? with
    | some line => simp [resume_of_some hi hline]
    | none => simp [resume_of_none hi hline]

/-- A run has finished exactly if its read is answered and no wait can expire. -/
theorem finished_iff : c.Finished ↔ c.waiting = false ∧ ∀ k, c.resume k = none := by
  simp only [Finished, resume_eq_none_iff]
  refine and_congr_right fun _ => ⟨fun h k => h ▸ Nat.zero_le k, fun h => ?_⟩
  exact List.length_eq_zero_iff.1 (Nat.le_zero.1 (h 0))

end Calculation

end MapaZimSlupsk
