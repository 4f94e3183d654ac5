import MapaZimSlupsk.Firestore.Documents
import MapaZimSlupsk.Sort.Bubble

/-!
# The answer handler of the route planner

`calculateLines` asks for the two directions of every line that serves both selected stops.  The
answers are handled by one closure per document, which shares four index variables with all the
other answers of the run:

* `IndexVars` : the shared variables; `IndexVars.record` is the update by one document and
  `IndexVars.Matches` the test made after it.
* `handleStop`, `handleRoute` : the closure of one document, and a whole answer.

A document of the direction `j` either overwrites an index with its own `l` or leaves it as it
was, perhaps from an earlier answer.  `Passes` says that the test holds after some document of an
answer, and `handleRoute_of_passes` says what an answer then does to the list `D`.
-/

namespace MapaZimSlupsk

/-! ### The index variables -/

/-- The variables of a run of `calculateLines` that its answer handlers share. -/
structure IndexVars where
  indeks1 : ℤ := 0
  indeks2 : ℤ := 0
  kierunek1 : ℕ := 0
  kierunek2 : ℕ := 0
  nazwa1 : String := ""
  nazwa2 : String := ""
  deriving DecidableEq, Repr

namespace IndexVars

/-- The assignments that follow the issue of a read. -/
def reset (v : IndexVars) : IndexVars :=
  { v with indeks1 := 0, indeks2 := 0, kierunek1 := 0, kierunek2 := 0 }

/-- A document of the direction `j` is the first stop: note where it stands. -/
def record1 (id1 : ℤ) (j : ℕ) (v : IndexVars) (doc : RouteStop) : IndexVars :=
  if doc.id = toString id1 then
    { v with indeks1 := doc.l, nazwa1 := doc.n, kierunek1 := j }
  else v

/-- A document of the direction `j` is the second stop: note where it stands. -/
def record2 (id2 : ℤ) (j : ℕ) (v : IndexVars) (doc : RouteStop) : IndexVars :=
  if doc.id = toString id2 then
    { v with indeks2 := doc.l, nazwa2 := doc.n, kierunek2 := j }
  else v

/-- The update of the index variables by one document of the direction `j`. -/
def record (id1 id2 : ℤ) (j : ℕ) (v : IndexVars) (doc : RouteStop) : IndexVars :=
  record2 id2 j (record1 id1 j v doc) doc

/-- The part of the test that reads the index variables. -/
def Matches (v : IndexVars) : Prop :=
  v.indeks1 < v.indeks2 ∧ v.indeks1 ≠ 0 ∧ v.indeks2 ≠ 0 ∧ v.kierunek1 = v.kierunek2 ∧
    v.kierunek1 ≠ 0 ∧ v.kierunek2 ≠ 0

instance (v : IndexVars) : Decidable v.Matches := by unfold Matches; infer_instance

/-- Where the first stop was last seen. -/
def first (v : IndexVars) : ℤ × ℕ := (v.indeks1, v.kierunek1)

/-- Where the second stop was last seen. -/
def second (v : IndexVars) : ℤ × ℕ := (v.indeks2, v.kierunek2)

variable {id1 id2 : ℤ} {j : ℕ} {v : IndexVars} {doc : RouteStop}

theorem first_record_of_eq (v : IndexVars) (doc : RouteStop) (h : doc.id = toString id1) :
    (v.record id1 id2 j doc).first = (doc.l, j) := by
  unfold record record1 record2 first
  split_ifs <;> rfl

theorem first_record_of_ne (v : IndexVars) (doc : RouteStop) (h : doc.id ≠ toString id1) :
    (v.record id1 id2 j doc).first = v.first := by
  unfold record record1 record2 first
  split_ifs <;> rfl

theorem second_record_of_eq (v : IndexVars) (doc : RouteStop) (h : doc.id = toString id2) :
    (v.record id1 id2 j doc).second = (doc.l, j) := by
  unfold record record2 second
  rw [if_pos h]

theorem second_record_of_ne (v : IndexVars) (doc : RouteStop) (h : doc.id ≠ toString id2) :
    (v.record id1 id2 j doc).second = v.second := by
  unfold record record1 record2 second
  rw [if_neg h]
  split_ifs <;> rfl

/-- The test reads the two places only. -/
theorem matches_congr {w : IndexVars} (h1 : w.first = v.first) (h2 : w.second = v.second) :
    w.Matches ↔ v.Matches := by
  simp only [first, second, Prod.mk.injEq] at h1 h2
  simp only [Matches, h1, h2]

/-- The index variables after all documents of an answer. -/
def recordAll (id1 id2 : ℤ) (j : ℕ) (v : IndexVars) (docs : List RouteStop) : IndexVars :=
  docs.foldl (record id1 id2 j) v

@[simp] theorem recordAll_nil : v.recordAll id1 id2 j [] = v := rfl

@[simp] theorem recordAll_cons {docs : List RouteStop} :
    v.recordAll id1 id2 j (doc :: docs) = (v.record id1 id2 j doc).recordAll id1 id2 j docs := rfl

end IndexVars

/-! ### Handling an answer -/

/-- What the handlers of an answer read and write. -/
structure HandlerState where
  vars : IndexVars
  /-- The lines shown to the user. -/
  D : List ℤ
  /-- The calls of `setState` made after the disposal of the page. -/
  lateSetStates : ℕ := 0
  deriving DecidableEq, Repr

/-- The number that the condition of the handler lets through: the test on the index variables
holds and the line is not listed.  A name without a number ends the closure by an exception. -/
def newLine (line : String) (v : IndexVars) (D : List ℤ) : Option ℤ :=
  if v.Matches then (intParse line).filter fun n => !D.contains n else none

/-- The closure run on one document of the answer for direction `j` of `line`. -/
def handleStop (mounted : Bool) (id1 id2 : ℤ) (j : ℕ) (line : String) (h : HandlerState)
    (doc : RouteStop) : HandlerState :=
  let h := { h with vars := h.vars.record id1 id2 j doc }
  match newLine line h.vars h.D with
  | none => h
  | some n =>
    if mounted then { h with D := Bubble.sort (h.D ++ [n]) }
    -- `setState` throws, which ends the closure of this document only
    else { h with lateSetStates := h.lateSetStates + 1 }

/-- The whole answer for direction `j` of `line`. -/
def handleRoute (mounted : Bool) (id1 id2 : ℤ) (j : ℕ) (line : String) (h : HandlerState)
    (docs : List RouteStop) : HandlerState :=
  docs.foldl (handleStop mounted id1 id2 j line) h

/-- The test on the index variables holds after some document of the answer. -/
def Passes (id1 id2 : ℤ) (j : ℕ) : IndexVars → List RouteStop → Prop
  | _, [] => False
  | v, doc :: docs =>
    (v.record id1 id2 j doc).Matches ∨ Passes id1 id2 j (v.record id1 id2 j doc) docs

/-- The documents of a route hold the first stop in front of the second. -/
def Goes (docs : List RouteStop) (id1 id2 : ℤ) : Prop :=
  ∃ p ∈ docs, ∃ q ∈ docs, p.id = toString id1 ∧ q.id = toString id2 ∧ p.l < q.l

section

variable {mounted : Bool} {id1 id2 : ℤ} {j : ℕ} {line : String} {h : HandlerState}
  {v : IndexVars} {docs : List RouteStop}

@[simp] theorem handleRoute_cons {doc : RouteStop} :
    handleRoute mounted id1 id2 j line h (doc :: docs) =
      handleRoute mounted id1 id2 j line (handleStop mounted id1 id2 j line h doc) docs := rfl

@[simp] theorem handleStop_vars {doc : RouteStop} :
    (handleStop mounted id1 id2 j line h doc).vars = h.vars.record id1 id2 j doc := by
  simp only [handleStop]
  split
  · rfl
  · split_ifs <;> rfl

@[simp] theorem handleRoute_vars :
    (handleRoute mounted id1 id2 j line h docs).vars = h.vars.recordAll id1 id2 j docs := by
  induction docs generalizing h with
  | nil => rfl
  | cons doc docs ih => simp [ih]

theorem newLine_eq_some {D : List ℤ} {n : ℤ} :
    newLine line v D = some n ↔ v.Matches ∧ intParse line = some n ∧ n ∉ D := by
  unfold newLine
  split_ifs with hm <;> simp [hm, Option.filter_eq_some_iff]

theorem handleStop_of_none {doc : RouteStop}
    (hn : newLine line (h.vars.record id1 id2 j doc) h.D = none) :
    handleStop mounted id1 id2 j line h doc =
      { h with vars := h.vars.record id1 id2 j doc } := by
  simp only [handleStop, hn]

/-- An answer that brings no new line changes the index variables only. -/
theorem handleRoute_of_not_passes
    (hn : ∀ n, intParse line = some n → n ∈ h.D ∨ ¬ Passes id1 id2 j h.vars docs) :
    handleRoute mounted id1 id2 j line h docs =
      { h with vars := h.vars.recordAll id1 id2 j docs } := by
  induction docs generalizing h with
  | nil => rfl
  | cons doc docs ih =>
    have hnone : newLine line (h.vars.record id1 id2 j doc) h.D = none := by
      refine Option.eq_none_iff_forall_ne_some.2 fun n hs => ?_
      obtain ⟨hm, hp, hD⟩ := newLine_eq_some.1 hs
      exact (hn n hp).elim hD fun h' => h' (.inl hm)
    rw [handleRoute_cons, handleStop_of_none hnone, ih fun n hp => ?_, IndexVars.recordAll_cons]
    exact (hn n hp).imp_right fun h' hps => h' (.inr hps)

/-- **An answer that brings a new line inserts it**, once, into the list of a mounted page. -/
theorem handleRoute_of_passes {n : ℤ} (hn : intParse line = some n) (hD : n ∉ h.D)
    (hp : Passes id1 id2 j h.vars docs) :
    handleRoute true id1 id2 j line h docs =
      { h with vars := h.vars.recordAll id1 id2 j docs, D := Bubble.sort (h.D ++ [n]) } := by
  induction docs generalizing h with
  | nil => exact hp.elim
  | cons doc docs ih =>
    rw [handleRoute_cons, IndexVars.recordAll_cons]
    by_cases hm : (h.vars.record id1 id2 j doc).Matches
    · have he : handleStop true id1 id2 j line h doc =
          { h with vars := h.vars.record id1 id2 j doc, D := Bubble.sort (h.D ++ [n]) } := by
        simp only [handleStop, newLine_eq_some.2 ⟨hm, hn, hD⟩, ↓reduceIte]
      -- the rest of the answer finds the line listed
      rw [he, handleRoute_of_not_passes fun m hm' => .inl ?_]
      rw [hn, Option.some.injEq] at hm'
      simp [hm']
    · have hnone : newLine line (h.vars.record id1 id2 j doc) h.D = none := by simp [newLine, hm]
      rw [handleStop_of_none hnone,
        ih (h := { h with vars := h.vars.record id1 id2 j doc }) hD (hp.resolve_left hm)]

theorem le_lateSetStates_handleRoute : h.lateSetStates ≤
    (handleRoute mounted id1 id2 j line h docs).lateSetStates := by
  induction docs generalizing h with
  | nil => exact le_rfl
  | cons doc docs ih =>
    refine le_trans ?_ ih
    simp only [handleStop]
    split
    · exact le_rfl
    · split_ifs
      · exact le_rfl
      · exact Nat.le_succ _

theorem lateSetStates_handleRoute_of_mounted :
    (handleRoute true id1 id2 j line h docs).lateSetStates = h.lateSetStates := by
  induction docs generalizing h with
  | nil => rfl
  | cons doc docs ih =>
    rw [handleRoute_cons, ih]
    simp only [handleStop]
    split <;> rfl

/-- After disposal an answer that brings a new line calls `setState`. -/
theorem lateSetStates_lt_of_passes {n : ℤ} (hn : intParse line = some n) (hD : n ∉ h.D)
    (hp : Passes id1 id2 j h.vars docs) :
    h.lateSetStates < (handleRoute false id1 id2 j line h docs).lateSetStates := by
  induction docs generalizing h with
  | nil => exact hp.elim
  | cons doc docs ih =>
    rw [handleRoute_cons]
    by_cases hm : (h.vars.record id1 id2 j doc).Matches
    · refine lt_of_lt_of_le ?_ le_lateSetStates_handleRoute
      simp [handleStop, newLine_eq_some.2 ⟨hm, hn, hD⟩]
    · have hnone : newLine line (h.vars.record id1 id2 j doc) h.D = none := by simp [newLine, hm]
      rw [handleStop_of_none hnone]
      exact ih (h := { h with vars := h.vars.record id1 id2 j doc }) hD (hp.resolve_left hm)

end

end MapaZimSlupsk
