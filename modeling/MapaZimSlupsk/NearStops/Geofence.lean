import MapaZimSlupsk.NearStops.Nearest
import MapaZimSlupsk.NearStops.Page

/-!
# The geofence

A build reads `Przystanki`; the callback of this read sets, document by document, the flag of the
stop in `x`, takes for `y` the highest flag that is set, and asks for the document `y` or writes
"brak".

* `NearStopsPage.flagsAfter`, `NearStopsPage.ys` : the flags and the values of `y`, as functions of
  the position, the old flags and the documents.
* `NearStopsPage.geofence_eq` : what a callback does that processes every document.
* `NearStopsPage.completes_iff_ready` : **main result**: every callback of a run processes every
  document exactly if each that has one comes after the first position and has numbers below 12
  only.
-/

namespace MapaZimSlupsk

namespace NearStopsPage

variable {s t : NearStopsPage} {e : Event} {ls : List Event} {docs : List Przystanek}
  {doc : Przystanek} {p : ℚ × ℚ} {x : Fin 12 → ℕ} {i : Fin 12} {y : ℕ}

/-! ### The flags -/

/-- The flags after a document. -/
def setFlag (p : ℚ × ℚ) (x : Fin 12 → ℕ) (doc : Przystanek) : Fin 12 → ℕ :=
  match flag doc.docId with
  | .ok i => Function.update x i (if InBox p doc then 1 else 0)
  | .error _ => x

/-- The flags after the documents of an answer. -/
def flagsAfter (p : ℚ × ℚ) (x : Fin 12 → ℕ) (docs : List Przystanek) : Fin 12 → ℕ :=
  docs.foldl (setFlag p) x

/-- The values of `y`, document by document. -/
def ys (p : ℚ × ℚ) : (Fin 12 → ℕ) → List Przystanek → List ℕ
  | _, [] => []
  | x, doc :: docs => lastFlag (setFlag p x doc) :: ys p (setFlag p x doc) docs

/-- A flag is a number from 0 to 11. -/
theorem flag_eq_ok {docId : String} : flag docId = .ok i ↔ intParse docId = some (i.val : ℤ) := by
  unfold flag
  split
  · simp [*]
  · rename_i n hn
    rw [hn, Option.some.injEq]
    split_ifs with h
    · rw [Except.ok.injEq, Fin.ext_iff]
      show n.toNat = i.val ↔ n = i.val
      omega
    · rw [iff_false_left nofun]
      omega

/-- Every value of `y` is the highest flag after some documents. -/
theorem mem_ys : y ∈ ys p x docs ↔
    ∃ pre, pre ≠ [] ∧ pre <+: docs ∧ lastFlag (flagsAfter p x pre) = y := by
  induction docs generalizing x with
  | nil => simp [ys]
  | cons doc docs ih =>
    rw [ys, List.mem_cons, ih]
    constructor
    · rintro (rfl | ⟨pre, -, hpre, rfl⟩)
      · exact ⟨[doc], by simp, by simp, rfl⟩
      · exact ⟨doc :: pre, by simp, by simpa using hpre, rfl⟩
    · rintro ⟨pre, hne, hpre, rfl⟩
      obtain ⟨pre', rfl, hpre'⟩ := (List.prefix_cons_iff.1 hpre).resolve_left hne
      by_cases hnil : pre' = []
      · subst hnil
        exact .inl rfl
      · exact .inr ⟨pre', hnil, hpre', rfl⟩

/-! ### A callback -/

/-- What a document does to the page while it is open. -/
theorem geoStop_eq (hd : s.disposed = false) (hp : s.position = some p)
    (hi : flag doc.docId = .ok i) :
    ∃ dirty, s.geoStop doc = .ok { s with
      x := setFlag p s.x doc
      docReads := s.docReads ++ [lastFlag (setFlag p s.x doc)].filter (· ≠ 0)
      nazwa := if lastFlag (setFlag p s.x doc) = 0 then "brak" else s.nazwa
      dirty := dirty } := by
  have hx : setFlag p s.x doc = Function.update s.x i (if InBox p doc then 1 else 0) := by
    simp only [setFlag, hi]
  unfold geoStop setState
  simp only [hp, hi, ← hx, hd, Bool.false_eq_true, ↓reduceIte]
  by_cases hy : lastFlag (setFlag p s.x doc) = 0
  · exact ⟨true, by simp [hy]⟩
  · exact ⟨s.dirty, by simp [hy]⟩

/-- **What a callback does** that finds the page open, the position set and only slots of `x`. -/
theorem geofence_eq (hd : s.disposed = false) (hp : s.position = some p)
    (hflag : ∀ doc ∈ docs, ∃ i, flag doc.docId = .ok i) :
    ∃ dirty, s.geofence docs = .ok { s with
      x := flagsAfter p s.x docs
      docReads := s.docReads ++ (ys p s.x docs).filter (· ≠ 0)
      nazwa := if 0 ∈ ys p s.x docs then "brak" else s.nazwa
      dirty := dirty } := by
  induction docs generalizing s with
  | nil =>
    refine ⟨s.dirty, ?_⟩
    simp [geofence, flagsAfter, ys, pure, Except.pure]
  | cons doc docs ih =>
    obtain ⟨⟨i, hi⟩, hflag⟩ := List.forall_mem_cons.1 hflag
    obtain ⟨dirty, he⟩ := s.geoStop_eq hd hp hi
    rw [geofence_cons, he]
    obtain ⟨dirty', he'⟩ := ih (s := { s with
      x := setFlag p s.x doc
      docReads := s.docReads ++ [lastFlag (setFlag p s.x doc)].filter (· ≠ 0)
      nazwa := if lastFlag (setFlag p s.x doc) = 0 then "brak" else s.nazwa
      dirty := dirty }) hd hp hflag
    refine ⟨dirty', he'.trans ?_⟩
    by_cases hy : lastFlag (setFlag p s.x doc) = 0
    · simp [flagsAfter, ys, hy]
    · simp [flagsAfter, ys, hy, Ne.symm hy]

/-! ### Callbacks that process every document -/

/-- The callback processes every document. -/
def Completes (s : NearStopsPage) (e : Event) : Prop :=
  ∀ docs, e = .geo docs → ∃ t, geofence { s with geoReads := s.geoReads - 1 } docs = .ok t

/-- A callback with documents finds the position set and numbers below 12. -/
def Ready (s : NearStopsPage) (e : Event) : Prop :=
  ∀ docs, e = .geo docs → docs = [] ∨ (s.position ≠ none ∧
    ∀ doc ∈ docs, ∃ n < 12, natParse doc.docId.toList = some n)

/-- The answers hold documents whose ids are positive decimal numbers. -/
def DecimalIds (e : Event) : Prop :=
  ∀ docs, e.snapshot = some docs →
    ∀ doc ∈ docs, ∃ n, 0 < n ∧ natParse doc.docId.toList = some n

/-- The page while it is open, over collections with such ids. -/
def openLts : Lts NearStopsPage Event := lts.guard fun _ e => e ≠ .dispose ∧ DecimalIds e

theorem flag_ok_of_natParse {docId : String} {n : ℕ} (h : natParse docId.toList = some n) :
    (∃ i, flag docId = .ok i) ↔ n < 12 := by
  simp only [flag_eq_ok, intParse_of_natParse h]
  constructor
  · rintro ⟨i, hi⟩
    split_ifs at hi with hlt
    have := Option.some.inj hi
    omega
  · intro hn
    refine ⟨⟨n, hn⟩, ?_⟩
    rw [if_pos (by omega)]

/-- A callback that processes every document finds what each of them needs. -/
theorem ready_of_geofence (h : s.geofence docs = .ok t) :
    docs = [] ∨ (s.position ≠ none ∧ ∀ doc ∈ docs, ∃ i, flag doc.docId = .ok i) := by
  induction docs generalizing s with
  | nil => exact .inl rfl
  | cons doc docs ih =>
    rw [geofence_cons] at h
    cases hg : s.geoStop doc with
    | error e => simp [hg] at h
    | ok u =>
      rw [hg] at h
      have hfirst : s.position ≠ none ∧ ∃ i, flag doc.docId = .ok i := by
        unfold geoStop at hg
        split at hg
        · cases hg
        · rename_i p hp
          split at hg
          · cases hg
          · rename_i i hi
            exact ⟨by simp [hp], i, hi⟩
      refine .inr ⟨hfirst.1, List.forall_mem_cons.2 ⟨hfirst.2, fun d hd => ?_⟩⟩
      rcases ih h with rfl | ⟨-, hflag⟩
      · cases hd
      · exact hflag d hd

/-- **A callback on an open page** processes every document exactly if it is ready for each. -/
theorem geofence_ok_iff (hd : s.disposed = false) :
    (∃ t, s.geofence docs = .ok t) ↔
      docs = [] ∨ (s.position ≠ none ∧ ∀ doc ∈ docs, ∃ i, flag doc.docId = .ok i) := by
  constructor
  · rintro ⟨t, h⟩
    exact ready_of_geofence h
  · rintro (rfl | ⟨hpos, hflag⟩)
    · exact ⟨s, rfl⟩
    · obtain ⟨p, hp⟩ := Option.ne_none_iff_exists'.1 hpos
      obtain ⟨dirty, he⟩ := s.geofence_eq hd hp hflag
      exact ⟨_, he⟩

/-- **No callback aborts midway** in a run of the open page exactly if every callback that has a
document comes after the first position and all its numbers are slots of `x`. -/
theorem completes_iff_ready (ls : List Event) (t : NearStopsPage) :
    (openLts.guard Completes).Run initial ls t ↔ (openLts.guard Ready).Run initial ls t := by
  refine Lts.guard_run_iff_guard_run (J := fun s => s.disposed = false) rfl ?_ ?_
  · rintro s e u hd ⟨⟨hne, -⟩, hst⟩
    exact ((effect_of_step hst).disposed hne).trans hd
  · rintro s e u hd ⟨⟨-, hids⟩, -⟩
    refine forall_congr' fun docs => ?_
    constructor
    · rintro h rfl
      have hready := (geofence_ok_iff (s := { s with geoReads := s.geoReads - 1 }) hd).1 (h rfl)
      refine hready.imp_right fun ⟨hpos, hflag⟩ => ⟨hpos, fun doc hdoc => ?_⟩
      obtain ⟨n, -, hn⟩ := hids docs rfl doc hdoc
      exact ⟨n, (flag_ok_of_natParse hn).1 (hflag doc hdoc), hn⟩
    · rintro h rfl
      refine (geofence_ok_iff (s := { s with geoReads := s.geoReads - 1 }) hd).2
        ((h rfl).imp_right fun ⟨hpos, hnum⟩ => ⟨hpos, fun doc hdoc => ?_⟩)
      obtain ⟨n, hlt, hn⟩ := hnum doc hdoc
      exact (flag_ok_of_natParse hn).2 hlt

/-- The answer comes before the first position. -/
theorem completes_violated : ¬ ∀ ls t, openLts.Run initial ls t →
    (openLts.guard Completes).Run initial ls t := by
  intro h
  have hids : DecimalIds (.geo [dworzec]) := by
    intro docs hdocs doc hdoc
    obtain rfl := Option.some.inj hdocs
    rw [List.mem_singleton.1 hdoc]
    exact ⟨1, by decide⟩
  have hbuild : openLts.Run initial [.build] initial.build := .single ⟨⟨nofun, nofun⟩, rfl⟩
  have hgeo : openLts.Run initial ([.build] ++ [.geo [dworzec]])
      (initial.build.onGeo [dworzec]) := .snoc hbuild ⟨⟨nofun, hids⟩, rfl⟩
  obtain ⟨s, hs, hc, -⟩ := (h _ _ hgeo).exists_of_snoc
  have hs : (openLts.guard Completes).Run initial ([] ++ [.build]) s := hs
  obtain ⟨s₀, hs₀, -, -, hst⟩ := hs.exists_of_snoc
  obtain rfl := hs₀.eq_of_nil
  cases hst
  obtain ⟨t, ht⟩ := hc [dworzec] rfl
  cases ht

end NearStopsPage

end MapaZimSlupsk
