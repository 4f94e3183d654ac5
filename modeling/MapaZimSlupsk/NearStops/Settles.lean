import MapaZimSlupsk.Descent.Basic
import MapaZimSlupsk.NearStops.Nearest
import MapaZimSlupsk.NearStops.Page
import Mathlib.Data.Fintype.Pi
import Mathlib.Order.PiLex

/-!
# The list of nearest stops settles

An insertion writes a distance to the slot it takes that is smaller than the old one, or the slot
was free; the slots in front keep theirs.  So the distances, read from the first slot on and with a
free slot counted as infinitely far, only go down in the lexicographic order, wherever the user
walks.

* `NearList.rank` : the distances as they are compared.
* `NearStopsPage.list_never_returns` : **names and distances that have been replaced never come back
  together**, not even when the user comes back to where they were right.
* `NearStopsPage.changes_le` : **over finitely many positions the list changes only so often**,
  however long the page is open.

The distance 0 marks a free slot, so a user who stands exactly at the coordinates of a stop is left
out.
-/

namespace MapaZimSlupsk

namespace NearList

variable {δ : Type*} [LinearOrder δ] [Zero δ] {l : NearList δ} {i : Fin 4} {name : String} {d : δ}

/-- The distance of a slot, infinite if the slot is free. -/
def level (l : NearList δ) (i : Fin 4) : WithTop δ := if l.od i = 0 then ⊤ else l.od i

/-- The distances from the first slot on. -/
def rank (l : NearList δ) : Lex (Fin 4 → WithTop δ) := toLex l.level

theorem level_of_ne (h : l.od i ≠ 0) : l.level i = l.od i := if_neg h

/-- A slot that is taken is farther away. -/
theorem lt_level_of_takes (h : l.Takes d i) : (d : WithTop δ) < l.level i := by
  unfold level
  split_ifs with h0
  · exact WithTop.coe_lt_top d
  · exact WithTop.coe_lt_coe.2 (h.resolve_right h0)

/-- An insertion lowers the distances. -/
theorem rank_insertAt_lt (hs : l.slot d = some i) (hd : d ≠ 0) :
    (l.insertAt i name d).rank < l.rank := by
  refine ⟨i, fun j hj => ?_, ?_⟩
  · show (l.insertAt i name d).level j = l.level j
    simp only [level, insertAt_od_of_lt hj]
  · show (l.insertAt i name d).level i < l.level i
    rw [level_of_ne (by rwa [insertAt_od_self]), insertAt_od_self]
    exact lt_level_of_takes (slot_eq_some.1 hs).1

end NearList

/-- A snapshot leaves the list as it is or lowers its distances. -/
theorem nearStops_eq_or_rank_lt {δ : Type*} [LinearOrder δ] [Zero δ] {dist : Przystanek → δ}
    {docs : List Przystanek} (h : ∀ doc ∈ docs, dist doc ≠ 0) (l : NearList δ) :
    nearStops dist l docs = l ∨ (nearStops dist l docs).rank < l.rank := by
  induction docs generalizing l with
  | nil => exact .inl rfl
  | cons doc docs ih =>
    rw [nearStops_cons]
    have ih' := ih (fun p hp => h p (List.mem_cons_of_mem _ hp)) (l.nearStop doc.name (dist doc))
    obtain ⟨he, -⟩ | ⟨i, -, hs, he⟩ := NearList.nearStop_cases l doc.name (dist doc)
    · rwa [he] at ih' ⊢
    · have hlt : (l.nearStop doc.name (dist doc)).rank < l.rank := by
        rw [he]
        exact NearList.rank_insertAt_lt hs (h doc List.mem_cons_self)
      obtain he' | hlt' := ih'
      · exact .inr (he'.symm ▸ hlt)
      · exact .inr (hlt'.trans hlt)

theorem odleglosc_eq_zero_iff {sz dl : ℚ} {doc : Przystanek} :
    odleglosc sz dl doc = 0 ↔ (doc.lat, doc.lng) = (sz, dl) := by
  have hsq : odleglosc sz dl doc = 0 ↔ sz - doc.lat = 0 ∧ dl - doc.lng = 0 := by
    rw [Root.eq_zero_iff]
    simp only [odleglosc, Root.sqrtSumSq, abs_mul_abs_self]
    exact mul_self_add_mul_self_eq_zero
  rw [hsq, sub_eq_zero, sub_eq_zero, Prod.mk.injEq]
  exact ⟨fun h => ⟨h.1.symm, h.2.symm⟩, fun h => ⟨h.1.symm, h.2.symm⟩⟩

namespace NearStopsPage

variable {s t : NearStopsPage} {e : Event} {kol : List Przystanek}

/-- A position with an unanswered read has been reported. -/
theorem step_nearReads (h : s.step e = some t) {p : ℚ × ℚ} (hp : p ∈ t.nearReads) :
    p ∈ s.nearReads ∨ e = .position p := by
  cases effect_of_step h with
  | position q =>
    obtain hp | hp := List.mem_append.1 hp
    · exact .inl hp
    · exact .inr (List.eq_of_mem_replicate hp ▸ rfl)
  | near q docs near dirty hq hnear => exact .inl (List.mem_of_mem_erase hp)
  | geo _ _ _ _ _ _ _ _ _ heq =>
    rw [heq] at hp
    exact .inl hp
  | build | doc | tap | map | dispose => exact .inl hp

/-! ### A page that is never closed -/

section

variable {page : ℕ → NearStopsPage} {event : ℕ → Event}

/-- The answers of no read find the user at the exact coordinates of a stop. -/
def NeverAt (event : ℕ → Event) : Prop :=
  ∀ n p docs, event n = .near p docs → ∀ doc ∈ docs, (doc.lat, doc.lng) ≠ p

theorem near_falls (hstep : ∀ n, lts.step (page n) (event n) (page (n + 1)))
    (hat : NeverAt event) : Descent.Falls NearList.rank fun n => (page n).near := by
  intro n
  obtain he | ⟨p, docs, he, -, hnear⟩ := step_near (hstep n)
  · exact .inl he
  · simp only [hnear]
    refine nearStops_eq_or_rank_lt (fun doc hdoc h0 => ?_) _
    exact hat n p docs he doc hdoc (odleglosc_eq_zero_iff.1 h0)

/-- **The arrays never return to an earlier state**: if names and distances are the same at two times,
nothing has changed in between.  The same names may come back with other distances. -/
theorem list_never_returns (hstep : ∀ n, lts.step (page n) (event n) (page (n + 1)))
    (hat : NeverAt event) {m k n : ℕ} (hmk : m ≤ k) (hkn : k ≤ n)
    (he : (page n).near = (page m).near) : (page k).near = (page m).near :=
  (near_falls hstep hat).eq_of_eq he hmk hkn

/-- The distances that a user at one of the positions can see. -/
def levels (P : Finset (ℚ × ℚ)) (kol : List Przystanek) : Finset (WithTop Root) :=
  insert ⊤ ((P ×ˢ kol.toFinset).image fun q => ↑(odleglosc q.1.1 q.1.2 q.2))

theorem card_levels_le (P : Finset (ℚ × ℚ)) (kol : List Przystanek) :
    (levels P kol).card ≤ P.card * kol.length + 1 := by
  refine (Finset.card_insert_le _ _).trans (Nat.succ_le_succ ?_)
  refine Finset.card_image_le.trans ?_
  rw [Finset.card_product]
  exact Nat.mul_le_mul_left _ kol.toFinset_card_le

/-- Every slot is free or holds such a distance. -/
def Seen (P : Finset (ℚ × ℚ)) (kol : List Przystanek) (l : NearList Root) : Prop :=
  ∀ i, l.level i ∈ levels P kol

theorem seen_nearStops {P : Finset (ℚ × ℚ)} {p : ℚ × ℚ} (hp : p ∈ P) {docs : List Przystanek}
    (hdocs : ∀ doc ∈ docs, doc ∈ kol) {l : NearList Root} (h : Seen P kol l) :
    Seen P kol (nearStops (odleglosc p.1 p.2) l docs) := by
  refine List.foldlRecOn docs _ h fun l h doc hdoc => ?_
  refine NearList.nearStop_invariant h fun i _ _ j => ?_
  by_cases hj : j = i
  · subst hj
    unfold NearList.level
    rw [NearList.insertAt_od_self]
    split_ifs
    · exact Finset.mem_insert_self _ _
    · exact Finset.mem_insert_of_mem (Finset.mem_image.2
        ⟨(p, doc), Finset.mem_product.2 ⟨hp, List.mem_toFinset.2 (hdocs doc hdoc)⟩, rfl⟩)
  · unfold NearList.level
    rw [NearList.insertAt_od_of_ne hj]
    exact h (NearList.source i j)

/-- The answers hold documents of the collection, in any order. -/
def Within (kol : List Przystanek) (e : Event) : Prop :=
  ∀ docs, e.snapshot = some docs → ∀ doc ∈ docs, doc ∈ kol

/-- The user is always at one of the positions `P`, and the answers hold documents of the
collection. -/
structure Stays (P : Finset (ℚ × ℚ)) (kol : List Przystanek) (event : ℕ → Event) : Prop where
  position : ∀ n p, event n = .position p → p ∈ P
  answer : ∀ n, Within kol (event n)

variable {P : Finset (ℚ × ℚ)}

theorem Stays.docs (h : Stays P kol event) {n : ℕ} {p : ℚ × ℚ} {docs : List Przystanek}
    (he : event n = .near p docs) : ∀ doc ∈ docs, doc ∈ kol :=
  h.answer n docs (by rw [he]; rfl)

theorem Stays.nearReads (h : Stays P kol event) (hinit : page 0 = initial)
    (hstep : ∀ n, lts.step (page n) (event n) (page (n + 1))) (n : ℕ) :
    ∀ p ∈ (page n).nearReads, p ∈ P := by
  induction n with
  | zero =>
    rw [hinit]
    exact fun p hp => absurd hp List.not_mem_nil
  | succ n ih =>
    intro p hp
    obtain hp | he := step_nearReads (hstep n) hp
    · exact ih p hp
    · exact h.position n p he

theorem Stays.seen (h : Stays P kol event) (hinit : page 0 = initial)
    (hstep : ∀ n, lts.step (page n) (event n) (page (n + 1))) (n : ℕ) :
    Seen P kol (page n).near := by
  induction n with
  | zero =>
    rw [hinit]
    exact fun i => Finset.mem_insert_self _ _
  | succ n ih =>
    obtain he | ⟨p, docs, he, hp, hnear⟩ := step_near (hstep n)
    · rw [he]
      exact ih
    · rw [hnear]
      exact seen_nearStops (h.nearReads hinit hstep n p hp) (h.docs he) ih

/-- Whoever is never at a stop among these positions is not at one when an answer comes. -/
theorem Stays.neverAt (h : Stays P kol event) (hinit : page 0 = initial)
    (hstep : ∀ n, lts.step (page n) (event n) (page (n + 1)))
    (hat : ∀ p ∈ P, ∀ doc ∈ kol, (doc.lat, doc.lng) ≠ p) : NeverAt event := by
  intro n p docs he doc hdoc
  have hst := hstep n
  rw [he] at hst
  obtain ⟨hp, -⟩ := Option.ite_none_right_eq_some.1 hst
  exact hat p (h.nearReads hinit hstep n p hp) doc (h.docs he doc hdoc)

/-- **Over finitely many positions the list changes only so often**: with `N` the number of pairs of
a position and a stop, not more than `(N + 1) ^ 4` times. -/
theorem changes_le (hinit : page 0 = initial)
    (hstep : ∀ n, lts.step (page n) (event n) (page (n + 1))) (h : Stays P kol event)
    (hat : ∀ p ∈ P, ∀ doc ∈ kol, (doc.lat, doc.lng) ≠ p) :
    (Descent.changes fun n => (page n).near).encard ≤ ((P.card * kol.length + 1) ^ 4 : ℕ) := by
  -- the ranks are made of four of the distances
  have hranks : ∀ n, ofLex ((page n).near).rank ∈ Fintype.piFinset fun _ : Fin 4 => levels P kol :=
    fun n => Fintype.mem_piFinset.2 (h.seen hinit hstep n)
  have hcard : (Fintype.piFinset fun _ : Fin 4 => levels P kol).card ≤
      (P.card * kol.length + 1) ^ 4 := by
    rw [Fintype.card_piFinset_const]
    exact Nat.pow_le_pow_left (card_levels_le P kol) 4
  have hfalls := near_falls hstep (h.neverAt hinit hstep hat)
  exact (hfalls.encard_changes_le hranks).trans (Nat.cast_le.2 hcard)

end

/-! ### A visit -/

/-- The page is built, the position reported and the read for it answered; then the same position is
reported over and over. -/
def visit : ℕ → NearStopsPage
  | 0 => initial
  | 1 => initial.build
  | 2 => initial.build.onPosition (54.46, 17.03)
  | 3 => (initial.build.onPosition (54.46, 17.03)).onNear (54.46, 17.03) [dworzec, ratusz]
  | n + 4 => (visit (n + 3)).onPosition (54.46, 17.03)

@[inherit_doc visit]
def visitEvent : ℕ → Event
  | 0 => .build
  | 2 => .near (54.46, 17.03) [dworzec, ratusz]
  | _ => .position (54.46, 17.03)

theorem visit_step (n : ℕ) : lts.step (visit n) (visitEvent n) (visit (n + 1)) := by
  match n with
  | 0 => rfl
  | 1 => rfl
  | 2 =>
    refine if_pos ?_
    show (54.46, 17.03) ∈ (initial.build.onPosition (54.46, 17.03)).nearReads
    rw [onPosition_eq]
    exact List.mem_singleton_self _
  | n + 3 => rfl

theorem stays_visit : Stays {(54.46, 17.03)} [dworzec, ratusz] visitEvent := by
  refine ⟨fun n p he => ?_, fun n docs he => ?_⟩
  · unfold visitEvent at he
    split at he <;> cases he
    exact Finset.mem_singleton_self _
  · unfold visitEvent at he
    split at he <;> cases he
    exact fun _ => id

theorem neverAt_visit : NeverAt visitEvent :=
  stays_visit.neverAt rfl visit_step (by decide +kernel)

theorem visit_near (n : ℕ) : (visit (n + 3)).near = (visit 3).near := by
  induction n with
  | zero => rfl
  | succ n ih =>
    rw [← ih]
    show ((visit (n + 3)).onPosition (54.46, 17.03)).near = _
    rw [onPosition_eq]

/-- The list stays as the answer made it. -/
theorem list_never_returns_visit : (visit 5).near = (visit 3).near :=
  list_never_returns visit_step neverAt_visit (by decide) (by decide) (visit_near 4)

theorem changes_le_visit :
    (Descent.changes fun n => (visit n).near).encard ≤ ((1 * 2 + 1) ^ 4 : ℕ) :=
  changes_le rfl visit_step stays_visit (by decide +kernel)

end NearStopsPage

end MapaZimSlupsk
