import MapaZimSlupsk.NearStops.Arrays
import MapaZimSlupsk.NearStops.Settles

/-!
# The rows of the nearest stops

What the rows show in every run, whatever the order of the documents and of the answers:

* `rows_of_reachable` : **no stop is shown twice, and only stops of the collection are.**
* `FirstOf`, `first_row_of_run` : **while the user stays at one place, the first row shows the
  nearest stop** from the first answer on, although the rows behind it may be wrong.
-/

namespace MapaZimSlupsk

/-! ### The first row -/

namespace NearList

variable {δ : Type*} [Zero δ] [LinearOrder δ] {l : NearList δ}

/-- The first row shows the nearest of the documents seen, with its distance. -/
structure FirstOf (dist : Przystanek → δ) (seen : List Przystanek) (l : NearList δ) : Prop where
  none_seen : seen = [] → l.od 0 = 0
  first : seen ≠ [] → ∃ p ∈ seen, l.id 0 = p.name ∧ l.od 0 = dist p ∧ ∀ q ∈ seen, dist p ≤ dist q
  known : ∀ i, l.id i ≠ "" → ∃ q ∈ seen, q.name = l.id i

variable {dist : Przystanek → δ} {seen kol : List Przystanek} {t : Przystanek}

theorem FirstOf.empty : FirstOf dist [] (.empty : NearList δ) :=
  ⟨fun _ => rfl, fun h => absurd rfl h, fun _ h => absurd rfl h⟩

/-- If the first slot does not take a document, the nearest one stays the nearest. -/
theorem FirstOf.of_not_takes (h : FirstOf dist seen l) (ht : ¬ l.Takes (dist t) 0) {l' : NearList δ}
    (hid : l'.id 0 = l.id 0) (hod : l'.od 0 = l.od 0)
    (hknown : ∀ i, l'.id i ≠ "" → ∃ q ∈ seen ++ [t], q.name = l'.id i) :
    FirstOf dist (seen ++ [t]) l' := by
  have hseen : seen ≠ [] := fun h0 => ht (.inr (h.none_seen h0))
  refine ⟨fun h0 => by simp at h0, fun _ => ?_, hknown⟩
  obtain ⟨p, hp, hpi, hpd, hle⟩ := h.first hseen
  refine ⟨p, List.mem_append_left _ hp, hid.trans hpi, hod.trans hpd, fun q hq => ?_⟩
  obtain hq | hq := List.mem_append.1 hq
  · exact hle q hq
  · rw [List.mem_singleton.1 hq, ← hpd]
    exact not_lt.1 fun hlt => ht (.inl hlt)

/-- One more document, seen before or not. -/
theorem FirstOf.nearStop (ha : Apart dist kol) (hseen : ∀ q ∈ seen, q ∈ kol) (ht : t ∈ kol)
    (h : FirstOf dist seen l) : FirstOf dist (seen ++ [t]) (l.nearStop t.name (dist t)) := by
  have hold : ∀ i, l.id i ≠ "" → ∃ q ∈ seen ++ [t], q.name = l.id i := fun i hi => by
    obtain ⟨q, hq, hqi⟩ := h.known i hi
    exact ⟨q, List.mem_append_left _ hq, hqi⟩
  obtain ⟨he, hc | hs⟩ | ⟨i, hc, hs, he⟩ := nearStop_cases l t.name (dist t)
  · -- a name that is listed is that of a document seen
    obtain ⟨i, hi⟩ := hc
    obtain ⟨q, hq, hqi⟩ := h.known i (hi ▸ ha.name_ne t ht)
    obtain rfl : q = t := ha.eq_of_name (hseen q hq) ht (hqi.trans hi)
    rw [he]
    refine ⟨fun h0 => by simp at h0, fun _ => ?_, hold⟩
    obtain ⟨p, hp, hpi, hpd, hle⟩ := h.first (List.ne_nil_of_mem hq)
    refine ⟨p, List.mem_append_left _ hp, hpi, hpd, fun r hr => ?_⟩
    obtain hr | hr := List.mem_append.1 hr
    · exact hle r hr
    · exact List.mem_singleton.1 hr ▸ hle q hq
  · rw [he]
    exact h.of_not_takes (not_takes_of_slot_eq_none hs 0) rfl rfl hold
  · obtain ⟨htake, hfirst⟩ := slot_eq_some.1 hs
    rw [he]
    have hknown : ∀ j, (l.insertAt i t.name (dist t)).id j ≠ "" →
        ∃ q ∈ seen ++ [t], q.name = (l.insertAt i t.name (dist t)).id j := fun j hj => by
      by_cases hji : j = i
      · exact ⟨t, by simp, by rw [hji, insertAt_id_self]⟩
      · rw [insertAt_id_of_ne hji] at hj ⊢
        exact hold j hj
    by_cases hi : i = 0
    · subst hi
      refine ⟨fun h0 => by simp at h0,
        fun _ => ⟨t, by simp, insertAt_id_self, insertAt_od_self, ?_⟩, hknown⟩
      intro q hq
      obtain hq | hq := List.mem_append.1 hq
      · obtain ⟨p, hp, -, hpd, hle⟩ := h.first (List.ne_nil_of_mem hq)
        have hne : l.od 0 ≠ 0 := hpd ▸ ha.dist_ne p (hseen p hp)
        exact (hpd ▸ htake.resolve_right hne).le.trans (hle q hq)
      · rw [List.mem_singleton.1 hq]
    · have hpos : 0 < i := Fin.pos_iff_ne_zero.2 hi
      exact h.of_not_takes (hfirst 0 hpos) (insertAt_id_of_ne (Ne.symm hi))
        (insertAt_od_of_lt hpos) hknown

theorem FirstOf.nearStops {docs : List Przystanek} (ha : Apart dist kol)
    (hseen : ∀ q ∈ seen, q ∈ kol) (hdocs : ∀ q ∈ docs, q ∈ kol) (h : FirstOf dist seen l) :
    FirstOf dist (seen ++ docs) (nearStops dist l docs) := by
  induction docs generalizing seen l with
  | nil => rwa [List.append_nil]
  | cons doc docs ih =>
    have hdoc := hdocs doc List.mem_cons_self
    rw [List.append_cons, nearStops_cons]
    refine ih (fun q hq => ?_) (fun q hq => hdocs q (List.mem_cons_of_mem _ hq))
      (h.nearStop ha hseen hdoc)
    obtain hq | hq := List.mem_append.1 hq
    · exact hseen q hq
    · exact List.mem_singleton.1 hq ▸ hdoc

end NearList

open NearList

namespace NearStopsPage

variable {s t : NearStopsPage} {e : Event} {kol : List Przystanek} {p : ℚ × ℚ}

/-- What an answer does not spoil holds in every run. -/
theorem near_invariant {I : NearList Root → Prop}
    (hI : ∀ l d doc, doc ∈ kol → I l → I (l.nearStop doc.name d))
    (h : (lts.guard fun _ => Within kol).Reachable s t) (hs : I s.near) : I t.near := by
  refine h.invariant (I := fun s => I s.near) hs ?_
  rintro s e t hs ⟨hdocs, hst⟩
  obtain he | ⟨p, docs, rfl, -, hnear⟩ := step_near hst
  · rwa [he]
  · rw [hnear]
    exact List.foldlRecOn docs _ hs fun l hl doc hdoc => hI l _ doc (hdocs docs rfl doc hdoc) hl

/-- **No stop is shown twice, and only stops of the collection are shown**, in every run. -/
theorem rows_of_reachable (h : (lts.guard fun _ => Within kol).Reachable initial s) :
    s.near.Rows (kol.map (·.name)) :=
  near_invariant (fun _ _ _ hdoc hl => hl.nearStop (List.mem_map_of_mem hdoc)) h (.empty _)

theorem reachable_visit (n : ℕ) :
    (lts.guard fun _ => Within [dworzec, ratusz]).Reachable initial (visit n) := by
  induction n with
  | zero => exact .refl _
  | succ n ih => exact ih.tail ⟨stays_visit.answer n, visit_step n⟩

theorem rows_of_reachable_visit : (visit 3).near.Rows ["Dworzec", "Ratusz"] :=
  rows_of_reachable (reachable_visit 3)

/-! ### A user who stays -/

/-- The page stays open, the user at `p`, and the answers hold the documents of the collection in
any order. -/
def Standing (p : ℚ × ℚ) (kol : List Przystanek) : Event → Prop
  | .position q => q = p
  | .near _ docs => docs.Perm kol
  | .dispose => False
  | _ => True

/-- What holds along such a run: the first row is that of the documents seen. -/
structure StandingInv (p : ℚ × ℚ) (kol : List Przystanek) (ls : List Event) (s : NearStopsPage) :
    Prop where
  disposed : s.disposed = false
  reads : ∀ q ∈ s.nearReads, q = p
  first : ∃ seen, (∀ q ∈ seen, q ∈ kol) ∧ FirstOf (odleglosc p.1 p.2) seen s.near ∧
    ((∃ q docs, .near q docs ∈ ls) → ∀ q ∈ kol, q ∈ seen)

theorem StandingInv.step {ls : List Event} (ha : Apart (odleglosc p.1 p.2) kol)
    (h : StandingInv p kol ls s) (hl : Standing p kol e) (hst : s.step e = some t) :
    StandingInv p kol (ls ++ [e]) t := by
  have hne : e ≠ .dispose := by
    rintro rfl
    exact hl
  have hreads : ∀ q ∈ t.nearReads, q = p := fun q hq => by
    obtain hq | rfl := step_nearReads hst hq
    · exact h.reads q hq
    · exact hl
  have hd : t.disposed = false := ((effect_of_step hst).disposed hne).trans h.disposed
  obtain ⟨seen, hsub, hfirst, hall⟩ := h.first
  refine ⟨hd, hreads, ?_⟩
  by_cases hnear : ∃ q docs, e = .near q docs
  · obtain ⟨q, docs, rfl⟩ := hnear
    have hdocs : docs.Perm kol := hl
    cases effect_of_step hst with
    | near _ _ near dirty hq heq =>
      obtain rfl := h.reads q hq
      refine ⟨seen ++ docs, fun r hr => ?_, ?_, fun _ r hr => ?_⟩
      · obtain hr | hr := List.mem_append.1 hr
        · exact hsub r hr
        · exact hdocs.mem_iff.1 hr
      · show FirstOf (odleglosc q.1 q.2) (seen ++ docs) near
        rw [heq h.disposed]
        exact hfirst.nearStops ha hsub fun r hr => hdocs.mem_iff.1 hr
      · exact List.mem_append_right _ (hdocs.mem_iff.2 hr)
  · have hsame : t.near = s.near := (step_near hst).resolve_right fun ⟨q, docs, he, _⟩ =>
      hnear ⟨q, docs, he⟩
    refine ⟨seen, hsub, hsame ▸ hfirst, fun ⟨q, docs, hmem⟩ => hall ⟨q, docs, ?_⟩⟩
    obtain hmem | hmem := List.mem_append.1 hmem
    · exact hmem
    · exact absurd ⟨q, docs, (List.mem_singleton.1 hmem).symm⟩ hnear

/-- **While the user stays at one place, the first row shows the nearest stop** as soon as one
answer has been handled, in whatever order the answers hold the documents. -/
theorem first_row_of_run (ha : Apart (odleglosc p.1 p.2) kol) (hkol : kol ≠ []) {ls : List Event}
    (h : (lts.guard fun _ => Standing p kol).Run initial ls s)
    (hls : ∃ q docs, .near q docs ∈ ls) :
    ∃ doc ∈ kol, s.near.id 0 = doc.name ∧
      ∀ q ∈ kol, odleglosc p.1 p.2 doc ≤ odleglosc p.1 p.2 q := by
  have h₀ : StandingInv p kol [] initial :=
    ⟨rfl, fun q hq => absurd hq List.not_mem_nil, [], fun q hq => absurd hq List.not_mem_nil,
      .empty, fun ⟨q, docs, hmem⟩ => absurd hmem List.not_mem_nil⟩
  obtain ⟨seen, hsub, hfirst, hall⟩ :=
    (h.invariant_labels h₀ fun ls e s t hs hst => hs.step ha hst.1 hst.2).first
  have hseen : seen ≠ [] := by
    obtain ⟨doc, hdoc⟩ := List.exists_mem_of_ne_nil kol hkol
    exact List.ne_nil_of_mem (hall hls doc hdoc)
  obtain ⟨doc, hdoc, hid, -, hle⟩ := hfirst.first hseen
  exact ⟨doc, hsub doc hdoc, hid, fun q hq => hle q (hall hls q hq)⟩

theorem run_visit :
    (lts.guard fun _ => Standing (54.46, 17.03) [dworzec, ratusz]).Run initial
      ([.build] ++ [.position (54.46, 17.03)] ++ [.near (54.46, 17.03) [dworzec, ratusz]])
      (visit 3) :=
  .snoc (.snoc (.single ⟨trivial, visit_step 0⟩) ⟨rfl, visit_step 1⟩)
    ⟨List.Perm.refl _, visit_step 2⟩

/-- On a visit `Dworzec` comes first. -/
theorem first_row_of_run_visit :
    ∃ doc ∈ [dworzec, ratusz], (visit 3).near.id 0 = doc.name ∧
      ∀ q ∈ [dworzec, ratusz], odleglosc 54.46 17.03 doc ≤ odleglosc 54.46 17.03 q := by
  have ha : Apart (odleglosc 54.46 17.03) [dworzec, ratusz] :=
    ⟨by decide, by decide, by decide +kernel⟩
  exact first_row_of_run (p := (54.46, 17.03)) ha (by decide) run_visit
    ⟨_, _, List.mem_append_right _ (List.mem_singleton_self _)⟩

end NearStopsPage

end MapaZimSlupsk
