import MapaZimSlupsk.Home.Page

/-!
# The list of lines shown

What holds of the list `D` of the home page in every reachable state, however many runs of
`calculateLines` overlap and in whatever order their reads are answered and their waits expire:

* `HomePage.Inv` : the invariant of the page and of its runs (`Calculation.Ok`).
* `HomePage.ids_of_answer` : an answer to a run never finds `id1` or `id2` unset.
* `HomePage.shown_sorted` : **`D` is strictly ascending**, and a step that changes it clears it or
  inserts one line.
* `HomePage.shown_complete` : **nothing is missed**: once the run of the last selection has
  finished and its reads are answered, `D` holds every line that goes from the first stop to the
  second.
-/

namespace MapaZimSlupsk

/-! ### The invariant of a run -/

namespace Calculation

variable {c c' : Calculation} {id1 id2 : ℤ} {docs : List Przystanek} {m : ℕ}

/-- What holds of every run of a page, at any time. -/
structure Ok (c : Calculation) : Prop where
  fresh : c.waiting = true → c.Fresh
  reads : c.ReadsOk
  covered : c.Covered

theorem fresh_new (waiting : Bool) : Fresh { waiting := waiting } :=
  ⟨rfl, rfl, rfl, rfl, rfl, rfl, rfl⟩

theorem Fresh.ok (h : c.Fresh) : c.Ok := ⟨fun _ => h, h.readsOk, h.covered⟩

theorem Fresh.answered (h : c.Fresh) : Fresh { c with waiting := false } :=
  ⟨h.A, h.B, h.C, h.zrobione, h.cursors, h.issued, h.pending⟩

theorem onPrzystanki_waiting : (c.onPrzystanki id1 id2 docs).waiting = c.waiting := by
  refine List.foldlRecOn (motive := fun d : Calculation => d.waiting = c.waiting) docs _ rfl ?_
  intro d hd doc _
  rw [← hd]
  unfold onPrzystanek
  dsimp only
  split_ifs
  · rcases enter_cases (d.assign id1 id2 doc) with ⟨_, -, he⟩ | ⟨-, he⟩ <;> rw [he, assign_eq]
  · rw [assign_eq]

theorem Fresh.ok_onPrzystanki (h : c.Fresh) (hw : c.waiting = false) :
    (c.onPrzystanki id1 id2 docs).Ok := by
  refine ⟨fun hw' => ?_, readsOk_onPrzystanki h.readsOk, covered_onPrzystanki h.covered⟩
  rw [onPrzystanki_waiting, hw] at hw'
  exact absurd hw' Bool.false_ne_true

theorem Ok.resume (h : c.Ok) (hr : c.resume m = some c') : c'.Ok := by
  refine ⟨fun hw => ?_, readsOk_resume h.reads hr, covered_resume h.covered hr⟩
  -- a run that waits for its stops has no closure to resume
  obtain ⟨i, hi, ⟨_, -, rfl⟩ | ⟨-, rfl⟩⟩ := resume_cases hr <;>
  · have hf := h.fresh hw
    simp [hf.cursors] at hi

theorem Ok.answer (h : c.Ok) {r : RouteRead} (hr : r ∈ c.pending) (vars : IndexVars) :
    Ok { c with pending := c.pending.erase r, vars := vars } := by
  refine ⟨fun hw => ?_, ⟨fun x hx => ?_, h.reads.direction, h.reads.line_eq⟩, h.covered⟩
  · have hf := h.fresh hw
    simp [hf.pending] at hr
  · exact h.reads.pending_sub x (List.mem_of_mem_erase hx)

theorem Ok.effect {db : Firestore} (h : c.Ok) (he : c.Effect db c') : c'.Ok := by
  cases he with
  | stops id1 id2 docs hw => exact (h.fresh hw).answered.ok_onPrzystanki rfl
  | stopsUnset hw => exact (h.fresh hw).answered.ok
  | wait m c' hr => exact h.resume hr
  | answer r vars hr => exact h.answer hr vars

end Calculation

namespace HomePage

variable {db : Firestore} {s t : HomePage} {e : Event}

/-! ### The invariant of the page -/

/-- The page is mounted and all its runs are in order. -/
structure Inv (s : HomePage) : Prop where
  mounted : s.mounted = true
  ok : ∀ c ∈ s.calculations, c.Ok

theorem inv_initial : Inv initial := by
  refine ⟨rfl, fun c hc => ?_⟩
  obtain rfl : c = _ := List.mem_singleton.1 hc
  exact (Calculation.fresh_new _).ok

theorem Inv.effect (h : s.Inv) (he : Effect db s e t) : t.Inv := by
  refine ⟨?_, he.forall_calculations h.ok (fun _ => (Calculation.fresh_new _).ok) ?_⟩
  · cases he <;> exact h.mounted
  · exact fun c hc c' hc' => (h.ok c hc).effect hc'

theorem inv_step (h : s.Inv) (hst : (lts db).step s e t) : t.Inv :=
  h.effect (effect_of_step h.mounted hst)

theorem inv_of_reachable (h : (lts db).Reachable initial s) : s.Inv :=
  h.invariant inv_initial fun _ _ _ => inv_step

/-! ### The ids are set -/

/-- The ids that the answers to a run read are set. -/
structure IdsSet (s : HomePage) : Prop where
  first : s.przystanek1 ≠ wybierzPrzystanek → s.id1.isSome
  second : s.przystanek2 ≠ wybierzPrzystanek → s.id2.isSome
  running : ∀ c ∈ s.calculations, c.waiting = true ∨ c.issued ≠ [] ∨ c.cursors ≠ [] →
    s.id1.isSome ∧ s.id2.isSome

theorem idsSet_initial : IdsSet initial := by
  refine ⟨fun h => absurd rfl h, fun h => absurd rfl h, fun c hc => ?_⟩
  obtain rfl : c = _ := List.mem_singleton.1 hc
  decide

/-- An answer or an expired wait changes one run, which was running before. -/
theorem IdsSet.set {D : List ℤ} {k late : ℕ} {c c' : Calculation} (h : s.IdsSet)
    (hk : s.calculations[k]? = some c) (hc : c.waiting = true ∨ c.issued ≠ [] ∨ c.cursors ≠ []) :
    IdsSet { s with
      D := D, lateSetStates := late, calculations := s.calculations.set k c' } := by
  refine ⟨h.first, h.second, fun d hd hrun => ?_⟩
  rcases List.mem_or_eq_of_mem_set hd with hd | rfl
  · exact h.running d hd hrun
  · exact h.running c (List.mem_of_getElem? hk) hc

theorem IdsSet.effect (hinv : s.Inv) (h : s.IdsSet) (he : Effect db s e t) : t.IdsSet := by
  have asked : ∀ {k : ℕ} {c : Calculation} {r : RouteRead}, s.calculations[k]? = some c →
      r ∈ c.pending → c.waiting = true ∨ c.issued ≠ [] ∨ c.cursors ≠ [] := fun hk hr =>
    .inr (.inl (List.ne_nil_of_mem
      ((hinv.ok _ (List.mem_of_getElem? hk)).reads.pending_sub _ hr)))
  cases he with
  | select1 name id w hw =>
    refine ⟨fun _ => rfl, h.second, fun c hc hrun => ⟨rfl, ?_⟩⟩
    rcases List.mem_append.1 hc with hc | hc
    · exact (h.running c hc hrun).2
    · rw [List.mem_singleton.1 hc] at hrun
      exact h.second (hw.1 (hrun.resolve_right (by simp))).2
  | select2 name id w hw =>
    refine ⟨h.first, fun _ => rfl, fun c hc hrun => ⟨?_, rfl⟩⟩
    rcases List.mem_append.1 hc with hc | hc
    · exact (h.running c hc hrun).1
    · rw [List.mem_singleton.1 hc] at hrun
      exact h.first (hw.1 (hrun.resolve_right (by simp))).1
  | text => exact ⟨h.first, h.second, h.running⟩
  | stops k docs c id1 id2 hk hw => exact h.set hk (.inl hw)
  | stopsUnset k docs c hk hw => exact h.set hk (.inl hw)
  | wait k m c c' hk hr =>
    obtain ⟨i, hi, -⟩ := Calculation.resume_cases hr
    exact h.set hk (.inr (.inr (List.ne_nil_of_mem (List.mem_of_getElem? hi))))
  | route k r docs c id1 id2 hs hk hr => exact h.set hk (asked hk hr)
  | routeUnset k r docs c hk hr => exact h.set hk (asked hk hr)

/-- **An answer never finds an id unset**: the steps for unset ids are never taken. -/
theorem ids_of_answer (h : (lts db).Reachable initial s) (hst : (lts db).step s e t)
    (he : (∃ k docs, e = .stops k docs) ∨ ∃ k r docs, e = .route k r docs) :
    s.id1.isSome ∧ s.id2.isSome := by
  have hinv := inv_of_reachable h
  have hids : s.IdsSet := by
    refine (h.invariant (I := fun s => s.Inv ∧ s.IdsSet) ⟨inv_initial, idsSet_initial⟩ ?_).2
    intro t e t' ⟨hinv, hids⟩ hst
    exact ⟨inv_step hinv hst, hids.effect hinv (effect_of_step hinv.mounted hst)⟩
  rcases he with ⟨k, docs, rfl⟩ | ⟨k, r, docs, rfl⟩
  · obtain ⟨c, hk, hst⟩ := Option.bind_eq_some_iff.1 hst
    obtain ⟨⟨hw, -⟩, -⟩ := Option.ite_none_right_eq_some.1 hst
    exact hids.running c (List.mem_of_getElem? hk) (.inl hw)
  · obtain ⟨c, hk, hst⟩ := Option.bind_eq_some_iff.1 hst
    obtain ⟨⟨hr, -⟩, -⟩ := Option.ite_none_right_eq_some.1 hst
    have hmem := List.mem_of_getElem? hk
    exact hids.running c hmem
      (.inr (.inl (List.ne_nil_of_mem ((hinv.ok c hmem).reads.pending_sub r hr))))

/-! ### `D` is sorted -/

/-- The handler of a pending read finds in `C` the line that the read was issued for. -/
theorem Inv.line_eq (h : s.Inv) {k : ℕ} {c : Calculation} {r : RouteRead}
    (hk : s.calculations[k]? = some c) (hr : r ∈ c.pending) : c.C[r.i]?.getD "" = r.line := by
  have hok := (h.ok c (List.mem_of_getElem? hk)).reads
  rw [hok.line_eq r (hok.pending_sub r hr), Option.getD_some]

/-- The end of a journey is chosen. -/
def Event.IsSelect (e : Event) : Prop := ∃ name id, e = .select1 name id ∨ e = .select2 name id

/-- What a step does to `D`. -/
theorem Effect.D_cases (h : s.Inv) (he : Effect db s e t) :
    t.D = s.D ∨ (e.IsSelect ∧ t.D = []) ∨ ∃ k r docs n, e = .route k r docs ∧
      intParse r.line = some n ∧ n ∉ s.D ∧ t.D = Bubble.sort (s.D ++ [n]) := by
  cases he with
  | select1 name id => exact .inr (.inl ⟨⟨name, id, .inl rfl⟩, rfl⟩)
  | select2 name id => exact .inr (.inl ⟨⟨name, id, .inr rfl⟩, rfl⟩)
  | text => exact .inl rfl
  | stops => exact .inl rfl
  | stopsUnset => exact .inl rfl
  | wait => exact .inl rfl
  | routeUnset => exact .inl rfl
  | route k r docs c id1 id2 hs hk hr hdocs h1 h2 hh =>
    rw [h.line_eq hk hr] at hh
    subst hh
    cases hn : intParse r.line with
    | none =>
      rw [handleRoute_of_not_passes fun n hn' => by simp [hn] at hn']
      exact .inl rfl
    | some n =>
      rcases handleRoute_D_cases hn id1 id2 r.j docs ⟨c.vars, s.D, s.lateSetStates⟩ with
        he | ⟨hD, -, he⟩
      · exact .inl he
      · exact .inr (.inr ⟨k, r, docs, n, rfl, hn, hD, he⟩)

theorem sort_snoc_sorted {D : List ℤ} {n : ℤ} (hD : D.Pairwise (· < ·)) (hn : n ∉ D) :
    (Bubble.sort (D ++ [n])).Pairwise (· < ·) :=
  Bubble.sort_strictly_sorted (List.nodup_append.2
    ⟨hD.imp ne_of_lt, by simp, fun x hx y hy => by
      rw [List.mem_singleton.1 hy]
      rintro rfl
      exact hn hx⟩)

theorem sorted_of_reachable (h : (lts db).Reachable initial s) : s.D.Pairwise (· < ·) := by
  refine (h.invariant (I := fun s => s.Inv ∧ s.D.Pairwise (· < ·)) ⟨inv_initial, .nil⟩ ?_).2
  intro t e t' ⟨hinv, hs⟩ hst
  refine ⟨inv_step hinv hst, ?_⟩
  rcases (effect_of_step hinv.mounted hst).D_cases hinv with
    he | ⟨-, he⟩ | ⟨_, _, _, n, -, -, hn, he⟩
  · rwa [he]
  · rw [he]
    exact .nil
  · rw [he]
    exact sort_snoc_sorted hs hn

/-- **The list shown is strictly ascending in every reachable state, and it only changes by being
cleared on a selection or by the insertion of one line.**  The loops that follow the insertion sort
a list of any length without losing or duplicating an element. -/
theorem shown_sorted (db : Firestore) :
    (∀ s, (lts db).Reachable initial s → s.D.Pairwise (· < ·)) ∧
    (∀ s e t, (lts db).Reachable initial s → (lts db).step s e t →
      t.D = s.D ∨ (e.IsSelect ∧ t.D = []) ∨
        ∃ k r docs n, e = .route k r docs ∧ intParse r.line = some n ∧ n ∉ s.D ∧
          t.D = Bubble.sort (s.D ++ [n]) ∧ t.D.Pairwise (· < ·) ∧
          ∀ x, x ∈ t.D ↔ x ∈ s.D ∨ x = n) ∧
    (∀ (D : List ℤ) (n : ℤ),
      (Bubble.sort (D ++ [n])).Perm (n :: D) ∧ (Bubble.sort (D ++ [n])).Pairwise (· ≤ ·)) := by
  refine ⟨fun s => sorted_of_reachable, fun s e t hs hst => ?_, fun D n => ⟨?_, ?_⟩⟩
  · have hinv := inv_of_reachable hs
    rcases (effect_of_step hinv.mounted hst).D_cases hinv with
      he | he | ⟨k, r, docs, n, rfl, hline, hn, he⟩
    · exact .inl he
    · exact .inr (.inl he)
    · refine .inr (.inr ⟨k, r, docs, n, rfl, hline, hn, he, ?_, fun x => ?_⟩)
      · rw [he]
        exact sort_snoc_sorted (sorted_of_reachable hs) hn
      · rw [he]
        simp
  · exact (Bubble.sort_perm _).trans List.perm_append_comm
  · exact Bubble.sort_sorted _

/-! ### Nothing is missed -/

/-- Both ends are chosen, with the ids `id1` and `id2`. -/
structure Chosen (s : HomePage) (id1 id2 : ℤ) : Prop where
  both : s.BothChosen
  id1_eq : s.id1 = some id1
  id2_eq : s.id2 = some id2

end HomePage

/-- One document for a stop, in `Przystanki` and on every route, and places that count from one. -/
structure Firestore.Regular (db : Firestore) : Prop where
  stops_nodup : (db.przystanki.map (·.id)).Nodup
  route_nodup : ∀ line j, ((db.trasa line j).map (·.id)).Nodup
  l_pos : ∀ line j, ∀ p ∈ db.trasa line j, 1 ≤ p.l

/-- The data as the planner takes it to be: regular, and with lines that are numbers. -/
structure Firestore.WellFormed (db : Firestore) : Prop extends db.Regular where
  decimal : ∀ p ∈ db.przystanki, ∀ line ∈ p.linie, (intParse line).isSome

namespace Calculation

variable {c : Calculation} {id1 id2 : ℤ} {docs : List Przystanek}

theorem pending_onPrzystanki (h : ∀ r ∈ c.issued, r ∈ c.pending) :
    ∀ r ∈ (c.onPrzystanki id1 id2 docs).issued, r ∈ (c.onPrzystanki id1 id2 docs).pending := by
  refine List.foldlRecOn (motive := fun c : Calculation => ∀ r ∈ c.issued, r ∈ c.pending) docs _
    h fun c h doc _ => ?_
  unfold onPrzystanek
  dsimp only
  split_ifs
  · rcases enter_cases (c.assign id1 id2 doc) with ⟨_, -, he⟩ | ⟨-, he⟩ <;> rw [he, assign_eq]
    · intro r hr
      rcases List.mem_append.1 hr with hr | hr
      · exact List.mem_append_left _ (h r hr)
      · exact List.mem_append_right _ hr
    · exact h
  · rw [assign_eq]
    exact h

/-- The run has collected every common line of the stops `id1` and `id2`, and each of its reads is
unanswered or has put its line into `D` if it goes the right way. -/
structure Complete (db : Firestore) (id1 id2 : ℤ) (D : List ℤ) (c : Calculation) : Prop where
  collected : ∀ p ∈ db.przystanki, ∀ q ∈ db.przystanki, p.id = id1 → q.id = id2 →
    ∀ line ∈ p.linie, line ∈ q.linie → line ∈ c.C
  answered : ∀ r ∈ c.issued, r ∈ c.pending ∨
    ∀ n, intParse r.line = some n → Goes (db.trasa r.line r.j) id1 id2 → n ∈ D

variable {db : Firestore} {D : List ℤ}

theorem Fresh.complete (h : c.Fresh) (hdb : db.Regular) (hdocs : docs.Perm db.przystanki) :
    Complete db id1 id2 D (c.onPrzystanki id1 id2 docs) := by
  refine ⟨fun p hp q hq hpid hqid line h1 h2 => ?_, fun r hr => .inl ?_⟩
  · subst hpid hqid
    refine mem_C_onPrzystanki h ?_ (hdocs.mem_iff.2 hp) (hdocs.mem_iff.2 hq) h1 h2
    exact (hdocs.map _).nodup_iff.2 hdb.stops_nodup
  · exact pending_onPrzystanki (by simp [h.issued]) r hr

theorem Complete.resume {c' : Calculation} {m : ℕ} (h : c.Complete db id1 id2 D)
    (hr : c.resume m = some c') : c'.Complete db id1 id2 D := by
  obtain ⟨i, -, ⟨line, -, rfl⟩ | ⟨-, rfl⟩⟩ := resume_cases hr
  · refine ⟨h.collected, fun r hr => ?_⟩
    rcases List.mem_append.1 hr with hr | hr
    · exact (h.answered r hr).imp_left fun hr => List.mem_append_left _ hr
    · exact .inl (List.mem_append_right _ hr)
  · exact ⟨h.collected, h.answered⟩

theorem Complete.mono {D' : List ℤ} (h : c.Complete db id1 id2 D) (hD : ∀ n ∈ D, n ∈ D') :
    c.Complete db id1 id2 D' :=
  ⟨h.collected, fun r hr => (h.answered r hr).imp_right fun h n hn hg => hD n (h n hn hg)⟩

/-- The answer to a read is the end of it: its line is in `D` if it goes the right way. -/
theorem Complete.answer {r : RouteRead} (h : c.Complete db id1 id2 D)
    (hr : ∀ n, intParse r.line = some n → Goes (db.trasa r.line r.j) id1 id2 → n ∈ D)
    (vars : IndexVars) :
    Complete db id1 id2 D { c with pending := c.pending.erase r, vars := vars } := by
  refine ⟨h.collected, fun x hx => ?_⟩
  by_cases hxr : x = r
  · subst hxr
    exact .inr hr
  · exact (h.answered x hx).imp_left fun hp => (List.mem_erase_of_ne hxr).2 hp

end Calculation

namespace HomePage

variable {db : Firestore} {s t : HomePage} {e : Event}

/-- The run of the last selection still waits for its stops or misses nothing. -/
def LastComplete (db : Firestore) (s : HomePage) : Prop :=
  ∀ id1 id2, s.Chosen id1 id2 → ∀ c, s.calculations[s.calculations.length - 1]? = some c →
    c.waiting = true ∨ c.Complete db id1 id2 s.D

theorem LastComplete.set {D : List ℤ} {k : ℕ} {c c' : Calculation} {late : ℕ}
    (h : s.LastComplete db) (hk : s.calculations[k]? = some c) (hD : ∀ n ∈ s.D, n ∈ D)
    (hc : ∀ id1 id2, s.Chosen id1 id2 → (c.waiting = true ∨ c.Complete db id1 id2 s.D) →
      c'.waiting = true ∨ c'.Complete db id1 id2 D) :
    LastComplete db { s with
      D := D, lateSetStates := late, calculations := s.calculations.set k c' } := by
  intro id1 id2 hch d hd
  have hch' : s.Chosen id1 id2 := ⟨hch.both, hch.id1_eq, hch.id2_eq⟩
  simp only [List.length_set, List.getElem?_set] at hd
  split_ifs at hd with hlast hlt
  · cases hd
    exact hc id1 id2 hch' (h id1 id2 hch' c (hlast ▸ hk))
  · exact (h id1 id2 hch' d hd).imp_right fun h => h.mono hD

theorem LastComplete.push {w : Bool}
    (hw : t.BothChosen → w = true) (ht : ∃ cs, t.calculations = cs ++ [{ waiting := w }]) :
    t.LastComplete db := by
  intro id1 id2 hch c hc
  obtain ⟨cs, hcs⟩ := ht
  obtain rfl : { waiting := w } = c := by simpa [hcs] using hc
  exact .inl (hw hch.both)

theorem LastComplete.effect (hdb : db.Regular) (hinv : s.Inv) (h : s.LastComplete db)
    (he : Effect db s e t) : t.LastComplete db := by
  have old : ∀ {k : ℕ} {c : Calculation}, s.calculations[k]? = some c → c.Ok := fun hk =>
    hinv.ok _ (List.mem_of_getElem? hk)
  cases he with
  | select1 name id w hw => exact .push hw.2 ⟨_, rfl⟩
  | select2 name id w hw => exact .push hw.2 ⟨_, rfl⟩
  | text => exact fun id1 id2 hch => h id1 id2 ⟨hch.both, hch.id1_eq, hch.id2_eq⟩
  | stops k docs c id1 id2 hk hw hdocs h1 h2 =>
    refine h.set hk (fun _ => id) fun a b hch _ => .inr ?_
    obtain rfl : id1 = a := Option.some.inj (h1 ▸ hch.id1_eq)
    obtain rfl : id2 = b := Option.some.inj (h2 ▸ hch.id2_eq)
    exact ((old hk).fresh hw).answered.complete hdb hdocs
  | stopsUnset k docs c hk hw hids =>
    refine h.set hk (fun _ => id) fun a b hch _ => ?_
    rcases hids with hids | hids
    · exact absurd (hids ▸ hch.id1_eq) (by simp)
    · exact absurd (hids ▸ hch.id2_eq) (by simp)
  | wait k m c c' hk hr =>
    refine h.set hk (fun _ => id) fun a b hch hc => .inr ?_
    refine (hc.resolve_left fun hw => ?_).resume hr
    obtain ⟨i, hi, -⟩ := Calculation.resume_cases hr
    simp [((old hk).fresh hw).cursors] at hi
  | route k r docs c id1 id2 hs hk hr hdocs h1 h2 hh =>
    rw [hinv.line_eq hk hr] at hh
    subst hh
    have hD : ∀ n ∈ s.D, n ∈ (handleRoute true id1 id2 r.j r.line
        ⟨c.vars, s.D, s.lateSetStates⟩ docs).D := fun n hn => mem_handleRoute_of_mem hn
    refine h.set hk hD fun a b hch hc => .inr ?_
    obtain rfl : id1 = a := Option.some.inj (h1 ▸ hch.id1_eq)
    obtain rfl : id2 = b := Option.some.inj (h2 ▸ hch.id2_eq)
    have hc' : c.Complete db id1 id2 s.D := hc.resolve_left fun hw => by
      simp [((old hk).fresh hw).pending] at hr
    refine (hc'.mono hD).answer (fun n hn hg => ?_) _
    refine mem_handleRoute_of_passes hn (passes_of_goes ?_ ?_ ?_ (hg.perm hdocs.symm))
    · exact (hdocs.map _).nodup_iff.2 (hdb.route_nodup _ _)
    · exact fun p hp => hdb.l_pos _ _ p (hdocs.mem_iff.1 hp)
    · have := (old hk).reads.direction r ((old hk).reads.pending_sub r hr)
      omega
  | routeUnset k r docs c hk hr hids =>
    refine h.set hk (fun _ => id) fun a b hch _ => ?_
    rcases hids with hids | hids
    · exact absurd (hids ▸ hch.id1_eq) (by simp)
    · exact absurd (hids ▸ hch.id2_eq) (by simp)

theorem lastComplete_of_reachable (hdb : db.Regular) (h : (lts db).Reachable initial s) :
    s.LastComplete db := by
  refine (h.invariant (I := fun s => s.Inv ∧ s.LastComplete db) ⟨inv_initial, ?_⟩ ?_).2
  · exact .push (fun hb => absurd rfl hb.1) ⟨[], rfl⟩
  · intro t e t' ⟨hinv, hl⟩ hst
    exact ⟨inv_step hinv hst, hl.effect hdb hinv (effect_of_step hinv.mounted hst)⟩

/-- **Completeness of the route planner.**  When the run of the last selection has finished and
all its reads are answered, `D` holds every line that serves both stops and goes from the first to
the second in one of its directions: no order of the answers and waits, and no earlier run, can
lose it. -/
theorem shown_complete (hdb : db.WellFormed) (h : (lts db).Reachable initial s) {id1 id2 : ℤ}
    (hch : s.Chosen id1 id2) {c : Calculation} (hlast : s.calculations.getLast? = some c)
    (hfin : c.Finished) (hans : c.pending = []) {p q : Przystanek} (hp : p ∈ db.przystanki)
    (hq : q ∈ db.przystanki) (hpid : p.id = id1) (hqid : q.id = id2) {line : String}
    (h1 : line ∈ p.linie) (h2 : line ∈ q.linie) {j : ℕ} (hj : j = 1 ∨ j = 2)
    (hg : Goes (db.trasa line j) id1 id2) : ∃ n ∈ s.D, intParse line = some n := by
  rw [List.getLast?_eq_getElem?] at hlast
  have hok := (inv_of_reachable h).ok c (List.mem_of_getElem? hlast)
  have hcomp := (lastComplete_of_reachable hdb.toRegular h id1 id2 hch c hlast).resolve_left
    (by simp [hfin.1])
  obtain ⟨n, hn⟩ := Option.isSome_iff_exists.1 (hdb.decimal p hp line h1)
  have hline := hcomp.collected p hp q hq hpid hqid line h1 h2
  obtain ⟨i, hi⟩ := hok.covered.issued_of_finished hfin hj hline
  have hD := (hcomp.answered _ hi).resolve_left (by simp [hans])
  exact ⟨n, hD n hn hg, hn⟩

theorem wellFormed_oneLine : oneLine.WellFormed := by
  refine ⟨⟨by decide, fun line j => ?_, fun line j => ?_⟩, by decide⟩
  · unfold oneLine
    dsimp only
    split <;> decide
  · unfold oneLine
    dsimp only
    split <;> decide

/-- A run to its end over `oneLine`. -/
theorem shown_complete_oneLine :
    ∃ s, (lts oneLine).Reachable initial s ∧ ∃ n ∈ s.D, intParse "5" = some n := by
  obtain ⟨s, hs, hch, c, hlast, hfin, hans⟩ : ∃ s,
      ([.select1 "Dworzec" 10, .select2 "Ratusz" 20, .stops 2 oneLine.przystanki, .wait 2 0,
        .route 2 ⟨0, 2, "5"⟩ (oneLine.trasa "5" 2),
        .route 2 ⟨0, 1, "5"⟩ (oneLine.trasa "5" 1)] : List Event).foldlM (step oneLine) initial =
          some s ∧
      s.Chosen 10 20 ∧ ∃ c, s.calculations.getLast? = some c ∧ c.Finished ∧ c.pending = [] :=
    ⟨_, rfl, ⟨by decide, rfl, rfl⟩, _, rfl, by decide, rfl⟩
  have hreach := (Lts.ofFun_run hs).reachable
  exact ⟨s, hreach, shown_complete wellFormed_oneLine hreach hch hlast hfin hans
    (List.mem_cons_self ..) (List.mem_cons_of_mem _ (List.mem_cons_self ..)) rfl rfl
    (by decide) (by decide) (.inl rfl) ⟨⟨"10", 1, "Dworzec"⟩, by decide, ⟨"20", 2, "Ratusz"⟩,
      by decide, by decide, by decide, by decide⟩⟩

end HomePage

end MapaZimSlupsk
