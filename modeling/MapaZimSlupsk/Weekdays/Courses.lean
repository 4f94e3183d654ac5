import MapaZimSlupsk.Home.Prompt
import MapaZimSlupsk.Weekdays.Lines

/-!
# Courses, departures and journeys

The page of the stops takes the place of a departure in the list as the number of a course, and
shows the time of the departure and not this number.

* `StopsPage.departure_of_time_iff` : **the course watched under the time of a departure is its own
  exactly if the departures are numbered and no two have the same time**.
* `LinesPage.course_of_title_iff` : **the text over the stops tells the line and the course watched
  exactly if no two departures in a direction have the same time**.
* `HomePage.shown_iff_above` : **the lines found for a journey are those whose first course, in one
  of the two directions, the timetable shows with the first stop above the second**.
-/

namespace MapaZimSlupsk

/-- The time of a departure. -/
def Godzina.czas (g : Godzina) : ℤ × ℤ := (g.h, g.m)

/-- The document of a stop as the home page reads it. -/
def KursStop.routeStop (d : KursStop) : RouteStop := ⟨d.id, d.l, d.n⟩

/-- The first courses, which the home page reads. -/
def DniPowszednie.trasa (db : DniPowszednie) (line : String) (j : ℕ) : List RouteStop :=
  (db.kurs line j 1).map KursStop.routeStop

namespace StopsPage

variable {db : DniPowszednie} {linia : ℤ} {kierunek : ℕ} {s t : StopsPage}

/-! ### The time over the stops -/

theorem tytul_inj {linia linia' : ℤ} {nrkurs nrkurs' : String} :
    tytul linia nrkurs = tytul linia' nrkurs' ↔ linia = linia' ∧ nrkurs = nrkurs' := by
  refine ⟨fun h => ?_, fun ⟨h, h'⟩ => h ▸ h' ▸ rfl⟩
  have hlist : (toString linia).toList ++ ',' :: (" kurs: ".toList ++ nrkurs.toList) =
      (toString linia').toList ++ ',' :: (" kurs: ".toList ++ nrkurs'.toList) := by
    have hlist := congrArg String.toList h
    simpa [tytul, String.toList_append] using hlist
  have hcomma (n : ℤ) : ',' ∉ (toString n).toList := not_mem_toString (by decide) (by decide) n
  obtain ⟨hl, hn⟩ := append_cons_inj (hcomma linia) (hcomma linia') hlist
  exact ⟨toString_inj (String.toList_inj.1 hl), String.toList_inj.1 (List.append_cancel_left hn)⟩

theorem sub1_ne_empty {h m : ℤ} : sub1 h m ≠ "" := by
  rw [sub1_eq]
  intro he
  have hlist := congrArg String.toList he
  simp [String.toList_append] at hlist

theorem sub1_eq_iff {g g' : Godzina} : sub1 g.h g.m = sub1 g'.h g'.m ↔ g.czas = g'.czas := by
  rw [sub1_inj, Godzina.czas, Godzina.czas, Prod.mk.injEq]

/-- A text other than the empty one is the time of a departure. -/
theorem Chosen.departure_of_eq {g : Godzina} {k : ℕ}
    (h : Chosen db linia kierunek (sub1 g.h g.m) k) :
    ∃ docs i g', Godziny db linia kierunek docs ∧ docs[i]? = some g' ∧ g'.czas = g.czas ∧
      k = i + 1 := by
  generalize hn : sub1 g.h g.m = nrkurs at h
  cases h with
  | first => exact absurd hn sub1_ne_empty
  | departure docs i g' hdocs hg => exact ⟨docs, i, g', hdocs, hg, (sub1_eq_iff.1 hn).symm, rfl⟩

/-- Departures at different times have different texts. -/
theorem Chosen.unique {docs : List Godzina} {nrkurs : String} {k k' : ℕ}
    (h : Chosen db linia kierunek nrkurs k)
    (hl : ((db.godziny (toString linia) kierunek).map Godzina.l).Nodup)
    (ht : ∀ (i j : ℕ) g g', docs[i]? = some g → docs[j]? = some g' → g.czas = g'.czas → i = j)
    (hdocs : Godziny db linia kierunek docs) (h' : Chosen db linia kierunek nrkurs k') :
    k = k' := by
  cases h with
  | first =>
    generalize hn : "" = nrkurs at h'
    cases h' with
    | first => rfl
    | departure => exact absurd hn.symm sub1_ne_empty
  | departure docs₁ i g hdocs₁ hg =>
    obtain ⟨docs₂, j, g', hdocs₂, hg', hczas, rfl⟩ := h'.departure_of_eq
    obtain rfl := hdocs₁.unique hdocs hl
    obtain rfl := hdocs₂.unique hdocs₁ hl
    rw [ht i j g g' hg hg' hczas.symm]

/-- Every departure can be chosen. -/
theorem reachable_of_departure {docs : List Godzina} {i : ℕ} {g : Godzina}
    (hdocs : Godziny db linia kierunek docs) (hg : docs[i]? = some g) :
    ∃ s, (lts db).Reachable (initial linia kierunek) s ∧ s.mounted ∧
      s.naglowek = tytul linia (sub1 g.h g.m) ∧ s.kurs.query = i + 1 := by
  have hrun : ([.openSheet, .godziny docs, .tap i, .build] : List Event).foldlM (step db)
      (initial linia kierunek) = some ({ initial linia kierunek with
        godziny := some ((Watch.start ()).deliver docs) }.onPressed i g).build := by
    simp [step, initial, onPressed, Watch.deliver, hdocs, hg]
  exact ⟨_, (Lts.ofFun_run hrun).reachable, rfl, rfl, rfl⟩

/-- **The course watched under the time of a departure is its own exactly if the departures are
numbered, and no two have the same time.** -/
theorem departure_of_time_iff :
    (∀ s, (lts db).Reachable (initial linia kierunek) s →
      ∀ g ∈ db.godziny (toString linia) kierunek, s.naglowek = tytul linia (sub1 g.h g.m) →
        (s.kurs.query : ℤ) = g.l) ↔
      Numbered Godzina.l (db.godziny (toString linia) kierunek) ∧
        ((db.godziny (toString linia) kierunek).map Godzina.czas).Nodup := by
  obtain ⟨docs, hdocs⟩ : ∃ docs, Godziny db linia kierunek docs := exists_orderedBy _ _
  constructor
  · intro h
    -- the place of a departure is its number, and also that of any other at this time
    have hplace : ∀ (i j : ℕ) g g', docs[i]? = some g → docs[j]? = some g' → g.czas = g'.czas →
        g'.l = i + 1 := fun i j g g' hg hg' hczas => by
      obtain ⟨s, hs, -, hsn, hsk⟩ := reachable_of_departure hdocs hg
      have hquery := h s hs g' (hdocs.mem_iff.1 (List.mem_of_getElem? hg'))
        (by rw [hsn, sub1_eq_iff.2 hczas])
      omega
    refine ⟨hdocs.key_eq_iff.1 fun i g hg => hplace i i g g hg hg rfl,
      (hdocs.nodup_map_iff _).2 fun i j g g' hg hg' hczas => ?_⟩
    have hi := hplace i j g g' hg hg' hczas
    have hj := hplace j j g' g' hg' hg' rfl
    omega
  · rintro ⟨hnum, hczas⟩ s hs g hg hn
    obtain ⟨nrkurs, hsn, hsc⟩ := (inv_of_reachable hs).drawn
    obtain rfl : nrkurs = sub1 g.h g.m := (tytul_inj.1 (hsn.symm.trans hn)).2
    obtain ⟨docs', i, g', hdocs', hg', he, hk⟩ := hsc.departure_of_eq
    obtain rfl := List.inj_on_of_nodup_map hczas
      (hdocs'.mem_iff.1 (List.mem_of_getElem? hg')) hg he
    rw [hk, hdocs'.key_eq_iff.2 hnum i g' hg']
    push_cast
    rfl

/-! ### The first course and the journeys -/

/-- A row of the stop `id1` stands above one of the stop `id2`. -/
def Above (docs : List KursStop) (id1 id2 : ℤ) : Prop :=
  ∃ (i k : ℕ) (p q : KursStop), i < k ∧ docs[i]? = some p ∧ docs[k]? = some q ∧
    p.id = toString id1 ∧ q.id = toString id2

theorem above_iff_goes {docs : List KursStop} {id1 id2 : ℤ} (h : Kurs db linia kierunek 1 docs)
    (hl : ((db.kurs (toString linia) kierunek 1).map KursStop.l).Nodup) :
    Above docs id1 id2 ↔ Goes (db.trasa (toString linia) kierunek) id1 id2 := by
  constructor
  · rintro ⟨i, k, p, q, hik, hp, hq, hp1, hq2⟩
    have hmem {d : KursStop} {i : ℕ} (hd : docs[i]? = some d) :
        d.routeStop ∈ db.trasa (toString linia) kierunek :=
      List.mem_map_of_mem (h.mem_iff.1 (List.mem_of_getElem? hd))
    exact ⟨_, hmem hp, _, hmem hq, hp1, hq2, (h.lt_iff_key_lt hl hp hq).1 hik⟩
  · rintro ⟨_, hp, _, hq, hp1, hq2, hlt⟩
    obtain ⟨p, hpk, rfl⟩ := List.mem_map.1 hp
    obtain ⟨q, hqk, rfl⟩ := List.mem_map.1 hq
    obtain ⟨i, hi⟩ := List.mem_iff_getElem?.1 (h.mem_iff.2 hpk)
    obtain ⟨k, hk⟩ := List.mem_iff_getElem?.1 (h.mem_iff.2 hqk)
    exact ⟨i, k, p, q, h.lt_of_key_lt hi hk hlt, hi, hk, hp1, hq2⟩

end StopsPage

namespace LinesPage

variable {db : DniPowszednie} {p : StopsPage}

theorem Opened.exists_inv (h : Opened db p) :
    ∃ d ∈ db.linie, ∃ j, (j = 1 ∨ j = 2) ∧ p.Inv db d.l j := by
  obtain ⟨-, d, hd, j, hj, hr⟩ := h
  exact ⟨d, hd, j, hj, StopsPage.inv_of_reachable hr⟩

/-- **The text over the stops tells the line and, the direction being known, the course watched
exactly if no two departures of a line in a direction have the same time.**  Until the answer for
this course comes in, the rows are still those of the one watched before. -/
theorem course_of_title_iff
    (hl : ∀ d ∈ db.linie, ∀ j, ((db.godziny (toString d.l) j).map Godzina.l).Nodup) :
    (∀ s t p q, (lts db).Reachable initial s → (lts db).Reachable initial t → s.stops = some p →
      t.stops = some q → p.naglowek = q.naglowek → p.kierunek = q.kierunek →
      p.linia = q.linia ∧ p.kurs.query = q.kurs.query) ↔
      ∀ d ∈ db.linie, ∀ j, (j = 1 ∨ j = 2) →
        ((db.godziny (toString d.l) j).map Godzina.czas).Nodup := by
  constructor
  · intro h d hd j hj
    obtain ⟨docs, hdocs⟩ : ∃ docs, StopsPage.Godziny db d.l j docs := exists_orderedBy _ _
    rw [hdocs.nodup_map_iff]
    intro i i' g g' hg hg' hczas
    obtain ⟨p, hp, hpm, hpn, hpk⟩ := StopsPage.reachable_of_departure hdocs hg
    obtain ⟨q, hq, hqm, hqn, hqk⟩ := StopsPage.reachable_of_departure hdocs hg'
    obtain ⟨s, hs, hsp⟩ := stops_iff.2 ⟨hpm, d, hd, j, hj, hp⟩
    obtain ⟨t, ht, htq⟩ := stops_iff.2 ⟨hqm, d, hd, j, hj, hq⟩
    have hdir : p.kierunek = q.kierunek :=
      (StopsPage.inv_of_reachable hp).kierunek_eq.trans
        (StopsPage.inv_of_reachable hq).kierunek_eq.symm
    have hquery := (h s t p q hs ht hsp htq
      (by rw [hpn, hqn, StopsPage.sub1_eq_iff.2 hczas]) hdir).2
    omega
  · intro h s t p q hs ht hsp htq hn hdir
    obtain ⟨d, hd, j, hj, hp⟩ := (stops_iff.1 ⟨s, hs, hsp⟩).exists_inv
    obtain ⟨d', -, j', -, hq⟩ := (stops_iff.1 ⟨t, ht, htq⟩).exists_inv
    obtain rfl : j = j' := hp.kierunek_eq.symm.trans (hdir.trans hq.kierunek_eq)
    obtain ⟨nrkurs, hpn, hpc⟩ := hp.drawn
    obtain ⟨nrkurs', hqn, hqc⟩ := hq.drawn
    obtain ⟨hline, rfl⟩ := StopsPage.tytul_inj.1 (hpn.symm.trans (hn.trans hqn))
    rw [← hline] at hqc
    obtain ⟨docs, hdocs⟩ : ∃ docs, StopsPage.Godziny db d.l j docs := exists_orderedBy _ _
    exact ⟨hp.linia_eq.trans (hline.trans hq.linia_eq.symm),
      hpc.unique (hl d hd j) ((hdocs.nodup_map_iff _).1 (h d hd j hj)) hdocs hqc⟩

/-- Line 1 leaves at two times. -/
theorem course_of_title_iff_jedynka : (∀ s t p q, (lts StopsPage.jedynka).Reachable initial s →
    (lts StopsPage.jedynka).Reachable initial t → s.stops = some p → t.stops = some q →
    p.naglowek = q.naglowek → p.kierunek = q.kierunek →
    p.linia = q.linia ∧ p.kurs.query = q.kurs.query) ↔
    ∀ d ∈ StopsPage.jedynka.linie, ∀ j, (j = 1 ∨ j = 2) →
      ((StopsPage.jedynka.godziny (toString d.l) j).map Godzina.czas).Nodup := by
  refine course_of_title_iff fun d _ j => ?_
  unfold StopsPage.jedynka
  dsimp only
  split
  · decide
  · decide

/-- The page of the line shows these documents as the stops of the course `k` in this direction. -/
def Shows (db : DniPowszednie) (linia : ℤ) (kierunek k : ℕ) (docs : List KursStop) : Prop :=
  ∃ s p, (lts db).Reachable initial s ∧ s.stops = some p ∧ p.linia = linia ∧
    p.kierunek = kierunek ∧ p.kurs.query = k ∧ p.kurs.connection = .active ∧
    p.kurs.data = some docs

theorem Shows.kurs {linia : ℤ} {kierunek k : ℕ} {docs : List KursStop}
    (h : Shows db linia kierunek k docs) : StopsPage.Kurs db linia kierunek k docs := by
  obtain ⟨s, p, hs, hp, rfl, rfl, rfl, hc, hdocs⟩ := h
  obtain ⟨d, -, j, -, hinv⟩ := (stops_iff.1 ⟨s, hs, hp⟩).exists_inv
  rw [hinv.linia_eq, hinv.kierunek_eq]
  exact hinv.kurs.current hc docs hdocs

/-- The stops of the first course can arrive at once. -/
theorem shows_of_kurs {d : Linia} (hd : d ∈ db.linie) {j : ℕ} (hj : j = 1 ∨ j = 2)
    {docs : List KursStop} (h : StopsPage.Kurs db d.l j 1 docs) : Shows db d.l j 1 docs := by
  have hst : StopsPage.step db (.initial d.l j) (.kurs docs) =
      some { StopsPage.initial d.l j with kurs := (Watch.start 1).deliver docs } :=
    if_pos ⟨rfl, h⟩
  obtain ⟨s, hs, hp⟩ := stops_iff.2 ⟨rfl, d, hd, j, hj, (Lts.Run.single hst).reachable⟩
  exact ⟨s, _, hs, hp, rfl, rfl, rfl, rfl, rfl⟩

end LinesPage

/-- Every line with a course is stored under the text of its number. -/
def DniPowszednie.Canonical (db : DniPowszednie) : Prop :=
  ∀ line j, db.kurs line j 1 ≠ [] → ∀ n, intParse line = some n → line = toString n

/-- The database with the stops and this timetable. -/
def DniPowszednie.firestore (db : DniPowszednie) (przystanki : List Przystanek) : Firestore where
  przystanki := przystanki
  trasa := db.trasa

namespace HomePage

variable {db : DniPowszednie} {przystanki : List Przystanek} {s : HomePage} {n id1 id2 : ℤ}

theorem lineServes_iff (hdb : db.Canonical) (hl : -2 ^ 63 ≤ n) (hu : n < 2 ^ 63) :
    LineServes (db.firestore przystanki) n id1 id2 ↔
      ∃ j, (j = 1 ∨ j = 2) ∧ Goes (db.trasa (toString n) j) id1 id2 := by
  constructor
  · rintro ⟨line, hline, j, hj, hg⟩
    obtain ⟨_, hp, -⟩ := id hg
    obtain ⟨p, hp, -⟩ := List.mem_map.1 hp
    obtain rfl := hdb line j (List.ne_nil_of_mem hp) n hline
    exact ⟨j, hj, hg⟩
  · rintro ⟨j, hj, hg⟩
    exact ⟨toString n, intParse_toString hl hu, j, hj, hg⟩

/-- **The lines found for a journey are those that the timetable shows with the first stop above the
second** on the first course in one of the two directions. -/
theorem shown_iff_above (hdb : db.Canonical) (hreg : (db.firestore przystanki).Regular)
    (hlisted : (db.firestore przystanki).Listed)
    (h : ((lts (db.firestore przystanki)).guard Prompt).Reachable initial s)
    (hch : s.Chosen id1 id2) (hdone : s.Done) (hp : ∃ p ∈ przystanki, p.id = id1)
    (hq : ∃ q ∈ przystanki, q.id = id2) (hl : -2 ^ 63 ≤ n) (hu : n < 2 ^ 63)
    (hnd : ∀ j, ((db.kurs (toString n) j 1).map KursStop.l).Nodup) {docs₁ docs₂ : List KursStop}
    (h₁ : LinesPage.Shows db n 1 1 docs₁) (h₂ : LinesPage.Shows db n 2 1 docs₂) :
    n ∈ s.D ↔ StopsPage.Above docs₁ id1 id2 ∨ StopsPage.Above docs₂ id1 id2 := by
  rw [mem_D_iff hreg hlisted h hch hdone hp hq, lineServes_iff hdb hl hu,
    StopsPage.above_iff_goes h₁.kurs (hnd 1), StopsPage.above_iff_goes h₂.kurs (hnd 2)]
  simp

/-- Line 5, with one departure in each direction. -/
def piatka : DniPowszednie where
  linie := [⟨5, "Ratusz", "Dworzec"⟩]
  godziny
    | "5", 1 => [⟨1, 8, 0⟩]
    | "5", 2 => [⟨1, 9, 30⟩]
    | _, _ => []
  kurs
    | "5", 1, 1 => [⟨"10", 1, "Dworzec", false, 8, 0⟩, ⟨"20", 2, "Ratusz", false, 8, 6⟩]
    | "5", 2, 1 => [⟨"20", 1, "Ratusz", false, 9, 30⟩, ⟨"10", 2, "Dworzec", false, 9, 36⟩]
    | _, _, _ => []

theorem kurs_piatka_cases {line : String} {j k : ℕ} (h : piatka.kurs line j k ≠ []) :
    line = "5" ∧ (j = 1 ∨ j = 2) ∧ k = 1 := by
  simp only [piatka] at h
  split at h
  · exact ⟨rfl, .inl rfl, rfl⟩
  · exact ⟨rfl, .inr rfl, rfl⟩
  · exact absurd rfl h

theorem firestore_piatka : piatka.firestore oneLine.przystanki = oneLine := by
  have htrasa : piatka.trasa = oneLine.trasa := by
    funext line j
    simp only [DniPowszednie.trasa, piatka, oneLine]
    split
    · rfl
    · rfl
    · rename_i h1 h2
      split
      · exact absurd rfl (h1 rfl rfl)
      · exact absurd rfl (h2 rfl rfl)
      · rfl
  rw [DniPowszednie.firestore, htrasa]

theorem canonical_piatka : piatka.Canonical := by
  intro line j h n hn
  obtain ⟨rfl, -⟩ := kurs_piatka_cases h
  obtain rfl : 5 = n := Option.some.inj (hn ▸ by decide)
  rfl

theorem shown_iff_above_piatka : ∃ s : HomePage, s.D = [5] ∧ ∃ docs₁ docs₂,
    (5 ∈ s.D ↔ StopsPage.Above docs₁ 10 20 ∨ StopsPage.Above docs₂ 10 20) := by
  obtain ⟨s, hreach, hch, hdone, hD⟩ := exists_prompt_oneLine
  have hnd : ∀ j, ((piatka.kurs (toString 5) j 1).map KursStop.l).Nodup := by
    intro j
    by_cases h : piatka.kurs (toString 5) j 1 = []
    · rw [h]
      exact List.nodup_nil
    · obtain ⟨-, rfl | rfl, -⟩ := kurs_piatka_cases h
      · decide
      · decide
  have h₁ : StopsPage.Kurs piatka 5 1 1 (piatka.kurs "5" 1 1) := by decide
  have h₂ : StopsPage.Kurs piatka 5 2 1 (piatka.kurs "5" 2 1) := by decide
  exact ⟨s, hD, _, _, shown_iff_above canonical_piatka
    (firestore_piatka ▸ wellFormed_oneLine.toRegular) (firestore_piatka ▸ listed_oneLine) (firestore_piatka.symm ▸ hreach) hch hdone
    ⟨_, List.mem_cons_self, rfl⟩ ⟨_, List.mem_cons_of_mem _ List.mem_cons_self, rfl⟩
    (by decide) (by decide) hnd
    (LinesPage.shows_of_kurs (d := ⟨5, "Ratusz", "Dworzec"⟩) (by decide) (.inl rfl) h₁)
    (LinesPage.shows_of_kurs (d := ⟨5, "Ratusz", "Dworzec"⟩) (by decide) (.inr rfl) h₂)⟩

end HomePage

end MapaZimSlupsk
