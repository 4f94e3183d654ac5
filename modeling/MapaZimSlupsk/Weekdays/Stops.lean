import MapaZimSlupsk.Firestore.Documents
import MapaZimSlupsk.Lts.Basic
import MapaZimSlupsk.Sort.Ordered
import MapaZimSlupsk.Watch.Basic
import MapaZimSlupsk.Weekdays.Times

/-!
# The stops of a course

The page `/stops` shows the stops of one course of a line, at first those of the first one.  A sheet
over it lists the departures of the day; the one that is tapped gives the page the text of its time,
and its place in the list as the number of the course.

* `DniPowszednie` : the timetable.
* `StopsPage` : the fields of the page, what its last build drew and the queries it watches.
* `StopsPage.Event`, `StopsPage.step`, `StopsPage.lts` : what may happen to it.
* `StopsPage.Inv` : the invariant of its runs.
* `StopsPage.course_of_reachable` : **the text drawn is the time of a departure, and the stops below
  are those of the course with the number of this departure, unless they are still waited for**.
* `StopsPage.stops_of_run` : **stops that are waited for are those of a course drawn before**.

Every build listens anew, since it makes a new query, and keeps the old stops until the answer.
-/

namespace MapaZimSlupsk

/-- A document of `Dni powszednie/<line>/<direction>/p1/godziny`: the `l`-th departure. -/
structure Godzina where
  l : ℤ
  h : ℤ
  m : ℤ
  deriving DecidableEq, Repr

/-- A document of `Dni powszednie/<line>/<direction>/k<number>/p`: the `l`-th stop of a course.  The
time is only read if the stop is not limited (`o`). -/
structure KursStop where
  id : String
  l : ℤ
  n : String
  o : Bool
  h : ℤ
  m : ℤ
  deriving DecidableEq, Repr

/-- A document of `Dni powszednie`: a line and the names of its directions. -/
structure Linia where
  l : ℤ
  kr1 : String
  kr2 : String
  deriving DecidableEq, Repr

/-- The timetable for weekdays. -/
structure DniPowszednie where
  linie : List Linia
  /-- `godziny line j` : the collection `Dni powszednie/<line>/<j>/p1/godziny`. -/
  godziny : String → ℕ → List Godzina
  /-- `kurs line j k` : the collection `Dni powszednie/<line>/<j>/k<k>/p`. -/
  kurs : String → ℕ → ℕ → List KursStop

/-- A row of the page. -/
inductive Wiersz where
  | ograniczony (text : String)
  | pelny (itemTitle sub id : String)
  deriving DecidableEq, Repr

/-- The row of a stop. -/
def KursStop.wiersz (d : KursStop) : Wiersz :=
  if d.o then .ograniczony (d.n ++ " (" ++ d.id ++ ")")
  else .pelny d.n (sub1 d.h d.m) ("(" ++ d.id ++ ")")

/-- The state of the page. -/
structure StopsPage where
  /-- The arguments of the route. -/
  linia : ℤ
  kierunek : ℕ
  godzina : Option ℤ := none
  minuta : Option ℤ := none
  numerek : ℕ := 1
  nrkurs : String := ""
  /-- The text that the last build put over the stops. -/
  naglowek : String
  /-- The stops of a course, by its number. -/
  kurs : Watch ℕ (List KursStop)
  /-- The departures, while the sheet with them is open. -/
  godziny : Option (Watch Unit (List Godzina)) := none
  mounted : Bool := true
  /-- The calls of `setState` made after the disposal of the page. -/
  lateSetStates : ℕ := 0
  deriving DecidableEq

namespace StopsPage

/-- What may happen to the page. -/
inductive Event where
  /-- The framework calls `build`. -/
  | build
  /-- The stops arrive, or an error in their place. -/
  | kurs (docs : List KursStop)
  | kursError
  /-- The button for the departures is tapped. -/
  | openSheet
  /-- The framework builds the sheet again. -/
  | buildSheet
  /-- The departures arrive, or an error in their place. -/
  | godziny (docs : List Godzina)
  | godzinyError
  /-- The departure at this place is tapped. -/
  | tap (index : ℕ)
  /-- The sheet is closed. -/
  | closeSheet
  /-- The page is left. -/
  | pop
  deriving DecidableEq

/-- The text over the stops. -/
def tytul (linia : ℤ) (nrkurs : String) : String :=
  "Linia nr " ++ toString linia ++ ", kurs: " ++ nrkurs ++ ""

/-- The page with its first build. -/
def initial (linia : ℤ) (kierunek : ℕ) : StopsPage where
  linia := linia
  kierunek := kierunek
  naglowek := tytul linia ""
  kurs := .start 1

/-- Draw the text and listen to the stops of the course. -/
def build (s : StopsPage) : StopsPage :=
  { s with naglowek := tytul s.linia s.nrkurs, kurs := s.kurs.rewatch s.numerek }

/-- A departure is tapped. -/
def onPressed (s : StopsPage) (index : ℕ) (g : Godzina) : StopsPage :=
  if s.mounted then
    { s with
      numerek := index + 1, godzina := some g.h, minuta := some g.m, nrkurs := sub1 g.h g.m }
  else { s with lateSetStates := s.lateSetStates + 1 }

/-- The rows of the page, none while it says that it is loading. -/
def wiersze (s : StopsPage) : Option (List Wiersz) := s.kurs.data.map (·.map KursStop.wiersz)

/-- The documents answer the query for the course. -/
def Kurs (db : DniPowszednie) (linia : ℤ) (kierunek numerek : ℕ) (docs : List KursStop) : Prop :=
  OrderedBy KursStop.l (db.kurs (toString linia) kierunek numerek) docs

/-- The documents answer the query for the departures. -/
def Godziny (db : DniPowszednie) (linia : ℤ) (kierunek : ℕ) (docs : List Godzina) : Prop :=
  OrderedBy Godzina.l (db.godziny (toString linia) kierunek) docs

instance (db : DniPowszednie) (linia : ℤ) (kierunek numerek : ℕ) (docs : List KursStop) :
    Decidable (Kurs db linia kierunek numerek docs) :=
  inferInstanceAs (Decidable (OrderedBy ..))

instance (db : DniPowszednie) (linia : ℤ) (kierunek : ℕ) (docs : List Godzina) :
    Decidable (Godziny db linia kierunek docs) :=
  inferInstanceAs (Decidable (OrderedBy ..))

/-- The step of the page over the timetable `db`; `none` if the event cannot happen. -/
def step (db : DniPowszednie) (s : StopsPage) : Event → Option StopsPage
  | .build => if s.mounted then some s.build else none
  | .kurs docs =>
    if s.mounted ∧ Kurs db s.linia s.kierunek s.kurs.query docs then
      some { s with kurs := s.kurs.deliver docs }
    else none
  | .kursError => if s.mounted then some { s with kurs := s.kurs.fail } else none
  | .openSheet =>
    if s.mounted ∧ s.godziny = none then some { s with godziny := some (.start ()) } else none
  | .buildSheet => s.godziny.map fun w => { s with godziny := some (w.rewatch ()) }
  | .godziny docs =>
    if Godziny db s.linia s.kierunek docs then
      s.godziny.map fun w => { s with godziny := some (w.deliver docs) }
    else none
  | .godzinyError => s.godziny.map fun w => { s with godziny := some w.fail }
  | .tap index =>
    (s.godziny.bind (·.data)).bind fun docs => docs[index]?.map fun g => s.onPressed index g
  | .closeSheet => s.godziny.map fun _ => { s with godziny := none }
  | .pop => if s.mounted ∧ s.godziny = none then some { s with mounted := false } else none

/-- The page over the timetable `db`. -/
def lts (db : DniPowszednie) : Lts StopsPage Event := .ofFun (step db)

variable {db : DniPowszednie} {linia : ℤ} {kierunek : ℕ} {s t : StopsPage} {e : Event}
  {ls : List Event}

/-! ### What a step can do -/

/-- What a step does to the page. -/
inductive Effect (db : DniPowszednie) (s : StopsPage) : Event → StopsPage → Prop
  | build (hm : s.mounted) : Effect db s .build s.build
  | kurs (docs : List KursStop) (hm : s.mounted)
      (hdocs : Kurs db s.linia s.kierunek s.kurs.query docs) :
      Effect db s (.kurs docs) { s with kurs := s.kurs.deliver docs }
  | kursError (hm : s.mounted) : Effect db s .kursError { s with kurs := s.kurs.fail }
  | openSheet (hm : s.mounted) (hs : s.godziny = none) :
      Effect db s .openSheet { s with godziny := some (.start ()) }
  | buildSheet (w : Watch Unit (List Godzina)) (hs : s.godziny = some w) :
      Effect db s .buildSheet { s with godziny := some (w.rewatch ()) }
  | godziny (docs : List Godzina) (w : Watch Unit (List Godzina)) (hs : s.godziny = some w)
      (hdocs : Godziny db s.linia s.kierunek docs) :
      Effect db s (.godziny docs) { s with godziny := some (w.deliver docs) }
  | godzinyError (w : Watch Unit (List Godzina)) (hs : s.godziny = some w) :
      Effect db s .godzinyError { s with godziny := some w.fail }
  | tap (index : ℕ) (w : Watch Unit (List Godzina)) (docs : List Godzina) (g : Godzina)
      (hs : s.godziny = some w) (hw : w.data = some docs) (hg : docs[index]? = some g) :
      Effect db s (.tap index) (s.onPressed index g)
  | closeSheet (w : Watch Unit (List Godzina)) (hs : s.godziny = some w) :
      Effect db s .closeSheet { s with godziny := none }
  | pop (hm : s.mounted) (hs : s.godziny = none) : Effect db s .pop { s with mounted := false }

theorem effect_of_step (h : step db s e = some t) : Effect db s e t := by
  cases e with
  | build =>
    obtain ⟨hm, h⟩ := Option.ite_none_right_eq_some.1 h
    cases h
    exact .build hm
  | kurs docs =>
    obtain ⟨⟨hm, hdocs⟩, h⟩ := Option.ite_none_right_eq_some.1 h
    cases h
    exact .kurs docs hm hdocs
  | kursError =>
    obtain ⟨hm, h⟩ := Option.ite_none_right_eq_some.1 h
    cases h
    exact .kursError hm
  | openSheet =>
    obtain ⟨⟨hm, hs⟩, h⟩ := Option.ite_none_right_eq_some.1 h
    cases h
    exact .openSheet hm hs
  | buildSheet =>
    obtain ⟨w, hs, rfl⟩ := Option.map_eq_some_iff.1 h
    exact .buildSheet w hs
  | godziny docs =>
    obtain ⟨hdocs, h⟩ := Option.ite_none_right_eq_some.1 h
    obtain ⟨w, hs, rfl⟩ := Option.map_eq_some_iff.1 h
    exact .godziny docs w hs hdocs
  | godzinyError =>
    obtain ⟨w, hs, rfl⟩ := Option.map_eq_some_iff.1 h
    exact .godzinyError w hs
  | tap index =>
    obtain ⟨docs, hdocs, h⟩ := Option.bind_eq_some_iff.1 h
    obtain ⟨w, hs, hw⟩ := Option.bind_eq_some_iff.1 hdocs
    obtain ⟨g, hg, rfl⟩ := Option.map_eq_some_iff.1 h
    exact .tap index w docs g hs hw hg
  | closeSheet =>
    obtain ⟨w, hs, rfl⟩ := Option.map_eq_some_iff.1 h
    exact .closeSheet w hs
  | pop =>
    obtain ⟨⟨hm, hs⟩, h⟩ := Option.ite_none_right_eq_some.1 h
    cases h
    exact .pop hm hs

/-- A step leaves the stops as they are, listens to the course of the last choice, shows an answer
or drops the stops. -/
theorem Effect.kurs_cases (he : Effect db s e t) :
    t.kurs = s.kurs ∨ t.kurs = s.kurs.rewatch s.numerek ∨
      (∃ docs, Kurs db s.linia s.kierunek s.kurs.query docs ∧ t.kurs = s.kurs.deliver docs) ∨
      t.kurs = s.kurs.fail := by
  cases he with
  | build => exact .inr (.inl rfl)
  | kurs docs _ hdocs => exact .inr (.inr (.inl ⟨docs, hdocs, rfl⟩))
  | kursError => exact .inr (.inr (.inr rfl))
  | tap =>
    left
    unfold onPressed
    split_ifs <;> rfl
  | openSheet | buildSheet | godziny | godzinyError | closeSheet | pop => exact .inl rfl

/-- Nothing mounts a page again. -/
theorem Effect.mounted (he : Effect db s e t) (ht : t.mounted) : s.mounted := by
  cases he with
  | tap =>
    unfold onPressed at ht
    split_ifs at ht with hm
    · exact hm
    · exact absurd ht hm
  | pop => exact absurd ht Bool.false_ne_true
  | build | kurs | kursError | openSheet | buildSheet | godziny | godzinyError | closeSheet =>
    exact ht

/-! ### The invariant -/

/-- The text and the number belong together: those before any choice, or those of a departure. -/
inductive Chosen (db : DniPowszednie) (linia : ℤ) (kierunek : ℕ) : String → ℕ → Prop
  | first : Chosen db linia kierunek "" 1
  | departure (docs : List Godzina) (i : ℕ) (g : Godzina) (hdocs : Godziny db linia kierunek docs)
      (hg : docs[i]? = some g) : Chosen db linia kierunek (sub1 g.h g.m) (i + 1)

/-- The invariant of the page for a line and a direction. -/
structure Inv (db : DniPowszednie) (linia : ℤ) (kierunek : ℕ) (s : StopsPage) : Prop where
  linia_eq : s.linia = linia
  kierunek_eq : s.kierunek = kierunek
  chosen : Chosen db linia kierunek s.nrkurs s.numerek
  time : ∀ h m, s.godzina = some h → s.minuta = some m → s.nrkurs = sub1 h m
  /-- The last build has drawn the text of the course it listens to. -/
  drawn : ∃ nrkurs, s.naglowek = tytul linia nrkurs ∧
    Chosen db linia kierunek nrkurs s.kurs.query
  kurs : s.kurs.Sound (Kurs db linia kierunek) fun k => ∃ nrkurs, Chosen db linia kierunek nrkurs k
  /-- The page lies under its sheet. -/
  sheet : ∀ w, s.godziny = some w →
    s.mounted ∧ w.Sound (fun _ => Godziny db linia kierunek) fun _ => True
  late : s.lateSetStates = 0

theorem inv_initial : (initial linia kierunek).Inv db linia kierunek where
  linia_eq := rfl
  kierunek_eq := rfl
  chosen := .first
  time := nofun
  drawn := ⟨"", rfl, .first⟩
  kurs := Watch.sound_start ⟨"", .first⟩
  sheet := nofun
  late := rfl

/-- The sheet shows something else. -/
theorem Inv.setSheet (h : s.Inv db linia kierunek) {w : Watch Unit (List Godzina)}
    (hm : s.mounted) (hw : w.Sound (fun _ => Godziny db linia kierunek) fun _ => True) :
    ({ s with godziny := some w } : StopsPage).Inv db linia kierunek :=
  { h with sheet := by rintro _ ⟨rfl⟩; exact ⟨hm, hw⟩ }

theorem Inv.onPressed (h : s.Inv db linia kierunek) (hm : s.mounted) {docs : List Godzina} {i : ℕ}
    {g : Godzina} (hdocs : Godziny db linia kierunek docs) (hg : docs[i]? = some g) :
    (s.onPressed i g).Inv db linia kierunek := by
  rw [StopsPage.onPressed, if_pos hm]
  exact { h with
    chosen := .departure docs i g hdocs hg
    time := by rintro _ _ ⟨rfl⟩ ⟨rfl⟩; rfl }

theorem Inv.effect (h : s.Inv db linia kierunek) (he : Effect db s e t) :
    t.Inv db linia kierunek := by
  have hlinia := h.linia_eq
  have hkierunek := h.kierunek_eq
  cases he with
  | build =>
    refine { h with drawn := ⟨s.nrkurs, ?_, h.chosen⟩, kurs := h.kurs.rewatch ⟨_, h.chosen⟩ }
    rw [← hlinia]
    rfl
  | kurs docs hm hdocs =>
    rw [hlinia, hkierunek] at hdocs
    exact { h with kurs := h.kurs.deliver hdocs }
  | kursError => exact { h with kurs := h.kurs.fail }
  | openSheet hm => exact h.setSheet hm (Watch.sound_start trivial)
  | buildSheet w hs => exact h.setSheet (h.sheet w hs).1 ((h.sheet w hs).2.rewatch trivial)
  | godziny docs w hs hdocs =>
    rw [hlinia, hkierunek] at hdocs
    exact h.setSheet (h.sheet w hs).1 ((h.sheet w hs).2.deliver hdocs)
  | godzinyError w hs => exact h.setSheet (h.sheet w hs).1 (h.sheet w hs).2.fail
  | tap i w docs g hs hw hg =>
    obtain ⟨_, -, hdocs⟩ := (h.sheet w hs).2.earlier docs hw
    exact h.onPressed (h.sheet w hs).1 hdocs hg
  | closeSheet => exact { h with sheet := nofun }
  | pop hm hs =>
    exact { h with sheet := fun w hw => absurd (hs.symm.trans hw) nofun }

theorem inv_of_reachable (h : (lts db).Reachable (initial linia kierunek) s) :
    s.Inv db linia kierunek :=
  h.invariant inv_initial fun _ _ _ hinv hst => hinv.effect (effect_of_step hst)

/-! ### The course shown -/

/-- **The text drawn is the time of a departure and its number that of the course watched, and over
an active connection the rows are the stops of this course in their order.** -/
theorem course_of_reachable (h : (lts db).Reachable (initial linia kierunek) s) :
    (∃ nrkurs, s.naglowek = tytul linia nrkurs ∧ Chosen db linia kierunek nrkurs s.kurs.query) ∧
      (s.kurs.connection = .active → ∀ rows, s.wiersze = some rows →
        ∃ docs, Kurs db linia kierunek s.kurs.query docs ∧ rows = docs.map KursStop.wiersz) ∧
      s.lateSetStates = 0 := by
  have hinv := inv_of_reachable h
  refine ⟨hinv.drawn, fun hc rows hrows => ?_, hinv.late⟩
  obtain ⟨docs, hdocs, rfl⟩ := Option.map_eq_some_iff.1 hrows
  exact ⟨docs, hinv.kurs.current hc docs hdocs, rfl⟩

/-- Line 1 leaves at 5:07 and at 15:40, the second time only as far as the first stop. -/
def jedynka : DniPowszednie where
  linie := [⟨1, "Ratusz", "Dworzec"⟩]
  godziny
    | "1", 1 => [⟨2, 15, 40⟩, ⟨1, 5, 7⟩]
    | _, _ => []
  kurs
    | "1", 1, 1 => [⟨"10", 1, "Dworzec", false, 5, 7⟩, ⟨"20", 2, "Ratusz", false, 5, 12⟩]
    | "1", 1, 2 => [⟨"20", 2, "Ratusz", true, 0, 0⟩, ⟨"10", 1, "Dworzec", false, 15, 40⟩]
    | _, _, _ => []

/-- The stops of the first course arrive; the second departure is chosen and its stops arrive. -/
def druga : List Event :=
  [.kurs [⟨"10", 1, "Dworzec", false, 5, 7⟩, ⟨"20", 2, "Ratusz", false, 5, 12⟩], .openSheet,
    .godziny [⟨1, 5, 7⟩, ⟨2, 15, 40⟩], .tap 1, .build,
    .kurs [⟨"10", 1, "Dworzec", false, 15, 40⟩, ⟨"20", 2, "Ratusz", true, 0, 0⟩]]

theorem course_of_reachable_druga : ∃ s, (lts jedynka).Reachable (initial 1 1) s ∧
    s.naglowek = "Linia nr 1, kurs: 15:40" ∧
    s.wiersze = some [.pelny "Dworzec" "15:40" "(10)", .ograniczony "Ratusz (20)"] ∧
    ∃ docs, Kurs jedynka 1 1 s.kurs.query docs ∧
      [.pelny "Dworzec" "15:40" "(10)", .ograniczony "Ratusz (20)"] = docs.map KursStop.wiersz := by
  obtain ⟨s, hr, hs⟩ := Lts.exists_run_of_any (step jedynka) (initial 1 1) druga
    (fun s => s.naglowek = "Linia nr 1, kurs: 15:40" ∧ s.kurs.connection = .active ∧
      s.wiersze = some [.pelny "Dworzec" "15:40" "(10)", .ograniczony "Ratusz (20)"])
    (by decide)
  obtain ⟨hn, hc, hrows⟩ := of_decide_eq_true hs
  exact ⟨s, hr.reachable, hn, hrows, (course_of_reachable hr.reachable).2.1 hc _ hrows⟩

/-- Some state of the run `ls` to `s` watches the course with the stops `docs`; it is the course
that `s` watches, if the connection of `s` is active. -/
def Watched (db : DniPowszednie) (linia : ℤ) (kierunek : ℕ) (ls : List Event) (s : StopsPage)
    (docs : List KursStop) : Prop :=
  ∃ ls₁ ls₂ u, ls = ls₁ ++ ls₂ ∧ (lts db).Run (initial linia kierunek) ls₁ u ∧
    (lts db).Run u ls₂ s ∧ Kurs db linia kierunek u.kurs.query docs ∧
    (s.kurs.connection = .active → u.kurs.query = s.kurs.query)

/-- Stops that stay were watched where they were before. -/
theorem Watched.snoc {docs : List KursStop} (h : Watched db linia kierunek ls s docs)
    (hst : (lts db).step s e t) (hact : t.kurs.connection = .active →
      s.kurs.connection = .active ∧ t.kurs.query = s.kurs.query) :
    Watched db linia kierunek (ls ++ [e]) t docs := by
  obtain ⟨ls₁, ls₂, u, rfl, hu, hus, hdocs, hq⟩ := h
  refine ⟨ls₁, ls₂ ++ [e], u, List.append_assoc .., hu, .snoc hus hst, hdocs, fun hc => ?_⟩
  rw [hq (hact hc).1, (hact hc).2]

/-- **The stops shown are those of a course watched before.** -/
theorem stops_of_run (h : (lts db).Run (initial linia kierunek) ls s) {docs : List KursStop}
    (hdocs : s.kurs.data = some docs) : Watched db linia kierunek ls s docs := by
  induction h generalizing docs with
  | nil => cases hdocs
  | @snoc ls l t t' hr hst ih =>
    have hinv := inv_of_reachable hr.reachable
    obtain he | he | ⟨docs', hdocs', he⟩ | he := (effect_of_step hst).kurs_cases
    · rw [he] at hdocs
      exact (ih hdocs).snoc hst fun hc => ⟨he ▸ hc, by rw [he]⟩
    · rw [he] at hdocs
      exact (ih hdocs).snoc hst fun hc => absurd (he ▸ hc) nofun
    · -- the answer is to the query of the present state
      obtain rfl : docs' = docs := by simpa [he, Watch.deliver] using hdocs
      rw [hinv.linia_eq, hinv.kierunek_eq] at hdocs'
      exact ⟨ls ++ [l], [], t', by simp, .snoc hr hst, .nil, by simpa [he] using hdocs',
        fun _ => rfl⟩
    · rw [he] at hdocs
      cases hdocs

/-- The stops of the first course under the time of the second departure. -/
theorem stops_of_run_druga : ∃ s docs, s.naglowek = "Linia nr 1, kurs: 15:40" ∧
    s.kurs.data = some docs ∧ Watched jedynka 1 1 (druga.take 5) s docs := by
  obtain ⟨s, hr, hs⟩ := Lts.exists_run_of_any (step jedynka) (initial 1 1) (druga.take 5)
    (fun s => s.naglowek = "Linia nr 1, kurs: 15:40" ∧ s.kurs.data =
      some [⟨"10", 1, "Dworzec", false, 5, 7⟩, ⟨"20", 2, "Ratusz", false, 5, 12⟩])
    (by decide)
  obtain ⟨hn, hdocs⟩ := of_decide_eq_true hs
  exact ⟨s, _, hn, hdocs, stops_of_run hr hdocs⟩

end StopsPage

end MapaZimSlupsk
