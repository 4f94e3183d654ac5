import MapaZimSlupsk.App.Stack
import MapaZimSlupsk.Lts.Simulation
import MapaZimSlupsk.Weekdays.Stops

/-!
# The tab of the lines

The tab lists the lines of the timetable, each on a card with a button for either direction, which
opens the page of the stops.

* `LinesPage` : the lines watched and the page over the tab.
* `LinesPage.Event`, `LinesPage.step`, `LinesPage.lts` : what may happen to them.
* `LinesPage.stops_iff` : the pages over the tab are those of the stops of a line of the timetable,
  in one of its two directions, after any run of their own.
* `LinesPage.simulates_app`, `LinesPage.app_reachable` : **the tab is a part of the app**, which
  reaches every state that the tab does.
-/

namespace MapaZimSlupsk

/-- The card of a line. -/
structure CardItem where
  itemTitle : String
  kr1 : String
  kr2 : String
  x : ℤ
  deriving DecidableEq, Repr

/-- The card of a document. -/
def Linia.cardItem (d : Linia) : CardItem := ⟨toString d.l, d.kr1, d.kr2, d.l⟩

/-- The page that a button of the card opens. -/
def CardItem.onPressed (c : CardItem) (pierwszy : Bool) : StopsPage :=
  .initial c.x (if pierwszy then 1 else 2)

/-- The state of the tab. -/
structure LinesPage where
  linie : Watch Unit (List Linia) := .start ()
  /-- The page over the tab. -/
  stops : Option StopsPage := none
  deriving DecidableEq

namespace LinesPage

/-- What may happen to the tab and the page over it. -/
inductive Event where
  /-- The framework calls `build`. -/
  | build
  /-- The lines arrive, or an error in their place. -/
  | linie (docs : List Linia)
  | linieError
  /-- A button of the card at this place is tapped. -/
  | onPressed (index : ℕ) (pierwszy : Bool)
  /-- An event of the page over the tab. -/
  | stops (e : StopsPage.Event)
  deriving DecidableEq

def initial : LinesPage := {}

/-- The cards of the tab, none while it says that it is loading. -/
def karty (s : LinesPage) : Option (List CardItem) := s.linie.data.map (·.map Linia.cardItem)

/-- The page over the tab, unless it has been left. -/
def setStops (s : LinesPage) (p : StopsPage) : LinesPage :=
  { s with stops := if p.mounted then some p else none }

/-- The step of the tab over the timetable `db`; `none` if the event cannot happen. -/
def step (db : DniPowszednie) (s : LinesPage) : Event → Option LinesPage
  | .build => some { s with linie := s.linie.rewatch () }
  | .linie docs =>
    if OrderedBy Linia.l db.linie docs then some { s with linie := s.linie.deliver docs } else none
  | .linieError => some { s with linie := s.linie.fail }
  | .onPressed index pierwszy =>
    if s.stops = none then
      (s.karty.bind (·[index]?)).map fun c => { s with stops := some (c.onPressed pierwszy) }
    else none
  | .stops e => s.stops.bind fun p => (p.step db e).map s.setStops

/-- The tab over the timetable `db`. -/
def lts (db : DniPowszednie) : Lts LinesPage Event := .ofFun (step db)

variable {db : DniPowszednie} {s t : LinesPage} {e : Event} {p : StopsPage}

/-! ### What a step can do -/

/-- What a step does to the tab. -/
inductive Effect (db : DniPowszednie) (s : LinesPage) : Event → LinesPage → Prop
  | build : Effect db s .build { s with linie := s.linie.rewatch () }
  | linie (docs : List Linia) (hdocs : OrderedBy Linia.l db.linie docs) :
      Effect db s (.linie docs) { s with linie := s.linie.deliver docs }
  | linieError : Effect db s .linieError { s with linie := s.linie.fail }
  | onPressed (index : ℕ) (pierwszy : Bool) (docs : List Linia) (d : Linia) (hs : s.stops = none)
      (hdocs : s.linie.data = some docs) (hd : docs[index]? = some d) :
      Effect db s (.onPressed index pierwszy)
        { s with stops := some (d.cardItem.onPressed pierwszy) }
  | stops (e : StopsPage.Event) (p q : StopsPage) (hs : s.stops = some p)
      (hst : p.step db e = some q) : Effect db s (.stops e) (s.setStops q)

theorem effect_of_step (h : step db s e = some t) : Effect db s e t := by
  cases e with
  | build =>
    cases h
    exact .build
  | linie docs =>
    obtain ⟨hdocs, h⟩ := Option.ite_none_right_eq_some.1 h
    cases h
    exact .linie docs hdocs
  | linieError =>
    cases h
    exact .linieError
  | onPressed index pierwszy =>
    obtain ⟨hs, h⟩ := Option.ite_none_right_eq_some.1 h
    obtain ⟨c, hc, rfl⟩ := Option.map_eq_some_iff.1 h
    obtain ⟨_, hcards, hc⟩ := Option.bind_eq_some_iff.1 hc
    obtain ⟨docs, hdocs, rfl⟩ := Option.map_eq_some_iff.1 hcards
    obtain ⟨d, hd, rfl⟩ := Option.map_eq_some_iff.1 (List.getElem?_map .. ▸ hc)
    exact .onPressed index pierwszy docs d hs hdocs hd
  | stops e =>
    obtain ⟨p, hs, h⟩ := Option.bind_eq_some_iff.1 h
    obtain ⟨q, hst, rfl⟩ := Option.map_eq_some_iff.1 h
    exact .stops e p q hs hst

/-! ### The page over the tab -/

/-- The page is one of the stops of a line in the timetable, after a run of its own. -/
def Opened (db : DniPowszednie) (p : StopsPage) : Prop :=
  p.mounted ∧ ∃ d ∈ db.linie, ∃ j, (j = 1 ∨ j = 2) ∧
    (StopsPage.lts db).Reachable (.initial d.l j) p

theorem opened_onPressed {d : Linia} (hd : d ∈ db.linie) (pierwszy : Bool) :
    Opened db (d.cardItem.onPressed pierwszy) := by
  refine ⟨rfl, d, hd, if pierwszy then 1 else 2, ?_, .refl _⟩
  split_ifs <;> simp

/-- The lines shown are those of the timetable, and so is the line of the page over the tab. -/
structure Inv (db : DniPowszednie) (s : LinesPage) : Prop where
  linie : s.linie.Sound (fun _ => OrderedBy Linia.l db.linie) fun _ => True
  stops : ∀ p, s.stops = some p → Opened db p

theorem inv_initial : initial.Inv db := ⟨Watch.sound_start trivial, nofun⟩

theorem Inv.effect (h : s.Inv db) (he : Effect db s e t) : t.Inv db := by
  cases he with
  | build => exact ⟨h.linie.rewatch trivial, h.stops⟩
  | linie docs hdocs => exact ⟨h.linie.deliver hdocs, h.stops⟩
  | linieError => exact ⟨h.linie.fail, h.stops⟩
  | onPressed index pierwszy docs d hs hdocs hd =>
    obtain ⟨_, -, hord⟩ := h.linie.earlier docs hdocs
    refine ⟨h.linie, ?_⟩
    rintro _ ⟨rfl⟩
    exact opened_onPressed (hord.mem_iff.1 (List.mem_of_getElem? hd)) pierwszy
  | stops e p q hs hst =>
    obtain ⟨-, d, hd, j, hj, hr⟩ := h.stops p hs
    refine ⟨h.linie, fun q' hq => ?_⟩
    obtain ⟨hm, hq⟩ := Option.ite_none_right_eq_some.1 hq
    cases hq
    exact ⟨hm, d, hd, j, hj, hr.tail hst⟩

theorem inv_of_reachable (h : (lts db).Reachable initial s) : s.Inv db :=
  h.invariant inv_initial fun _ _ _ hinv hst => hinv.effect (effect_of_step hst)

/-- Every line can be opened in either direction. -/
theorem exists_onPressed {d : Linia} (hd : d ∈ db.linie) {j : ℕ} (hj : j = 1 ∨ j = 2) :
    ∃ s, (lts db).Reachable initial s ∧ s.stops = some (.initial d.l j) := by
  obtain ⟨docs, hdocs⟩ := exists_orderedBy Linia.l db.linie
  obtain ⟨i, hi⟩ := List.mem_iff_getElem?.1 (hdocs.mem_iff.2 hd)
  have hrun : ([.linie docs, .onPressed i (j = 1)] : List Event).foldlM (step db) initial =
      some { linie := (Watch.start ()).deliver docs,
             stops := some (d.cardItem.onPressed (j = 1)) } := by
    simp [step, initial, karty, Watch.deliver, Watch.start, hdocs, hi]
  refine ⟨_, (Lts.ofFun_run hrun).reachable, ?_⟩
  obtain rfl | rfl := hj
  · rfl
  · rfl

/-- **The pages over the tab are those of the stops of a line in one of its directions.** -/
theorem stops_iff : (∃ s, (lts db).Reachable initial s ∧ s.stops = some p) ↔ Opened db p := by
  constructor
  · rintro ⟨s, hs, hp⟩
    exact (inv_of_reachable hs).stops p hp
  · rintro ⟨hm, d, hd, j, hj, hr⟩
    refine hr.invariant (I := fun p => p.mounted →
      ∃ s, (lts db).Reachable initial s ∧ s.stops = some p) (fun _ => exists_onPressed hd hj) ?_ hm
    intro p e q ih hst hm
    obtain ⟨s, hs, hp⟩ := ih ((StopsPage.effect_of_step hst).mounted hm)
    refine ⟨s.setStops q, hs.tail (l := .stops e) ?_, if_pos hm⟩
    show s.stops.bind _ = _
    rw [hp, Option.bind_some, show p.step db e = some q from hst, Option.map_some]

/-! ### The tab in the app -/

/-- The app with this tab, in place of the present one. -/
def app (a : App) (s : LinesPage) : App :=
  { a with tab := .lines, tabPage := none, routes := if s.stops.isSome then [.stops] else [] }

theorem app_congr {a : App} (h : t.stops.isSome = s.stops.isSome) : t.app a = s.app a := by
  rw [app, h, app]

/-- **The tab runs inside the app**: its page over it is pushed and popped as a route. -/
theorem simulates_app (db : DniPowszednie) (db' : Firestore) (a : App) :
    Lts.Simulates (lts db) (App.lts db') fun s b => s.Inv db ∧ s.app a = b := by
  refine Lts.simulates_of_map (app a) (fun s e t h hst => h.effect (effect_of_step hst))
    fun s e t h hst => ?_
  cases effect_of_step hst with
  | build => exact .inl rfl
  | linie => exact .inl rfl
  | linieError => exact .inl rfl
  | onPressed index pierwszy docs d hs =>
    refine .inr ⟨.openStops, ?_⟩
    simp [App.lts, Lts.ofFun, App.step, app, hs]
  | stops e p q hs =>
    by_cases hm : q.mounted
    · exact .inl (app_congr (by simp [setStops, hm, hs]))
    · refine .inr ⟨.pop none, ?_⟩
      simp [App.lts, Lts.ofFun, App.step, App.closeTop, app, setStops, hs, hm]

end LinesPage

end MapaZimSlupsk
