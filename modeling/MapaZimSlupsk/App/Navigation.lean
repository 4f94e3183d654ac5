import MapaZimSlupsk.App.MapPages
import MapaZimSlupsk.Home.Page
import MapaZimSlupsk.NearStops.Page

/-!
# Navigation

`CorePage` shows one of three tabs and builds the page of a tab anew when it is chosen; other pages
are pushed over it as routes.  A page that is left is disposed, its reads, timers and subscriptions
live on.

* `App` : the tab, the routes over it and all pages opened so far.
* `App.Event`, `App.step` : what the user, the database, the timers and the device may do next.
* `App.lts db` : the app over the database `db`, from `App.initial` on.

Of the tab of the lines and the page `/stops` only the routes are kept here; the tab and the page are
`LinesPage` and `StopsPage`, and `LinesPage.app_reachable` connects them.  `/stops` may push `/map`,
although the button for it is commented out: this only adds runs.
-/

namespace MapaZimSlupsk

/-- The tabs of `CorePage`. -/
inductive Tab where
  | home
  | lines
  | map
  deriving DecidableEq

/-- A page that has been opened. -/
inductive Page where
  | home (s : HomePage)
  | near (s : NearStopsPage)
  | map (s : MapPage)
  | choose (s : ChooseFromMap)

/-- The calls of `setState` that the page made after its disposal. -/
def Page.lateSetStates : Page → ℕ
  | .home s => s.lateSetStates
  | .near s => s.lateSetStates
  | .map s | .choose s => s.lateSetStates

/-- The framework disposes the state of the page. -/
def Page.dispose : Page → Page
  | .home s => .home { s with mounted := false }
  | .near s => .near s.dispose
  | .map s => .map s.dispose
  | .choose s => .choose s.dispose

/-- A route over `CorePage`; pages are given by their number. -/
inductive Route where
  | near (k : ℕ)
  | stops
  | map (k : ℕ)
  /-- Opened by the page `home` for the first or the second end of the journey. -/
  | choose (k home : ℕ) (first : Bool)
  deriving DecidableEq

/-- The state of the app. -/
structure App where
  tab : Tab := .home
  /-- The page of the tab, none for the lines. -/
  tabPage : Option ℕ := some 0
  /-- The routes, the one on top first. -/
  routes : List Route := []
  /-- All pages opened so far, in the order of their opening. -/
  pages : List Page := [.home .initial]

namespace App

/-- What may happen. -/
inductive Event where
  /-- The user chooses a tab. -/
  | tab (t : Tab)
  /-- The home page opens the nearest stops. -/
  | openNear
  /-- The home page opens the choice of its first or second end. -/
  | openChoose (first : Bool)
  /-- The tab of the lines opens the stops of a line. -/
  | openStops
  /-- The stops of a line open the map, by a button that is commented out. -/
  | openMap
  /-- The route on top is closed, perhaps with a stop that has been chosen. -/
  | pop (result : Option (String × ℤ))
  /-- An event of the `k`-th page, a home page. -/
  | home (k : ℕ) (e : HomePage.Event)
  /-- An event of the `k`-th page, one of nearest stops. -/
  | near (k : ℕ) (e : NearStopsPage.Event)
  /-- The answer to the read of the `k`-th page, one with a map. -/
  | markers (k : ℕ) (docs : List Przystanek)

def initial : App := {}

/-- Replace the `k`-th page. -/
def setPage (a : App) (k : ℕ) (pg : Page) : App := { a with pages := a.pages.set k pg }

/-- Push a route with a new page. -/
def push (a : App) (route : ℕ → Route) (pg : Page) : App :=
  { a with routes := route a.pages.length :: a.routes, pages := a.pages ++ [pg] }

/-- `pushNamed(context, '/map', ..)`. -/
def pushMap (a : App) : App := a.push .map (.map .initial)

/-- Show another tab: its page is new, that of the old tab is disposed. -/
def openTab (a : App) (t : Tab) : App :=
  let pages := match a.tabPage with
    | none => a.pages
    | some k => a.pages.modify k Page.dispose
  match t with
  | .home => { a with
      tab := t, tabPage := some pages.length, pages := pages ++ [.home .initial] }
  | .lines => { a with tab := t, tabPage := none, pages := pages }
  | .map => { a with tab := t, tabPage := some pages.length, pages := pages ++ [.map .initial] }

/-- The home page gets the stop chosen for one of its ends. -/
def select (s : HomePage) (first : Bool) (result : String × ℤ) : HomePage :=
  if first then s.select1 result.1 result.2 else s.select2 result.1 result.2

/-- The route on top is closed.  Only a choice has a result; without one, reading it throws. -/
def closeTop (a : App) (result : Option (String × ℤ)) : Option App :=
  match a.routes with
  | [] => none
  | .stops :: routes => some { a with routes := routes }
  | .near k :: routes =>
    match a.pages[k]? with
    | some (.near s) => (s.step .dispose).map fun s => { a with routes := routes }.setPage k (.near s)
    | _ => none
  | .map k :: routes =>
    match a.pages[k]? with
    | some (.map s) => some ({ a with routes := routes }.setPage k (.map s.dispose))
    | _ => none
  | .choose k home first :: routes =>
    match a.pages[k]?, a.pages[home]? with
    | some (.choose s), some (.home hs) =>
      let a := { a with routes := routes }.setPage k (.choose s.dispose)
      match result with
      | none => some a
      | some r => if r ∈ s.results then some (a.setPage home (.home (select hs first r))) else none
    | _, _ => none

/-- The step of the app over the database `db`; `none` if the event cannot happen. -/
def step (db : Firestore) (a : App) : Event → Option App
  | .tab t => if a.routes = [] ∧ t ≠ a.tab then some (a.openTab t) else none
  | .openNear =>
    if a.routes = [] ∧ a.tab = .home then some (a.push .near (.near .initial)) else none
  | .openChoose first =>
    match a.tabPage with
    | some home =>
      if a.routes = [] ∧ a.tab = .home then
        some (a.push (.choose · home first) (.choose .initial))
      else none
    | none => none
  | .openStops =>
    if a.routes = [] ∧ a.tab = .lines then some { a with routes := [.stops] } else none
  | .openMap => if .stops ∈ a.routes then some a.pushMap else none
  | .pop result => a.closeTop result
  | .home k e =>
    match a.pages[k]?, e with
    -- a stop is only chosen on the page opened for it
    | some (.home _), .select1 _ _ | some (.home _), .select2 _ _ => none
    | some (.home s), e => (s.step db e).map fun s => a.setPage k (.home s)
    | _, _ => none
  | .near k e =>
    match a.pages[k]?, e with
    | some (.near _), .dispose => none
    | some (.near s), e =>
      (s.step e).map fun t =>
        pushMap^[t.pushed.length - s.pushed.length] (a.setPage k (.near t))
    | _, _ => none
  | .markers k docs =>
    match a.pages[k]? with
    | some (.map s) => if s.reading then some (a.setPage k (.map (s.onPrzystanki docs))) else none
    | some (.choose s) =>
      if s.reading then some (a.setPage k (.choose (s.onPrzystanki docs))) else none
    | _ => none

/-- The app over the database `db`. -/
def lts (db : Firestore) : Lts App Event := .ofFun (step db)

/-! ### What a step can do -/

/-- What a step does to the app. -/
inductive Effect (db : Firestore) (a : App) : Event → App → Prop
  | tab (t : Tab) (hr : a.routes = []) : Effect db a (.tab t) (a.openTab t)
  | openNear : Effect db a .openNear (a.push .near (.near .initial))
  | openChoose (home : ℕ) (first : Bool) (ht : a.tabPage = some home) :
      Effect db a (.openChoose first) (a.push (.choose · home first) (.choose .initial))
  | openStops : Effect db a .openStops { a with routes := [.stops] }
  | openMap : Effect db a .openMap a.pushMap
  | closeStops (result : Option (String × ℤ)) (routes : List Route)
      (hr : a.routes = .stops :: routes) : Effect db a (.pop result) { a with routes := routes }
  | close (result : Option (String × ℤ)) (route : Route) (routes : List Route) (k : ℕ) (pg : Page)
      (hr : a.routes = route :: routes) (hk : a.pages[k]? = some pg)
      (hpg : ∀ s, pg ≠ .home s) :
      Effect db a (.pop result) ({ a with routes := routes }.setPage k pg.dispose)
  | chosen (r : String × ℤ) (k home : ℕ) (first : Bool) (routes : List Route) (s : ChooseFromMap)
      (hs : HomePage) (hr : a.routes = .choose k home first :: routes)
      (hk : a.pages[k]? = some (.choose s)) (hh : a.pages[home]? = some (.home hs)) :
      Effect db a (.pop (some r)) (({ a with routes := routes }.setPage k (.choose s.dispose)).setPage
        home (.home (select hs first r)))
  | home (k : ℕ) (e : HomePage.Event) (s t : HomePage) (hk : a.pages[k]? = some (.home s))
      (hst : s.step db e = some t) : Effect db a (.home k e) (a.setPage k (.home t))
  | near (k n : ℕ) (e : NearStopsPage.Event) (s t : NearStopsPage)
      (hk : a.pages[k]? = some (.near s)) (hst : s.step e = some t) :
      Effect db a (.near k e) (pushMap^[n] (a.setPage k (.near t)))
  | map (k : ℕ) (docs : List Przystanek) (s : MapPage) (hk : a.pages[k]? = some (.map s)) :
      Effect db a (.markers k docs) (a.setPage k (.map (s.onPrzystanki docs)))
  | choose (k : ℕ) (docs : List Przystanek) (s : ChooseFromMap)
      (hk : a.pages[k]? = some (.choose s)) :
      Effect db a (.markers k docs) (a.setPage k (.choose (s.onPrzystanki docs)))

variable {db : Firestore} {a b : App} {e : Event}

theorem effect_of_closeTop {result : Option (String × ℤ)} (h : a.closeTop result = some b) :
    Effect db a (.pop result) b := by
  unfold closeTop at h
  split at h
  · cases h
  · rename_i routes hr
    cases h
    exact .closeStops result routes hr
  · rename_i k routes hr
    split at h
    · rename_i s hk
      obtain ⟨t, ht, rfl⟩ := Option.map_eq_some_iff.1 h
      obtain ⟨-, ht⟩ := Option.ite_none_right_eq_some.1 ht
      cases ht
      exact .close result _ routes k (.near s) hr hk fun _ => nofun
    · cases h
  · rename_i k routes hr
    split at h
    · rename_i s hk
      cases h
      exact .close result _ routes k (.map s) hr hk fun _ => nofun
    · cases h
  · rename_i k home first routes hr
    split at h
    · rename_i s hs hk hh
      dsimp only at h
      cases result with
      | none =>
        cases h
        exact .close none _ routes k (.choose s) hr hk fun _ => nofun
      | some r =>
        obtain ⟨-, h⟩ := Option.ite_none_right_eq_some.1 h
        cases h
        exact .chosen r k home first routes s hs hr hk hh
    · cases h

theorem effect_of_step (h : step db a e = some b) : Effect db a e b := by
  cases e with
  | tab t =>
    obtain ⟨⟨hr, -⟩, h⟩ := Option.ite_none_right_eq_some.1 h
    cases h
    exact .tab t hr
  | openNear =>
    obtain ⟨-, h⟩ := Option.ite_none_right_eq_some.1 h
    cases h
    exact .openNear
  | openChoose first =>
    simp only [step] at h
    split at h
    · rename_i home ht
      obtain ⟨-, h⟩ := Option.ite_none_right_eq_some.1 h
      cases h
      exact .openChoose home first ht
    · cases h
  | openStops =>
    obtain ⟨-, h⟩ := Option.ite_none_right_eq_some.1 h
    cases h
    exact .openStops
  | openMap =>
    obtain ⟨-, h⟩ := Option.ite_none_right_eq_some.1 h
    cases h
    exact .openMap
  | pop result => exact effect_of_closeTop h
  | home k e =>
    simp only [step] at h
    split at h
    · cases h
    · cases h
    · rename_i s hk _ _
      obtain ⟨t, ht, rfl⟩ := Option.map_eq_some_iff.1 h
      exact .home k _ s t hk ht
    · cases h
  | near k e =>
    simp only [step] at h
    split at h
    · cases h
    · rename_i s hk _
      obtain ⟨t, ht, rfl⟩ := Option.map_eq_some_iff.1 h
      exact .near k _ _ s t hk ht
    · cases h
  | markers k docs =>
    simp only [step] at h
    split at h
    · rename_i s hk
      obtain ⟨-, h⟩ := Option.ite_none_right_eq_some.1 h
      cases h
      exact .map k docs s hk
    · rename_i s hk
      obtain ⟨-, h⟩ := Option.ite_none_right_eq_some.1 h
      cases h
      exact .choose k docs s hk
    · cases h

end App

end MapaZimSlupsk
