import MapaZimSlupsk.App.Disposal

/-!
# The pages on the screen

The routes lie on the tab in few ways only, and the pages that are there are those on this stack: a
page is disposed exactly when it leaves the stack, and no page is on it twice.

* `App.Move` : what a step does, with what allows it.
* `App.Stacked` : the routes, the pages they show and the pages that are not disposed.
* `App.stacked_of_reachable` : **in every run the pages not disposed are exactly those on the
  stack.**
* `App.exists_run_to_tab` : **from every state the user gets back to the tab.**
-/

namespace MapaZimSlupsk

/-- The kinds of pages. -/
inductive Kind where
  | home
  | near
  | map
  | choose
  deriving DecidableEq

namespace Page

def kind : Page → Kind
  | .home _ => .home
  | .near _ => .near
  | .map _ => .map
  | .choose _ => .choose

/-- The page has not been disposed. -/
def Alive : Page → Prop
  | .home s => s.mounted = true
  | .near s => s.disposed = false
  | .map s | .choose s => s.mounted = true

instance : DecidablePred Alive := fun pg => by
  unfold Alive
  split <;> infer_instance

@[simp] theorem kind_dispose (pg : Page) : pg.dispose.kind = pg.kind := by
  cases pg <;> rfl

theorem not_alive_dispose (pg : Page) : ¬ pg.dispose.Alive := by
  cases pg <;> simp [Alive, dispose, NearStopsPage.dispose, MarkerPage.dispose]

end Page

/-- The page that a route shows; that of `/stops` is no page of the app but `LinesPage.stops`. -/
def Route.page : Route → Option ℕ
  | .near k | .map k | .choose k _ _ => some k
  | .stops => none

namespace NearStopsPage

variable {s t : NearStopsPage} {e : Event}

/-- Only a page that is there pushes `/map`. -/
theorem pushed_of_disposed (hd : s.disposed = true) (h : s.step e = some t) :
    t.pushed = s.pushed := by
  cases e with
  | map i docs =>
    obtain ⟨-, h⟩ := Option.ite_none_right_eq_some.1 h
    cases h
    simp [onMap, hd]
  | geo docs =>
    cases effect_of_step h with
    | geo _ _ _ _ _ _ _ _ _ heq => exact heq ▸ rfl
  | _ =>
    cases effect_of_step h
    rfl

end NearStopsPage

namespace MarkerPage

@[simp] theorem onPrzystanki_mounted (s : MarkerPage) (docs : List Przystanek) :
    (s.onPrzystanki docs).mounted = s.mounted := by
  unfold onPrzystanki
  by_cases hm : s.mounted = true
  · obtain ⟨markers, he⟩ := foldlM_add_of_mounted docs { s with reading := false } hm
    rw [he]
  · cases docs with
    | nil => rfl
    | cons doc docs =>
      rw [List.foldlM_cons, add, if_neg hm]
      rfl

end MarkerPage

namespace App

variable {db : Firestore} {a b : App} {e : Event} {k : ℕ} {pg pg' : Page}

/-! ### Moves -/

/-- What a step does, with what allows it. -/
inductive Move (db : Firestore) (a : App) : Event → App → Prop
  | tab (t : Tab) (hr : a.routes = []) (ht : t ≠ a.tab) : Move db a (.tab t) (a.openTab t)
  | openNear (hr : a.routes = []) (ht : a.tab = .home) :
      Move db a .openNear (a.push .near (.near .initial))
  | openChoose (home : ℕ) (first : Bool) (hr : a.routes = []) (ht : a.tab = .home)
      (hp : a.tabPage = some home) :
      Move db a (.openChoose first) (a.push (.choose · home first) (.choose .initial))
  | openStops (hr : a.routes = []) (ht : a.tab = .lines) :
      Move db a .openStops { a with routes := [.stops] }
  | openMap (hs : .stops ∈ a.routes) : Move db a .openMap a.pushMap
  | closeStops (result : Option (String × ℤ)) (routes : List Route)
      (hr : a.routes = .stops :: routes) : Move db a (.pop result) { a with routes := routes }
  | closeNear (result : Option (String × ℤ)) (k : ℕ) (routes : List Route) (s : NearStopsPage)
      (hr : a.routes = .near k :: routes) (hk : a.pages[k]? = some (.near s))
      (hst : s.step .dispose = some s.dispose) :
      Move db a (.pop result) ({ a with routes := routes }.setPage k (.near s.dispose))
  | closeMap (result : Option (String × ℤ)) (k : ℕ) (routes : List Route) (s : MapPage)
      (hr : a.routes = .map k :: routes) (hk : a.pages[k]? = some (.map s)) :
      Move db a (.pop result) ({ a with routes := routes }.setPage k (.map s.dispose))
  | cancel (k home : ℕ) (first : Bool) (routes : List Route) (s : ChooseFromMap) (hs : HomePage)
      (hr : a.routes = .choose k home first :: routes) (hk : a.pages[k]? = some (.choose s))
      (hh : a.pages[home]? = some (.home hs)) :
      Move db a (.pop none) ({ a with routes := routes }.setPage k (.choose s.dispose))
  | chosen (r : String × ℤ) (k home : ℕ) (first : Bool) (routes : List Route) (s : ChooseFromMap)
      (hs : HomePage) (hr : a.routes = .choose k home first :: routes)
      (hk : a.pages[k]? = some (.choose s)) (hh : a.pages[home]? = some (.home hs))
      (hmem : r ∈ s.results) :
      Move db a (.pop (some r)) (({ a with routes := routes }.setPage k (.choose s.dispose)).setPage
        home (.home (select hs first r)))
  | home (k : ℕ) (e : HomePage.Event) (s t : HomePage) (hk : a.pages[k]? = some (.home s))
      (hst : s.step db e = some t) (hsel : ∀ name id, e ≠ .select1 name id ∧ e ≠ .select2 name id) :
      Move db a (.home k e) (a.setPage k (.home t))
  | near (k : ℕ) (e : NearStopsPage.Event) (s t : NearStopsPage)
      (hk : a.pages[k]? = some (.near s)) (hst : s.step e = some t) (hne : e ≠ .dispose) :
      Move db a (.near k e)
        (pushMap^[t.pushed.length - s.pushed.length] (a.setPage k (.near t)))
  | map (k : ℕ) (docs : List Przystanek) (s : MapPage) (hk : a.pages[k]? = some (.map s))
      (hread : s.reading = true) :
      Move db a (.markers k docs) (a.setPage k (.map (s.onPrzystanki docs)))
  | choose (k : ℕ) (docs : List Przystanek) (s : ChooseFromMap)
      (hk : a.pages[k]? = some (.choose s)) (hread : s.reading = true) :
      Move db a (.markers k docs) (a.setPage k (.choose (s.onPrzystanki docs)))

theorem move_of_closeTop {result : Option (String × ℤ)} (h : a.closeTop result = some b) :
    Move db a (.pop result) b := by
  unfold closeTop at h
  split at h
  · cases h
  · rename_i routes hr
    cases h
    exact .closeStops result routes hr
  · rename_i k routes hr
    split at h
    · rename_i s hk
      obtain ⟨t, ht, rfl⟩ := Option.map_eq_some_iff.1 h
      obtain rfl : s.dispose = t := Option.some.inj (Option.ite_none_right_eq_some.1 ht).2
      exact .closeNear result k routes s hr hk ht
    · cases h
  · rename_i k routes hr
    split at h
    · rename_i s hk
      cases h
      exact .closeMap result k routes s hr hk
    · cases h
  · rename_i k home first routes hr
    split at h
    · rename_i s hs hk hh
      dsimp only at h
      cases result with
      | none =>
        cases h
        exact .cancel k home first routes s hs hr hk hh
      | some r =>
        obtain ⟨hmem, h⟩ := Option.ite_none_right_eq_some.1 h
        cases h
        exact .chosen r k home first routes s hs hr hk hh hmem
    · cases h

theorem move_of_step (h : step db a e = some b) : Move db a e b := by
  cases e with
  | tab t =>
    obtain ⟨⟨hr, ht⟩, h⟩ := Option.ite_none_right_eq_some.1 h
    cases h
    exact .tab t hr ht
  | openNear =>
    obtain ⟨⟨hr, ht⟩, h⟩ := Option.ite_none_right_eq_some.1 h
    cases h
    exact .openNear hr ht
  | openChoose first =>
    simp only [step] at h
    split at h
    · rename_i home hp
      obtain ⟨⟨hr, ht⟩, h⟩ := Option.ite_none_right_eq_some.1 h
      cases h
      exact .openChoose home first hr ht hp
    · cases h
  | openStops =>
    obtain ⟨⟨hr, ht⟩, h⟩ := Option.ite_none_right_eq_some.1 h
    cases h
    exact .openStops hr ht
  | openMap =>
    obtain ⟨hs, h⟩ := Option.ite_none_right_eq_some.1 h
    cases h
    exact .openMap hs
  | pop result => exact move_of_closeTop h
  | home k e =>
    simp only [step] at h
    split at h
    · cases h
    · cases h
    · rename_i s hk hsel1 hsel2
      obtain ⟨t, ht, rfl⟩ := Option.map_eq_some_iff.1 h
      exact .home k _ s t hk ht fun name id => ⟨hsel1 name id, hsel2 name id⟩
    · cases h
  | near k e =>
    simp only [step] at h
    split at h
    · cases h
    · rename_i s hk hne
      obtain ⟨t, ht, rfl⟩ := Option.map_eq_some_iff.1 h
      exact .near k _ s t hk ht hne
    · cases h
  | markers k docs =>
    simp only [step] at h
    split at h
    · rename_i s hk
      obtain ⟨hread, h⟩ := Option.ite_none_right_eq_some.1 h
      cases h
      exact .map k docs s hk hread
    · rename_i s hk
      obtain ⟨hread, h⟩ := Option.ite_none_right_eq_some.1 h
      cases h
      exact .choose k docs s hk hread
    · cases h

/-- Every move can be made. -/
theorem step_of_move (h : Move db a e b) : (lts db).step a e b := by
  show step db a e = some b
  cases h with
  | tab t hr ht => exact if_pos ⟨hr, ht⟩
  | openNear hr ht => exact if_pos ⟨hr, ht⟩
  | openChoose home first hr ht hp =>
    simp only [step, hp]
    exact if_pos ⟨hr, ht⟩
  | openStops hr ht => exact if_pos ⟨hr, ht⟩
  | openMap hs => exact if_pos hs
  | closeStops result routes hr =>
    show a.closeTop result = _
    simp only [closeTop, hr]
  | closeNear result k routes s hr hk hst =>
    show a.closeTop result = _
    simp only [closeTop, hr, hk, hst, Option.map_some]
  | closeMap result k routes s hr hk =>
    show a.closeTop result = _
    simp only [closeTop, hr, hk]
  | cancel k home first routes s hs hr hk hh =>
    show a.closeTop none = _
    simp only [closeTop, hr, hk, hh]
  | chosen r k home first routes s hs hr hk hh hmem =>
    show a.closeTop (some r) = _
    simp only [closeTop, hr, hk, hh, hmem, if_true]
  | home k e s t hk hst hsel =>
    cases e with
    | select1 name id => exact absurd rfl (hsel name id).1
    | select2 name id => exact absurd rfl (hsel name id).2
    | text | stops | wait | route => simp only [step, hk, hst, Option.map_some]
  | near k e s t hk hst hne =>
    cases e with
    | dispose => exact absurd rfl hne
    | build | position | near | geo | doc | tap | map =>
      simp only [step, hk, hst, Option.map_some]
  | map k docs s hk hread => simp only [step, hk, hread, if_true]
  | choose k docs s hk hread => simp only [step, hk, hread, if_true]

/-! ### The stack -/

/-- The pages on the screen, from the route on top down to the tab. -/
def stack (a : App) : List ℕ := a.routes.filterMap Route.page ++ a.tabPage.toList

/-- The kind of the `k`-th page. -/
def kind (a : App) (k : ℕ) : Option Kind := (a.pages[k]?).map Page.kind

/-- The routes that may lie on a tab: maps, and below them the page opened from the tab. -/
inductive Layout : Tab → List Route → Prop
  | bare (t : Tab) : Layout t []
  | near (k : ℕ) : Layout .home [.near k]
  | choose (k home : ℕ) (first : Bool) : Layout .home [.choose k home first]
  | stops : Layout .lines [.stops]
  | map {t : Tab} {routes : List Route} (k : ℕ) (h : Layout t routes)
      (hmap : .stops ∈ routes ∨ ∃ j, .near j ∈ routes) : Layout t (.map k :: routes)

theorem Layout.tail {t : Tab} {route : Route} {routes : List Route}
    (h : Layout t (route :: routes)) : Layout t routes := by
  cases h with
  | near | choose | stops => exact .bare _
  | map _ h => exact h

/-- The route shows a page of its kind; a choice is made for the page of the tab. -/
def Fits (a : App) : Route → Prop
  | .near k => a.kind k = some .near
  | .stops => True
  | .map k => a.kind k = some .map
  | .choose k home _ => a.kind k = some .choose ∧ a.tabPage = some home

/-- The page of the tab is one of its kind. -/
def TabFits (a : App) : Prop :=
  match a.tab with
  | .home => ∃ k, a.tabPage = some k ∧ a.kind k = some .home
  | .lines => a.tabPage = none
  | .map => ∃ k, a.tabPage = some k ∧ a.kind k = some .map

/-- The routes and the pages fit together, and the pages on the stack are those that are there. -/
structure Stacked (a : App) : Prop where
  layout : Layout a.tab a.routes
  fits : ∀ route ∈ a.routes, a.Fits route
  tabFits : a.TabFits
  nodup : a.stack.Nodup
  alive : ∀ k pg, a.pages[k]? = some pg → (pg.Alive ↔ k ∈ a.stack)

theorem stacked_initial : Stacked initial where
  layout := .bare _
  fits _ h := absurd h List.not_mem_nil
  tabFits := ⟨0, rfl, rfl⟩
  nodup := List.nodup_singleton 0
  alive k pg hk := by
    obtain ⟨hlt, rfl⟩ := List.getElem?_eq_some_iff.1 hk
    obtain rfl : k = 0 := by simpa [initial] using hlt
    exact iff_of_true rfl (List.mem_singleton_self 0)

/-! ### Changes of the pages -/

theorem kind_of_getElem? (h : a.pages[k]? = some pg) : a.kind k = some pg.kind := by
  simp [kind, h]

theorem exists_of_kind {κ : Kind} (h : a.kind k = some κ) :
    ∃ pg, a.pages[k]? = some pg ∧ pg.kind = κ :=
  Option.map_eq_some_iff.1 h

/-- A page of the same kind takes the place of the `k`-th. -/
theorem kind_setPage (hk : a.pages[k]? = some pg) (h : pg'.kind = pg.kind) :
    (a.setPage k pg').kind = a.kind := by
  funext j
  simp only [kind, setPage, List.getElem?_set]
  split_ifs with hj hlt
  · subst hj
    rw [hk]
    exact congrArg some h
  · subst hj
    rw [List.getElem?_eq_none (not_lt.1 hlt)]
  · rfl

/-- The pages opened before keep their kinds. -/
theorem kind_push {route : ℕ → Route} {κ : Kind} (h : a.kind k = some κ) :
    (a.push route pg).kind k = some κ := by
  obtain ⟨old, hk, rfl⟩ := exists_of_kind h
  have hlt : k < a.pages.length := (List.getElem?_eq_some_iff.1 hk).1
  simp [kind, push, List.getElem?_append_left hlt, hk]

theorem kind_push_self (a : App) (route : ℕ → Route) (pg : Page) :
    (a.push route pg).kind a.pages.length = some pg.kind := by
  simp [kind, push]

/-- The page of a tab is a home page or a map. -/
theorem TabFits.kind_cases (h : a.TabFits) (hk : a.tabPage = some k) :
    a.kind k = some .home ∨ a.kind k = some .map := by
  unfold TabFits at h
  split at h
  · obtain ⟨j, hj, hκ⟩ := h
    obtain rfl : k = j := Option.some.inj (hk.symm.trans hj)
    exact .inl hκ
  · cases hk.symm.trans h
  · obtain ⟨j, hj, hκ⟩ := h
    obtain rfl : k = j := Option.some.inj (hk.symm.trans hj)
    exact .inr hκ

/-- The pages on the stack have been opened. -/
theorem Stacked.exists_kind (h : Stacked a) (hk : k ∈ a.stack) : ∃ κ, a.kind k = some κ := by
  obtain hk | hk := List.mem_append.1 hk
  · obtain ⟨route, hmem, hroute⟩ := List.mem_filterMap.1 hk
    have hfit := h.fits route hmem
    cases route with
    | stops => cases hroute
    | near | map =>
      cases hroute
      exact ⟨_, hfit⟩
    | choose =>
      cases hroute
      exact ⟨_, hfit.1⟩
  · obtain hκ | hκ := h.tabFits.kind_cases (Option.mem_toList.1 hk)
    · exact ⟨_, hκ⟩
    · exact ⟨_, hκ⟩

theorem Stacked.lt_length (h : Stacked a) (hk : k ∈ a.stack) : k < a.pages.length := by
  obtain ⟨κ, hκ⟩ := h.exists_kind hk
  obtain ⟨pg, hpg, -⟩ := exists_of_kind hκ
  exact (List.getElem?_eq_some_iff.1 hpg).1

/-- The layout, the routes and the tab only see the kinds of the pages. -/
theorem Fits.congr {route : Route} (hkind : b.kind = a.kind) (htab : b.tabPage = a.tabPage)
    (h : a.Fits route) : b.Fits route := by
  cases route with
  | near | map => exact (congrFun hkind _).trans h
  | stops => trivial
  | choose => exact ⟨(congrFun hkind _).trans h.1, htab.trans h.2⟩

/-- A page of the same kind, as alive as the old one, takes its place. -/
theorem Stacked.setPage (h : Stacked a) (hk : a.pages[k]? = some pg) (hkind : pg'.kind = pg.kind)
    (halive : pg'.Alive ↔ pg.Alive) : Stacked (a.setPage k pg') := by
  have hkinds := kind_setPage hk hkind
  refine ⟨h.layout, fun route hr => (h.fits route hr).congr hkinds rfl, ?_, h.nodup, ?_⟩
  · have hfit := h.tabFits
    unfold TabFits at hfit ⊢
    rwa [hkinds]
  · intro j pg'' hj
    show pg''.Alive ↔ j ∈ a.stack
    simp only [App.setPage, List.getElem?_set] at hj
    split_ifs at hj with he hlt
    · subst he
      rw [← Option.some.inj hj, halive]
      exact h.alive k pg hk
    · exact h.alive j pg'' hj

/-- A new page is pushed as a route that fits. -/
theorem Stacked.push (h : Stacked a) {route : ℕ → Route}
    (hroute : (route a.pages.length).page = some a.pages.length) (hpg : pg.Alive)
    (hlayout : Layout a.tab (route a.pages.length :: a.routes))
    (hfit : (a.push route pg).Fits (route a.pages.length)) : Stacked (a.push route pg) := by
  have hstack : (a.push route pg).stack = a.pages.length :: a.stack := by
    simp [stack, App.push, hroute]
  refine ⟨hlayout, fun r hr => ?_, ?_, ?_, fun j pg' hj => ?_⟩
  · obtain rfl | hr := List.mem_cons.1 hr
    · exact hfit
    · have hold := h.fits r hr
      cases r with
      | near | map => exact kind_push hold
      | stops => trivial
      | choose => exact ⟨kind_push hold.1, hold.2⟩
  · have hold := h.tabFits
    unfold TabFits at hold ⊢
    show match a.tab with
      | .home => ∃ k, a.tabPage = some k ∧ (a.push route pg).kind k = some .home
      | .lines => a.tabPage = none
      | .map => ∃ k, a.tabPage = some k ∧ (a.push route pg).kind k = some .map
    split at hold
    · obtain ⟨j, hj, hκ⟩ := hold
      exact ⟨j, hj, kind_push hκ⟩
    · exact hold
    · obtain ⟨j, hj, hκ⟩ := hold
      exact ⟨j, hj, kind_push hκ⟩
  · rw [hstack, List.nodup_cons]
    exact ⟨fun hmem => lt_irrefl _ (h.lt_length hmem), h.nodup⟩
  · rw [hstack, List.mem_cons]
    simp only [App.push, List.getElem?_append, List.getElem?_singleton] at hj
    split_ifs at hj with hlt hzero
    · rw [h.alive j pg' hj]
      exact ⟨.inr, fun hj' => hj'.resolve_left (by omega)⟩
    · exact iff_of_true (Option.some.inj hj ▸ hpg) (.inl (by omega))

theorem Stacked.pushMap (h : Stacked a) (hmap : .stops ∈ a.routes ∨ ∃ j, .near j ∈ a.routes) :
    Stacked a.pushMap :=
  h.push rfl rfl (.map _ h.layout hmap) (kind_push_self a _ _)

theorem Stacked.pushMaps (n : ℕ) (h : Stacked a)
    (hmap : n ≠ 0 → .stops ∈ a.routes ∨ ∃ j, .near j ∈ a.routes) :
    Stacked (App.pushMap^[n] a) := by
  induction n generalizing a with
  | zero => exact h
  | succ n ih =>
    have hmap := hmap (Nat.succ_ne_zero n)
    refine ih (h.pushMap hmap) fun _ => ?_
    obtain hs | ⟨j, hj⟩ := hmap
    · exact .inl (List.mem_cons_of_mem _ hs)
    · exact .inr ⟨j, List.mem_cons_of_mem _ hj⟩

/-! ### What a step does to the stack -/

/-- The route on top is closed and its page disposed. -/
theorem Stacked.close (h : Stacked a) {route : Route} {routes : List Route}
    (hr : a.routes = route :: routes) (hroute : route.page = some k) (hk : a.pages[k]? = some pg) :
    Stacked ({ a with routes := routes }.setPage k pg.dispose) := by
  have hstack : a.stack = k :: (routes.filterMap Route.page ++ a.tabPage.toList) := by
    simp [stack, hr, hroute]
  have hnd := h.nodup
  rw [hstack, List.nodup_cons] at hnd
  have hkinds := kind_setPage hk pg.kind_dispose
  refine ⟨?_, fun r hmem => ?_, ?_, hnd.2, fun j pg' hj => ?_⟩
  · have hlayout := h.layout
    rw [hr] at hlayout
    exact hlayout.tail
  · exact (h.fits r (hr ▸ List.mem_cons_of_mem _ hmem)).congr hkinds rfl
  · have hfit := h.tabFits
    unfold TabFits at hfit ⊢
    rw [← hkinds] at hfit
    exact hfit
  · show pg'.Alive ↔ j ∈ routes.filterMap Route.page ++ a.tabPage.toList
    simp only [App.setPage, List.getElem?_set] at hj
    split_ifs at hj with he hlt
    · subst he
      exact iff_of_false (Option.some.inj hj ▸ pg.not_alive_dispose) hnd.1
    · rw [h.alive j pg' hj, hstack, List.mem_cons]
      exact ⟨fun hj' => hj'.resolve_left (Ne.symm he), .inr⟩

theorem Stacked.closeStops (h : Stacked a) {routes : List Route}
    (hr : a.routes = .stops :: routes) :
    Stacked { a with routes := routes } := by
  have hstack : stack { a with routes := routes } = a.stack := by
    simp [stack, hr, List.filterMap_cons, Route.page]
  have hlayout := h.layout
  rw [hr] at hlayout
  refine ⟨hlayout.tail, fun r hmem => ?_, h.tabFits, hstack ▸ h.nodup, fun j pg hj => ?_⟩
  · exact (h.fits r (hr ▸ List.mem_cons_of_mem _ hmem)).congr rfl rfl
  · rw [hstack]
    exact h.alive j pg hj

/-- Without routes, the page of the tab is the only one that is there. -/
theorem Stacked.not_alive (h : Stacked a) (hr : a.routes = []) (hk : a.pages[k]? = some pg)
    (hne : a.tabPage ≠ some k) : ¬ pg.Alive := by
  rw [h.alive k pg hk]
  simpa [stack, hr] using fun he => hne he

/-- The pages as the old tab leaves them. -/
def leftPages (a : App) : List Page :=
  match a.tabPage with
  | none => a.pages
  | some k => a.pages.modify k Page.dispose

theorem Stacked.not_alive_leftPages (h : Stacked a) (hr : a.routes = [])
    (hk : a.leftPages[k]? = some pg) : ¬ pg.Alive := by
  unfold leftPages at hk
  split at hk
  · rename_i htab
    exact h.not_alive hr hk (by simp [htab])
  · rename_i j htab
    rw [List.getElem?_modify] at hk
    obtain ⟨old, hold, hpg⟩ := Option.map_eq_some_iff.1 hk
    split_ifs at hpg with he
    · exact hpg ▸ old.not_alive_dispose
    · rw [← hpg]
      exact h.not_alive hr hold (by simpa [htab] using he)

theorem Stacked.openTab (h : Stacked a) (hr : a.routes = []) (t : Tab) : Stacked (a.openTab t) := by
  have hnew : ∀ (new : Page), new.Alive → ∀ k pg, (a.leftPages ++ [new])[k]? = some pg →
      (pg.Alive ↔ k = a.leftPages.length) := by
    intro new halive k pg hk
    rw [List.getElem?_append] at hk
    split_ifs at hk with hlt
    · exact iff_of_false (h.not_alive_leftPages hr hk) (by omega)
    · obtain ⟨hzero, rfl⟩ := List.getElem?_eq_some_iff.1 hk
      rw [List.length_singleton] at hzero
      refine iff_of_true ?_ (by omega)
      simpa using halive
  have hroutes : ∀ r ∈ (a.openTab t).routes, (a.openTab t).Fits r := by
    intro r hmem
    cases t <;> simp [App.openTab, hr] at hmem
  cases t with
  | home =>
    have hstack : (a.openTab .home).stack = [a.leftPages.length] := by
      show a.routes.filterMap Route.page ++ [a.leftPages.length] = _
      rw [hr]
      rfl
    refine ⟨?_, hroutes, ⟨a.leftPages.length, rfl, ?_⟩, ?_, fun k pg hk => ?_⟩
    · show Layout .home a.routes
      exact hr ▸ .bare _
    · show ((a.leftPages ++ [_])[_]?).map Page.kind = _
      rw [List.getElem?_concat_length]
      rfl
    · rw [hstack]
      exact List.nodup_singleton _
    · rw [hnew (.home .initial) rfl k pg hk, hstack, List.mem_singleton]
  | lines =>
    refine ⟨?_, hroutes, rfl, ?_, fun k pg hk => ?_⟩
    · show Layout .lines a.routes
      exact hr ▸ .bare _
    · simp [stack, App.openTab, hr]
    · refine iff_of_false (h.not_alive_leftPages hr hk) ?_
      simp [stack, App.openTab, hr]
  | map =>
    have hstack : (a.openTab .map).stack = [a.leftPages.length] := by
      show a.routes.filterMap Route.page ++ [a.leftPages.length] = _
      rw [hr]
      rfl
    refine ⟨?_, hroutes, ⟨a.leftPages.length, rfl, ?_⟩, ?_, fun k pg hk => ?_⟩
    · show Layout .map a.routes
      exact hr ▸ .bare _
    · show ((a.leftPages ++ [_])[_]?).map Page.kind = _
      rw [List.getElem?_concat_length]
      rfl
    · rw [hstack]
      exact List.nodup_singleton _
    · rw [hnew (.map .initial) rfl k pg hk, hstack, List.mem_singleton]

/-- A page of the nearest stops that is there is shown by its route. -/
theorem Stacked.near_mem_routes (h : Stacked a) (hk : a.kind k = some .near) (hmem : k ∈ a.stack) :
    .near k ∈ a.routes := by
  obtain hmem | hmem := List.mem_append.1 hmem
  · obtain ⟨route, hroute, hpage⟩ := List.mem_filterMap.1 hmem
    have hfit := h.fits route hroute
    cases route with
    | stops => cases hpage
    | near =>
      cases hpage
      exact hroute
    | map =>
      cases hpage
      cases hk.symm.trans hfit
    | choose =>
      cases hpage
      cases hk.symm.trans hfit.1
  · have hfit := h.tabFits
    rw [Option.mem_toList] at hmem
    unfold TabFits at hfit
    split at hfit
    · obtain ⟨j, hj, hκ⟩ := hfit
      rw [hj, Option.some.injEq] at hmem
      cases (hmem ▸ hκ).symm.trans hk
    · simp [hfit] at hmem
    · obtain ⟨j, hj, hκ⟩ := hfit
      rw [hj, Option.some.injEq] at hmem
      cases (hmem ▸ hκ).symm.trans hk

theorem Stacked.move (h : Stacked a) (hm : Move db a e b) : Stacked b := by
  cases hm with
  | tab t hr ht => exact h.openTab hr t
  | openNear hr ht => exact h.push rfl rfl (by rw [ht, hr]; exact .near _) (kind_push_self a _ _)
  | openChoose home first hr ht hp =>
    exact h.push rfl rfl (by rw [ht, hr]; exact .choose _ _ _) ⟨kind_push_self a _ _, hp⟩
  | openStops hr ht =>
    have hstack : stack { a with routes := [.stops] } = a.stack := by
      simp [stack, hr, Route.page]
    refine ⟨?_, fun r hmem => ?_, h.tabFits, hstack ▸ h.nodup, fun j pg hj => ?_⟩
    · show Layout a.tab [.stops]
      exact ht ▸ .stops
    · obtain rfl := List.mem_singleton.1 hmem
      trivial
    · rw [hstack]
      exact h.alive j pg hj
  | openMap hs => exact h.pushMap (.inl hs)
  | closeStops result routes hr => exact h.closeStops hr
  | closeNear result k routes s hr hk => exact h.close hr rfl hk
  | closeMap result k routes s hr hk => exact h.close hr rfl hk
  | cancel k home first routes s hs hr hk => exact h.close hr rfl hk
  | chosen r k home first routes s hs hr hk hh =>
    refine (h.close hr rfl hk).setPage (getElem?_setPage_opener hk hh _) rfl ?_
    show (select hs first r).mounted = true ↔ hs.mounted = true
    rw [select_mounted db]
  | home k e s t hk hst =>
    refine h.setPage hk rfl ?_
    show t.mounted = true ↔ s.mounted = true
    rw [HomePage.step_mounted hst]
  | near k e s t hk hst hne =>
    have halive : t.disposed = s.disposed := (NearStopsPage.effect_of_step hst).disposed hne
    have h' : Stacked (a.setPage k (.near t)) := by
      refine h.setPage hk rfl ?_
      show t.disposed = false ↔ s.disposed = false
      rw [halive]
    refine h'.pushMaps _ fun hn => .inr ⟨k, ?_⟩
    -- the page that pushes is there, so its route is
    have hd : s.disposed = false := by
      by_contra hd
      rw [NearStopsPage.pushed_of_disposed (by simpa using hd) hst] at hn
      simp at hn
    exact h.near_mem_routes (kind_of_getElem? hk) ((h.alive k _ hk).1 hd)
  | map k docs s hk =>
    refine h.setPage hk rfl ?_
    show (s.onPrzystanki docs).mounted = true ↔ s.mounted = true
    rw [s.onPrzystanki_mounted]
  | choose k docs s hk =>
    refine h.setPage hk rfl ?_
    show (s.onPrzystanki docs).mounted = true ↔ s.mounted = true
    rw [s.onPrzystanki_mounted]

theorem Stacked.of_reachable (h : (lts db).Reachable a b) (ha : Stacked a) : Stacked b :=
  h.invariant ha fun _ _ _ hs hst => hs.move (move_of_step hst)

/-- **In every run the pages that are not disposed are exactly those on the stack**, each of them
once, and only maps lie over the page opened from a tab. -/
theorem stacked_of_reachable (h : (lts db).Reachable initial a) : Stacked a :=
  stacked_initial.of_reachable h

/-- A map has been put over the nearest stops. -/
theorem exists_reachable_map :
    ∃ a, (lts oneLine).Reachable initial a ∧ a.routes = [.map 2, .near 1] := by
  let docs : List Przystanek := [⟨"1", 10, "Dworzec", 54, 17, []⟩]
  obtain ⟨a, hrun, ha⟩ := Lts.exists_run_of_any (step oneLine) initial
    [.openNear, .near 1 .build, .near 1 (.position (54, 16)), .near 1 (.near (54, 16) docs),
      .near 1 (.tap 0), .near 1 (.map 0 docs)]
    (fun a => a.routes = [.map 2, .near 1]) (by decide +kernel)
  exact ⟨a, hrun.reachable, of_decide_eq_true ha⟩

theorem stacked_of_reachable_map : ∃ a : App, a.routes = [.map 2, .near 1] ∧ Stacked a := by
  obtain ⟨a, hreach, ha⟩ := exists_reachable_map
  exact ⟨a, ha, stacked_of_reachable hreach⟩

/-! ### The way back -/

/-- The user closes a route, perhaps once its page has been built. -/
def Closes (e : Event) : Prop := e = .pop none ∨ ∃ k, e = .near k .build

/-- What is below the routes is as it was. -/
structure SameTab (a b : App) : Prop where
  tab : b.tab = a.tab
  tabPage : b.tabPage = a.tabPage
  page : ∀ k ∈ a.tabPage, b.pages[k]? = a.pages[k]?

theorem SameTab.refl (a : App) : SameTab a a := ⟨rfl, rfl, fun _ _ => rfl⟩

theorem SameTab.trans {c : App} (h : SameTab a b) (h' : SameTab b c) : SameTab a c :=
  ⟨h'.tab.trans h.tab, h'.tabPage.trans h.tabPage, fun k hk =>
    (h'.page k (h.tabPage ▸ hk)).trans (h.page k hk)⟩

/-- A page of a route is not that of the tab. -/
theorem Stacked.sameTab (h : Stacked a) {route : Route} {routes routes' : List Route}
    (hr : a.routes = route :: routes) (hroute : route.page = some k) (pg : Page) :
    SameTab a ({ a with routes := routes' }.setPage k pg) := by
  refine ⟨rfl, rfl, fun j hj => List.getElem?_set_ne ?_⟩
  rintro rfl
  have hnd := h.nodup
  simp only [stack, hr, List.filterMap_cons, hroute, List.cons_append, List.nodup_cons,
    List.mem_append, Option.mem_toList] at hnd
  exact hnd.1 (.inr hj)

theorem Stacked.opener_mem_stack (h : Stacked a) {home : ℕ} {first : Bool} {routes : List Route}
    (hr : a.routes = .choose k home first :: routes) : home ∈ a.stack := by
  have hroute : a.Fits (.choose k home first) := h.fits _ (hr ▸ List.mem_cons_self)
  exact List.mem_append_right _ (by simp [hroute.2])

/-- A choice lies on the home page. -/
theorem Stacked.exists_opener (h : Stacked a) {home : ℕ} {first : Bool} {routes : List Route}
    (hr : a.routes = .choose k home first :: routes) : ∃ hs, a.pages[home]? = some (.home hs) := by
  have hroute : a.Fits (.choose k home first) := h.fits _ (hr ▸ List.mem_cons_self)
  have htab : a.tabPage = some home := hroute.2
  have hlayout := h.layout
  have hfit := h.tabFits
  rw [hr] at hlayout
  generalize htabs : a.tab = t at hlayout
  cases hlayout
  simp only [TabFits, htabs, htab, Option.some.injEq] at hfit
  obtain ⟨_, rfl, hκ⟩ := hfit
  obtain ⟨pg, hk, hkind⟩ := exists_of_kind hκ
  cases pg with
  | home hs => exact ⟨hs, hk⟩
  | near | map | choose => cases hkind

/-- The route on top can be closed. -/
theorem Stacked.exists_close (db : Firestore) (h : Stacked a) {route : Route} {routes : List Route}
    (hr : a.routes = route :: routes) : ∃ ls b, (lts db).Run a ls b ∧ (∀ e ∈ ls, Closes e) ∧
      b.routes = routes ∧ SameTab a b := by
  have hpop : ∀ e ∈ [Event.pop none], Closes e := fun e he => .inl (List.mem_singleton.1 he)
  have hfit := h.fits route (hr ▸ List.mem_cons_self)
  cases route with
  | stops =>
    exact ⟨[.pop none], _, .single (step_of_move (.closeStops none routes hr)), hpop, rfl, rfl, rfl,
      fun _ _ => rfl⟩
  | near k =>
    obtain ⟨pg, hk, hkind⟩ := exists_of_kind hfit
    cases pg with
    | near s =>
      -- its page is there, and can be disposed after a build
      have hd : s.disposed = false := (h.alive k _ hk).2 (by simp [stack, hr, Route.page])
      have hbuild : (lts db).step a (.near k .build) (a.setPage k (.near s.build)) := by
        have hmove : Move db a (.near k .build) _ := .near k .build s s.build hk (if_pos hd) nofun
        have hpushed : s.build.pushed.length - s.pushed.length = 0 := Nat.sub_self _
        rw [hpushed] at hmove
        exact step_of_move hmove
      have hk' : (a.setPage k (.near s.build)).pages[k]? = some (.near s.build) :=
        List.getElem?_set_self (List.getElem?_eq_some_iff.1 hk).1
      have hclose : Move db (a.setPage k (.near s.build)) (.pop none) _ :=
        .closeNear none k routes s.build hr hk' (if_pos ⟨hd, Nat.succ_ne_zero _⟩)
      refine ⟨[.near k .build] ++ [.pop none], _, .snoc (.single hbuild) (step_of_move hclose), ?_,
        rfl,
        (h.sameTab hr rfl _).trans ((h.move (move_of_step hbuild)).sameTab hr rfl _)⟩
      intro e he
      obtain he | he := List.mem_append.1 he
      · exact .inr ⟨k, List.mem_singleton.1 he⟩
      · exact hpop e he
    | home | map | choose => cases hkind
  | map k =>
    obtain ⟨pg, hk, hkind⟩ := exists_of_kind hfit
    cases pg with
    | map s =>
      exact ⟨[.pop none], _, .single (step_of_move (.closeMap none k routes s hr hk)), hpop, rfl,
        h.sameTab hr rfl _⟩
    | home | near | choose => cases hkind
  | choose k home first =>
    obtain ⟨hs, hh⟩ := h.exists_opener hr
    obtain ⟨pg, hk, hkind⟩ := exists_of_kind hfit.1
    cases pg with
    | choose s => exact ⟨[.pop none], _, .single (step_of_move
        (.cancel k home first routes s hs hr hk hh)), hpop, rfl, h.sameTab hr rfl _⟩
    | home | near | map => cases hkind

/-- From a stack the user gets back to the tab by closing the routes. -/
theorem Stacked.exists_run_to_tab (db : Firestore) (h : Stacked a) : ∃ ls b, (lts db).Run a ls b ∧
    (∀ e ∈ ls, Closes e) ∧ b.routes = [] ∧ SameTab a b := by
  generalize hr : a.routes = routes
  induction routes generalizing a with
  | nil => exact ⟨[], a, .nil, fun _ he => absurd he List.not_mem_nil, hr, .refl a⟩
  | cons route routes ih =>
    obtain ⟨ls, b, hrun, hls, hb, hsame⟩ := h.exists_close db hr
    obtain ⟨ls', c, hrun', hls', hc, hsame'⟩ := ih (h.of_reachable hrun.reachable) hb
    refine ⟨ls ++ ls', c, hrun.append hrun', fun e he => ?_, hc, hsame.trans hsame'⟩
    obtain he | he := List.mem_append.1 he
    · exact hls e he
    · exact hls' e he

/-- **From every state the user gets back to the tab**, which is as it was, and no other page is
left undisposed. -/
theorem back_to_tab_of_reachable (h : (lts db).Reachable initial a) :
    ∃ ls b, (lts db).Run a ls b ∧ (∀ e ∈ ls, Closes e) ∧ b.routes = [] ∧ SameTab a b ∧
      ∀ k pg, b.pages[k]? = some pg → (pg.Alive ↔ b.tabPage = some k) := by
  have hs := stacked_initial.of_reachable h
  obtain ⟨ls, b, hrun, hls, hb, hsame⟩ := hs.exists_run_to_tab db
  refine ⟨ls, b, hrun, hls, hb, hsame, fun k pg hk => ?_⟩
  rw [(hs.of_reachable hrun.reachable).alive k pg hk]
  simp [stack, hb]

theorem back_to_tab_of_reachable_map : ∃ a b : App, a.routes = [.map 2, .near 1] ∧
    (lts oneLine).Reachable a b ∧ b.routes = [] := by
  obtain ⟨a, hreach, ha⟩ := exists_reachable_map
  obtain ⟨ls, b, hrun, -, hb, -⟩ := back_to_tab_of_reachable hreach
  exact ⟨a, b, ha, hrun.reachable, hb⟩

end App

end MapaZimSlupsk
