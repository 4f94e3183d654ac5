import MapaZimSlupsk.App.Pages

/-!
# Pages that have been left

Answers, timers and positions go on reaching a page after it has been disposed.

* `App.frozen_of_left` : **such a page never changes what it showed**, since every change of it is
  made under `setState` or behind a test of `disposed`.
* `App.run_without_late` : **the events of such pages have no influence**: without them the same
  screens come up, and the user can do the same.
-/

namespace MapaZimSlupsk

/-! ### What a page shows -/

/-- What a page shows, and what the user has chosen on it. -/
inductive View where
  | home (haslo przystanek1 przystanek2 : String) (id1 id2 : Option ℤ) (D : List ℤ)
  | near (nazwa : String) (near : NearList Root)
  | map (markers : List Marker)

def Page.view : Page → View
  | .home s => .home s.haslo s.przystanek1 s.przystanek2 s.id1 s.id2 s.D
  | .near s => .near s.nazwa s.near
  | .map s | .choose s => .map s.markers

@[simp] theorem Page.view_dispose (pg : Page) : pg.dispose.view = pg.view := by
  cases pg <;> rfl

theorem handleRoute_D_of_gone {id1 id2 : ℤ} {j : ℕ} {line : String} (h : HandlerState)
    (docs : List RouteStop) : (handleRoute false id1 id2 j line h docs).D = h.D := by
  induction docs generalizing h with
  | nil => rfl
  | cons doc docs ih =>
    rw [handleRoute_cons, ih]
    simp only [handleStop]
    split <;> rfl

namespace HomePage

variable {db : Firestore} {s t : HomePage} {e : Event}

theorem view_of_gone (hm : s.mounted = false) (h : step db s e = some t) :
    (Page.home t).view = (Page.home s).view := by
  cases e with
  | select1 name id =>
    cases h
    simp [select1, hm, late, Page.view]
  | select2 name id =>
    cases h
    simp [select2, hm, late, Page.view]
  | text x =>
    obtain ⟨-, h⟩ := Option.ite_none_right_eq_some.1 h
    cases h
    cases x <;> simp [onText, hm, late, Page.view]
  | stops k docs =>
    obtain ⟨c, -, h⟩ := Option.bind_eq_some_iff.1 h
    obtain ⟨-, h⟩ := Option.ite_none_right_eq_some.1 h
    cases h
    unfold onStops
    dsimp only
    split
    · simp [hm, late, Page.view]
    · rfl
  | wait k m =>
    obtain ⟨c, -, h⟩ := Option.bind_eq_some_iff.1 h
    obtain ⟨c', -, rfl⟩ := Option.map_eq_some_iff.1 h
    rfl
  | route k r docs =>
    obtain ⟨c, -, h⟩ := Option.bind_eq_some_iff.1 h
    obtain ⟨-, h⟩ := Option.ite_none_right_eq_some.1 h
    cases h
    unfold onRoute
    dsimp only
    split
    · simp only [Page.view, hm, handleRoute_D_of_gone]
    · rfl

end HomePage

namespace NearStopsPage

variable {s t : NearStopsPage} {e : Event}

/-- The geofence of a page that is gone stops at `setState`. -/
theorem nazwa_geofence_of_gone (hd : s.disposed = true) (docs : List Przystanek) :
    (result (s.geofence docs)).nazwa = s.nazwa := by
  induction docs generalizing s with
  | nil => rfl
  | cons doc docs ih =>
    rw [geofence_cons]
    unfold geoStop setState
    cases s.position with
    | none => rfl
    | some p =>
      dsimp only
      cases flag doc.docId with
      | error e => rfl
      | ok i =>
        dsimp only
        by_cases hy : lastFlag (Function.update s.x i (if InBox p doc then 1 else 0)) = 0
        · simp [hy, hd, result]
        · rw [if_pos hy]
          exact ih hd

theorem view_of_gone (hd : s.disposed = true) (h : s.step e = some t) :
    (Page.near t).view = (Page.near s).view := by
  cases e with
  | near p docs =>
    obtain ⟨-, h⟩ := Option.ite_none_right_eq_some.1 h
    cases h
    simp [onNear, hd, Page.view]
  | geo docs =>
    have hnear : t.near = s.near := by
      cases effect_of_step h with
      | geo _ _ _ _ _ _ _ _ _ heq => exact heq ▸ rfl
    obtain ⟨-, h⟩ := Option.ite_none_right_eq_some.1 h
    have hnazwa : t.nazwa = s.nazwa := by
      rw [← Option.some.inj h]
      exact nazwa_geofence_of_gone (s := { s with geoReads := s.geoReads - 1 }) hd docs
    simp only [Page.view, hnear, hnazwa]
  | doc y docs =>
    obtain ⟨-, h⟩ := Option.ite_none_right_eq_some.1 h
    cases h
    unfold onDoc setState
    dsimp only
    split
    · rfl
    · simp [hd, result, Page.view]
  | build | position | tap | map | dispose =>
    cases effect_of_step h
    rfl

end NearStopsPage

theorem MarkerPage.markers_of_gone {s : MarkerPage} (hm : s.mounted = false)
    (docs : List Przystanek) : (s.onPrzystanki docs).markers = s.markers := by
  unfold onPrzystanki
  cases docs with
  | nil => rfl
  | cons doc docs =>
    rw [List.foldlM_cons, add, if_neg (by simp [hm])]
    rfl

namespace App

variable {db : Firestore} {a b : App} {e : Event} {k : ℕ} {pg pg' : Page}

/-- A page that is gone takes no turn that shows. -/
theorem Turn.view_of_gone (h : Turn db a k e pg pg') (hg : ¬ pg.Alive) : pg'.view = pg.view := by
  cases h with
  | same => rfl
  | leaveTab | leave => exact pg.view_dispose
  | chosen r j first routes s hs =>
    have hm : hs.mounted = false := by simpa [Page.Alive] using hg
    exact HomePage.view_of_gone hm (step_select db hs first r)
  | home e s t hst => exact HomePage.view_of_gone (by simpa [Page.Alive] using hg) hst
  | near e s t hst => exact NearStopsPage.view_of_gone (by simpa [Page.Alive] using hg) hst
  | map docs s | choose docs s =>
    exact congrArg View.map (MarkerPage.markers_of_gone (by simpa [Page.Alive] using hg) docs)

theorem Turn.not_alive (h : Turn db a k e pg pg') (hg : ¬ pg.Alive) : ¬ pg'.Alive := by
  cases h with
  | same => exact hg
  | leaveTab | leave => exact pg.not_alive_dispose
  | chosen r j first routes s hs =>
    show ¬ (select hs first r).mounted = true
    rwa [select_mounted db]
  | home e s t hst =>
    show ¬ t.mounted = true
    rwa [HomePage.step_mounted hst]
  | near e s t hst =>
    show ¬ t.disposed = false
    by_cases he : e = .dispose
    · subst he
      exact absurd (Option.ite_none_right_eq_some.1 hst).1.1 hg
    · rwa [(NearStopsPage.effect_of_step hst).disposed he]
  | map docs s | choose docs s =>
    show ¬ (s.onPrzystanki docs).mounted = true
    rwa [s.onPrzystanki_mounted]

/-- **A page that has been left stays left, and shows for ever what it showed.** -/
theorem frozen_of_left (h : (lts db).Reachable initial a) (hk : a.pages[k]? = some pg)
    (hleft : k ∉ a.stack) (hr : (lts db).Reachable a b) :
    ∃ pg', b.pages[k]? = some pg' ∧ pg'.view = pg.view ∧ k ∉ b.stack := by
  have hs := stacked_initial.of_reachable h
  have hinv := hr.invariant (I := fun b => Stacked b ∧
    ∃ pg', b.pages[k]? = some pg' ∧ pg'.view = pg.view ∧ ¬ pg'.Alive)
    ⟨hs, pg, hk, rfl, fun hg => hleft ((hs.alive k pg hk).1 hg)⟩ ?_
  · obtain ⟨hb, pg', hk', hview, hg⟩ := hinv
    exact ⟨pg', hk', hview, fun hmem => hg ((hb.alive k pg' hk').2 hmem)⟩
  · rintro b e c ⟨hb, pg₁, hk₁, hview, hg⟩ hst
    obtain ⟨pg₂, hk₂, hturn⟩ := (move_of_step hst).turn hb hk₁
    exact ⟨hb.move (move_of_step hst), pg₂, hk₂, (hturn.view_of_gone hg).trans hview,
      hturn.not_alive hg⟩

/-! ### The screen -/

/-- The page that an event belongs to. -/
def Event.page : Event → Option ℕ
  | .home k _ | .near k _ | .markers k _ => some k
  | _ => none

/-- The event does not belong to a page that has been left. -/
def OnScreen (a : App) (e : Event) : Prop := ∀ k ∈ e.page, k ∈ a.stack

/-- The two apps differ in pages that have been left, at most. -/
structure SameScreen (a a' : App) : Prop where
  tab : a'.tab = a.tab
  tabPage : a'.tabPage = a.tabPage
  routes : a'.routes = a.routes
  length : a'.pages.length = a.pages.length
  page : ∀ k ∈ a.stack, a'.pages[k]? = a.pages[k]?

namespace SameScreen

variable {a' : App}

theorem refl (a : App) : SameScreen a a := ⟨rfl, rfl, rfl, rfl, fun _ _ => rfl⟩

theorem stack (h : SameScreen a a') : a'.stack = a.stack := by
  simp only [App.stack, h.routes, h.tabPage]

theorem symm (h : SameScreen a a') : SameScreen a' a :=
  ⟨h.tab.symm, h.tabPage.symm, h.routes.symm, h.length.symm, fun k hk =>
    (h.page k (h.stack ▸ hk)).symm⟩

theorem trans {a'' : App} (h : SameScreen a a') (h' : SameScreen a' a'') : SameScreen a a'' :=
  ⟨h'.tab.trans h.tab, h'.tabPage.trans h.tabPage, h'.routes.trans h.routes,
    h'.length.trans h.length, fun k hk => (h'.page k (h.stack.symm ▸ hk)).trans (h.page k hk)⟩

theorem setPage (h : SameScreen a a') (k : ℕ) (pg : Page) :
    SameScreen (a.setPage k pg) (a'.setPage k pg) := by
  refine ⟨h.tab, h.tabPage, h.routes, ?_, fun j hj => ?_⟩
  · simp only [App.setPage, List.length_set, h.length]
  · have hpage := h.page j hj
    simp only [App.setPage, List.getElem?_set, h.length, hpage]

theorem push (h : SameScreen a a') (hs : Stacked a) {route : ℕ → Route}
    (hroute : (route a.pages.length).page = some a.pages.length) (pg : Page) :
    SameScreen (a.push route pg) (a'.push route pg) := by
  refine ⟨h.tab, h.tabPage, ?_, ?_, fun j hj => ?_⟩
  · simp only [App.push, h.routes, h.length]
  · simp only [App.push, List.length_append, h.length]
  · show (a'.pages ++ [pg])[j]? = (a.pages ++ [pg])[j]?
    have hj : j = a.pages.length ∨ j ∈ a.stack := by
      simpa [App.stack, App.push, hroute, or_assoc] using hj
    obtain rfl | hj := hj
    · rw [List.getElem?_concat_length, ← h.length, List.getElem?_concat_length]
    · have hlt := hs.lt_length hj
      rw [List.getElem?_append_left hlt, List.getElem?_append_left (h.length ▸ hlt), h.page j hj]

theorem pushMaps (n : ℕ) (h : SameScreen a a') (hs : Stacked a)
    (hmap : n ≠ 0 → .stops ∈ a.routes ∨ ∃ j, .near j ∈ a.routes) :
    SameScreen (pushMap^[n] a) (pushMap^[n] a') := by
  induction n generalizing a a' with
  | zero => exact h
  | succ n ih =>
    have hmap := hmap (Nat.succ_ne_zero n)
    refine ih (h.push hs rfl _) (hs.pushMap hmap) fun _ => ?_
    exact hmap.imp (List.mem_cons_of_mem _) fun ⟨j, hj⟩ => ⟨j, List.mem_cons_of_mem _ hj⟩

/-- Routes are closed. -/
theorem withRoutes (h : SameScreen a a') {routes : List Route} (hr : routes <:+ a.routes) :
    SameScreen { a with routes := routes } { a' with routes := routes } := by
  refine ⟨h.tab, h.tabPage, rfl, h.length, fun k hk => h.page k ?_⟩
  obtain hk | hk := List.mem_append.1 hk
  · exact List.mem_append_left _ ((hr.sublist.filterMap _).subset hk)
  · exact List.mem_append_right _ hk

theorem openTab (h : SameScreen a a') (hr : a.routes = []) (t : Tab) :
    SameScreen (a.openTab t) (a'.openTab t) := by
  have hleft : a'.leftPages.length = a.leftPages.length := by
    rw [length_leftPages, length_leftPages, h.length]
  -- the page of the new tab is the only one on the stack
  have hnew : ∀ (new : Page) (t : Tab),
      SameScreen
        { a with tab := t, tabPage := some a.leftPages.length, pages := a.leftPages ++ [new] }
        { a' with
          tab := t, tabPage := some a'.leftPages.length, pages := a'.leftPages ++ [new] } := by
    intro new t
    refine ⟨rfl, congrArg some hleft, h.routes, ?_, fun k hk => ?_⟩
    · simp only [List.length_append, hleft]
    · have hk : k ∈ a.routes.filterMap Route.page ++ [a.leftPages.length] := hk
      rw [hr] at hk
      show (a'.leftPages ++ [new])[k]? = (a.leftPages ++ [new])[k]?
      rw [List.mem_singleton.1 hk, List.getElem?_concat_length, ← hleft,
        List.getElem?_concat_length]
  cases t with
  | home => exact hnew _ _
  | lines =>
    refine ⟨rfl, rfl, h.routes, hleft, fun k hk => ?_⟩
    have hk : k ∈ a.routes.filterMap Route.page ++ [] := hk
    rw [hr] at hk
    cases hk
  | map => exact hnew _ _

end SameScreen

/-- An event of a page that has been left stays off the screen. -/
theorem Move.sameScreen_of_late (hm : Move db a e b) (hs : Stacked a) (hk : k ∈ e.page)
    (hleft : k ∉ a.stack) : SameScreen a b := by
  have hset : ∀ pg, SameScreen a (a.setPage k pg) := fun pg =>
    ⟨rfl, rfl, rfl, List.length_set, fun j hj => List.getElem?_set_ne fun he : k = j =>
      hleft (he ▸ hj)⟩
  cases hm with
  | home j e s t hj hst =>
    cases hk
    exact hset _
  | near j e s t hj hst =>
    cases hk
    have hd : ¬ s.disposed = false := fun hd => hleft ((hs.alive k (.near s) hj).1 hd)
    rw [NearStopsPage.pushed_of_disposed (by simpa using hd) hst, Nat.sub_self]
    exact hset _
  | map j docs s hj | choose j docs s hj =>
    cases hk
    exact hset _
  | tab | openNear | openChoose | openStops | openMap | closeStops | closeNear | closeMap | cancel
  | chosen => cases hk

/-- What happens on the screen can happen in an app with the same screen, too. -/
theorem Move.follow {a' : App} (hm : Move db a e b) (hs : Stacked a) (h : SameScreen a a')
    (hon : OnScreen a e) : ∃ b', Move db a' e b' ∧ SameScreen b b' := by
  have top : ∀ {route : Route} {routes : List Route} {k : ℕ}, a.routes = route :: routes →
      route.page = some k → a'.routes = route :: routes ∧ a'.pages[k]? = a.pages[k]? ∧
        SameScreen { a with routes := routes } { a' with routes := routes } := by
    intro route routes k hr hroute
    refine ⟨h.routes.trans hr, h.page k ?_, h.withRoutes (hr ▸ List.suffix_cons _ _)⟩
    simp [App.stack, hr, hroute]
  cases hm with
  | tab t hr ht =>
    exact ⟨_, .tab t (h.routes.trans hr) (h.tab.symm ▸ ht), h.openTab hr t⟩
  | openNear hr ht =>
    exact ⟨_, .openNear (h.routes.trans hr) (h.tab.trans ht), h.push hs rfl _⟩
  | openChoose home first hr ht hp =>
    exact ⟨_, .openChoose home first (h.routes.trans hr) (h.tab.trans ht) (h.tabPage.trans hp),
      h.push hs rfl _⟩
  | openStops hr ht =>
    refine ⟨_, .openStops (h.routes.trans hr) (h.tab.trans ht), h.tab, h.tabPage, rfl, h.length,
      fun k hk => h.page k ?_⟩
    have hk : k ∈ [Route.stops].filterMap Route.page ++ a.tabPage.toList := hk
    exact List.mem_append_right _ (by simpa [Route.page] using hk)
  | openMap hmem => exact ⟨_, .openMap (h.routes.symm ▸ hmem), h.push hs rfl _⟩
  | closeStops result routes hr =>
    exact ⟨_, .closeStops result routes (h.routes.trans hr),
      h.withRoutes (hr ▸ List.suffix_cons _ _)⟩
  | closeNear result k routes s hr hk hst =>
    obtain ⟨hr', hk', hsame⟩ := top hr rfl
    exact ⟨_, .closeNear result k routes s hr' (hk'.trans hk) hst, hsame.setPage k _⟩
  | closeMap result k routes s hr hk =>
    obtain ⟨hr', hk', hsame⟩ := top hr rfl
    exact ⟨_, .closeMap result k routes s hr' (hk'.trans hk), hsame.setPage k _⟩
  | cancel k home first routes s hd hr hk hh =>
    obtain ⟨hr', hk', hsame⟩ := top hr rfl
    have hhome := h.page home (hs.opener_mem_stack hr)
    exact ⟨_, .cancel k home first routes s hd hr' (hk'.trans hk) (hhome.trans hh),
      hsame.setPage k _⟩
  | chosen r k home first routes s hd hr hk hh hmem =>
    obtain ⟨hr', hk', hsame⟩ := top hr rfl
    have hhome := h.page home (hs.opener_mem_stack hr)
    exact ⟨_, .chosen r k home first routes s hd hr' (hk'.trans hk) (hhome.trans hh) hmem,
      (hsame.setPage k _).setPage home _⟩
  | home k e s t hk hst hsel =>
    exact ⟨_, .home k e s t ((h.page k (hon k rfl)).trans hk) hst hsel, h.setPage k _⟩
  | near k e s t hk hst hne =>
    have hmem := hon k rfl
    refine ⟨_, .near k e s t ((h.page k hmem).trans hk) hst hne, ?_⟩
    have hs' : Stacked (a.setPage k (.near t)) := by
      refine hs.setPage hk rfl ?_
      show t.disposed = false ↔ s.disposed = false
      rw [(NearStopsPage.effect_of_step hst).disposed hne]
    exact (h.setPage k _).pushMaps _ hs' fun _ =>
      .inr ⟨k, hs.near_mem_routes (kind_of_getElem? hk) hmem⟩
  | map k docs s hk hread =>
    exact ⟨_, .map k docs s ((h.page k (hon k rfl)).trans hk) hread, h.setPage k _⟩
  | choose k docs s hk hread =>
    exact ⟨_, .choose k docs s ((h.page k (hon k rfl)).trans hk) hread, h.setPage k _⟩

/-- **The events of pages that have been left have no influence**: the other events of a run make a
run on their own, to the same screen. -/
theorem run_without_late {ls : List Event} (h : (lts db).Run initial ls a) :
    ∃ vs a', (lts db).Observed OnScreen initial ls a vs ∧ (lts db).Run initial vs a' ∧
      SameScreen a a' := by
  refine (h.follow_observed (V := OnScreen)
    (R := fun a a' => Stacked a ∧ SameScreen a a') ⟨stacked_initial, .refl _⟩ ?_ ?_).imp
    fun vs ⟨a', hobs, hrun, hR⟩ => ⟨a', hobs, hrun, hR.2⟩
  · rintro a a' e b ⟨hs, hsame⟩ hst hlate
    obtain ⟨k, hk⟩ := not_forall.1 hlate
    obtain ⟨hk, hleft⟩ := Classical.not_imp.1 hk
    have hm := move_of_step hst
    exact ⟨hs.move hm, (hm.sameScreen_of_late hs hk hleft).symm.trans hsame⟩
  · rintro a a' e b ⟨hs, hsame⟩ hst hon
    have hm := move_of_step hst
    obtain ⟨b', hm', hsame'⟩ := hm.follow hs hsame hon
    exact ⟨b', step_of_move hm', hs.move hm, hsame'⟩

/-- The home page is left before `getText` has its answer. -/
theorem frozen_of_left_text : ∃ (b : App) (pg : Page),
    (lts oneLine).Run (initial.openTab .lines) [.home 0 (.text (some "Dzień dobry"))] b ∧
      b.pages[0]? = some pg ∧ pg.view = (Page.home .initial).view ∧ 0 ∉ b.stack := by
  have hleave : (lts oneLine).step initial (.tab .lines) (initial.openTab .lines) :=
    step_of_move (.tab .lines rfl (by decide))
  obtain ⟨b, hrun, -⟩ := Lts.exists_run_of_any (step oneLine) (initial.openTab .lines)
    [.home 0 (.text (some "Dzień dobry"))] (fun _ => true) rfl
  obtain ⟨pg, hk, hview, hleft⟩ := frozen_of_left (k := 0) (Lts.Run.single hleave).reachable rfl
    (by decide) hrun.reachable
  exact ⟨b, pg, hrun, hk, hview, hleft⟩

/-- Without the answer the app stands where it would stand with it. -/
theorem run_without_late_text : ∃ a vs a',
    (lts oneLine).Observed OnScreen initial [.tab .lines, .home 0 (.text (some "Dzień dobry"))] a
        vs ∧
      (lts oneLine).Run initial vs a' ∧ SameScreen a a' := by
  obtain ⟨a, hrun, -⟩ := Lts.exists_run_of_any (step oneLine) initial
    [.tab .lines, .home 0 (.text (some "Dzień dobry"))] (fun _ => true) rfl
  obtain ⟨vs, a', hobs, hrun', hsame⟩ := run_without_late hrun
  exact ⟨a, vs, a', hobs, hrun', hsame⟩

end App

end MapaZimSlupsk
