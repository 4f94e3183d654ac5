import MapaZimSlupsk.App.Navigation

/-!
# Answers to pages that are gone

A page that is disposed must not call `setState`.  Only the answers for the nearest stops look
whether the page is still there; every other answer may come too late.

* `HomePage.late_iff`, `NearStopsPage.late_iff` : the answers to a disposed page that call no
  `setState`, which are the `Quiet` ones.
* `App.noLate_run_iff_safe_run` : **in a run of the app no disposed page calls `setState` exactly if
  every answer to a disposed page is quiet.**
* `App.noLate_violated` : the tab is changed before the answer to `getText`.
-/

namespace MapaZimSlupsk

/-! ### The home page -/

namespace HomePage

variable {db : Firestore} {s t : HomePage} {e : Event}

/-- On a disposed page the event calls no `setState`. -/
def Quiet (s : HomePage) : Event → Prop
  | .select1 _ _ | .select2 _ _ => False
  | .text x => x = none
  | .stops _ docs => ∀ id1 ∈ s.id1, ∀ id2 ∈ s.id2, ∀ doc ∈ docs, ¬ Selected id1 id2 doc
  | .wait _ _ => True
  | .route k r docs =>
    ∀ c ∈ s.calculations[k]?, ∀ id1 ∈ s.id1, ∀ id2 ∈ s.id2,
      ∀ n ∈ intParse (c.C[r.i]?.getD ""), n ∈ s.D ∨ ¬ Passes id1 id2 r.j c.vars docs

theorem step_mounted (h : step db s e = some t) : t.mounted = s.mounted := by
  cases e with
  | select1 name id =>
    cases h
    unfold select1 calculateLines
    split_ifs <;> rfl
  | select2 name id =>
    cases h
    unfold select2 calculateLines
    split_ifs <;> rfl
  | text x =>
    obtain ⟨-, h⟩ := Option.ite_none_right_eq_some.1 h
    cases h
    unfold onText
    cases x with
    | none => rfl
    | some x =>
      dsimp only
      split_ifs <;> rfl
  | stops k docs =>
    obtain ⟨c, -, h⟩ := Option.bind_eq_some_iff.1 h
    obtain ⟨-, h⟩ := Option.ite_none_right_eq_some.1 h
    cases h
    unfold onStops
    dsimp only
    split
    · split_ifs <;> rfl
    · rfl
  | wait k m =>
    obtain ⟨c, -, h⟩ := Option.bind_eq_some_iff.1 h
    obtain ⟨c', -, rfl⟩ := Option.map_eq_some_iff.1 h
    rfl
  | route k r docs =>
    obtain ⟨c, -, h⟩ := Option.bind_eq_some_iff.1 h
    obtain ⟨-, h⟩ := Option.ite_none_right_eq_some.1 h
    cases h
    unfold onRoute
    dsimp only
    split <;> rfl

theorem lateSetStates_of_mounted (hm : s.mounted = true) (h : step db s e = some t) :
    t.lateSetStates = s.lateSetStates := by
  cases effect_of_step hm h with
  | route k r docs c id1 id2 h hk hr hdocs h1 h2 hh =>
    rw [hh]
    exact lateSetStates_handleRoute_of_mounted
  | _ => rfl

theorem lateSetStates_onStops (hm : s.mounted = false) (k : ℕ) (c : Calculation)
    (docs : List Przystanek) : (s.onStops k c docs).lateSetStates = s.lateSetStates ↔
      ∀ id1 ∈ s.id1, ∀ id2 ∈ s.id2, ∀ doc ∈ docs, ¬ Selected id1 id2 doc := by
  obtain ⟨mounted, calls, haslo, przystanek1, przystanek2, id1, id2, D, textRead, calcs⟩ := s
  obtain rfl : mounted = false := hm
  cases id1 with
  | none => simp [onStops]
  | some id1 =>
    cases id2 with
    | none => simp [onStops]
    | some id2 => simp [onStops, late]

theorem lateSetStates_onRoute (hm : s.mounted = false) (k : ℕ) (c : Calculation) (r : RouteRead)
    (docs : List RouteStop) : (s.onRoute k c r docs).lateSetStates = s.lateSetStates ↔
      ∀ id1 ∈ s.id1, ∀ id2 ∈ s.id2, ∀ n ∈ intParse (c.C[r.i]?.getD ""),
        n ∈ s.D ∨ ¬ Passes id1 id2 r.j c.vars docs := by
  obtain ⟨mounted, late, haslo, przystanek1, przystanek2, id1, id2, D, textRead, calcs⟩ := s
  obtain rfl : mounted = false := hm
  cases id1 with
  | none => simp [onRoute]
  | some id1 =>
    cases id2 with
    | none => simp [onRoute]
    | some id2 =>
      simp only [onRoute, Option.mem_some_iff, forall_eq']
      constructor
      · intro he n hn
        by_contra hcon
        obtain ⟨hD, hp⟩ := not_or.1 hcon
        have hlt := lateSetStates_lt_of_passes (h := ⟨c.vars, D, late⟩) hn hD (not_not.1 hp)
        exact absurd he (Nat.ne_of_gt hlt)
      · intro hq
        rw [handleRoute_of_not_passes hq]

/-- **An event calls `setState` too late exactly if the page is gone and the event not quiet.** -/
theorem late_iff (h : step db s e = some t) :
    t.lateSetStates = s.lateSetStates ↔ (s.mounted = false → s.Quiet e) := by
  by_cases hm : s.mounted = true
  · simp [hm, lateSetStates_of_mounted hm h]
  · have hm : s.mounted = false := by simpa using hm
    rw [imp_iff_right hm]
    cases e with
    | select1 name id =>
      cases h
      simp [select1, hm, late, Quiet]
    | select2 name id =>
      cases h
      simp [select2, hm, late, Quiet]
    | text x =>
      obtain ⟨-, h⟩ := Option.ite_none_right_eq_some.1 h
      cases h
      cases x <;> simp [onText, hm, late, Quiet]
    | stops k docs =>
      obtain ⟨c, hk, h⟩ := Option.bind_eq_some_iff.1 h
      obtain ⟨-, h⟩ := Option.ite_none_right_eq_some.1 h
      cases h
      exact lateSetStates_onStops hm k c docs
    | wait k m =>
      obtain ⟨c, -, h⟩ := Option.bind_eq_some_iff.1 h
      obtain ⟨c', -, rfl⟩ := Option.map_eq_some_iff.1 h
      simp [Quiet]
    | route k r docs =>
      obtain ⟨c, hk, h⟩ := Option.bind_eq_some_iff.1 h
      obtain ⟨-, h⟩ := Option.ite_none_right_eq_some.1 h
      cases h
      rw [lateSetStates_onRoute hm k c r docs]
      simp [Quiet, hk]

end HomePage

/-! ### The page of the nearest stops -/

namespace NearStopsPage

variable {s t : NearStopsPage} {e : Event} {docs : List Przystanek}

/-- At every document that the geofence comes to, some slot of `x` is set. -/
def Flagged (p : ℚ × ℚ) (x : Fin 12 → ℕ) : List Przystanek → Prop
  | [] => True
  | doc :: docs =>
    match flag doc.docId with
    | .error _ => True
    | .ok i =>
      let x := Function.update x i (if InBox p doc then 1 else 0)
      lastFlag x ≠ 0 ∧ Flagged p x docs

/-- On a disposed page the event calls no `setState`. -/
def Quiet (s : NearStopsPage) : Event → Prop
  | .geo docs => ∀ p ∈ s.position, Flagged p s.x docs
  | .doc y docs => docs.find? (fun doc => doc.docId = toString y) = none
  | _ => True

/-- The loop over the documents ends before a `setState` that comes too late. -/
theorem lateSetStates_geofence (s : NearStopsPage) (docs : List Przystanek) :
    (result (s.geofence docs)).lateSetStates = s.lateSetStates ↔
      (s.disposed = true → ∀ p ∈ s.position, Flagged p s.x docs) := by
  induction docs generalizing s with
  | nil => exact iff_of_true rfl fun _ _ _ => trivial
  | cons doc docs ih =>
    rw [geofence_cons]
    unfold geoStop setState
    cases hp : s.position with
    | none => simp [result]
    | some p =>
      simp only [Option.mem_some_iff, forall_eq', Flagged]
      cases hf : flag doc.docId with
      | error e => simp [result]
      | ok i =>
        dsimp only
        by_cases hy : lastFlag (Function.update s.x i (if InBox p doc then 1 else 0)) = 0
        · by_cases hd : s.disposed = true
          · simp [hy, hd, result]
          · simpa [hy, hd, hp] using ih { s with
              x := Function.update s.x i (if InBox p doc then 1 else 0), nazwa := "brak"
              dirty := true }
        · simpa [hy, hp] using ih { s with
            x := Function.update s.x i (if InBox p doc then 1 else 0)
            docReads := s.docReads ++
              [lastFlag (Function.update s.x i (if InBox p doc then 1 else 0))] }

theorem lateSetStates_onDoc (s : NearStopsPage) (y : ℕ) (docs : List Przystanek) :
    (s.onDoc y docs).lateSetStates = s.lateSetStates ↔
      (s.disposed = true → docs.find? (fun doc => doc.docId = toString y) = none) := by
  unfold onDoc setState
  dsimp only
  cases docs.find? fun doc => doc.docId = toString y with
  | none => simp
  | some doc => by_cases hd : s.disposed = true <;> simp [hd, result]

/-- **An event calls `setState` too late exactly if the page is gone and the event not quiet.** -/
theorem late_iff (h : s.step e = some t) :
    t.lateSetStates = s.lateSetStates ↔ (s.disposed = true → s.Quiet e) := by
  cases e with
  | geo docs =>
    obtain ⟨-, h⟩ := Option.ite_none_right_eq_some.1 h
    cases h
    exact lateSetStates_geofence { s with geoReads := s.geoReads - 1 } docs
  | doc y docs =>
    obtain ⟨-, h⟩ := Option.ite_none_right_eq_some.1 h
    cases h
    exact lateSetStates_onDoc s y docs
  | _ =>
    cases effect_of_step h
    exact iff_of_true rfl fun _ => trivial

end NearStopsPage

/-! ### The app -/

@[simp] theorem Page.lateSetStates_dispose (pg : Page) :
    pg.dispose.lateSetStates = pg.lateSetStates := by
  cases pg <;> rfl

namespace App

variable {db : Firestore} {a b : App} {e : Event}

/-- No page has called `setState` after its disposal. -/
def NoLate (a : App) : Prop := ∀ pg ∈ a.pages, pg.lateSetStates = 0

/-- An answer to a page that is gone is one that calls no `setState`. -/
def Safe (a : App) : Event → Prop
  | .home k e => ∀ s, a.pages[k]? = some (.home s) → s.mounted = false → s.Quiet e
  | .near k e => ∀ s, a.pages[k]? = some (.near s) → s.disposed = true → s.Quiet e
  | .markers k docs => ∀ s, a.pages[k]? = some (.map s) ∨ a.pages[k]? = some (.choose s) →
      s.mounted = false → docs = []
  | _ => True

/-- The home page of the tab is there, and only it has a choice open. -/
structure Inv (a : App) : Prop where
  mounted : ∀ k s, a.tabPage = some k → a.pages[k]? = some (.home s) → s.mounted = true
  opener : ∀ k home first, .choose k home first ∈ a.routes → a.tabPage = some home

theorem inv_initial : Inv initial where
  mounted k s hk hs := by
    cases hk
    cases hs
    rfl
  opener _ _ _ h := by cases h

/-- A page takes the place of the `k`-th; if it is a home page, then of one that is as alive. -/
theorem Inv.setPage {k : ℕ} {pg : Page} (hi : Inv a)
    (hpg : ∀ t, pg = .home t → ∃ s, a.pages[k]? = some (.home s) ∧ t.mounted = s.mounted) :
    Inv (a.setPage k pg) := by
  refine ⟨fun k' t hk ht => ?_, hi.opener⟩
  simp only [App.setPage, List.getElem?_set] at ht
  split_ifs at ht with he hlt
  · subst he
    obtain ⟨s, hs, hm⟩ := hpg t (Option.some.inj ht)
    rw [hm]
    exact hi.mounted k s hk hs
  · exact hi.mounted k' t hk ht

theorem Inv.push {route : ℕ → Route} {pg : Page} (hi : Inv a) (hpg : ∀ s, pg ≠ .home s)
    (hroute : ∀ k home first, route a.pages.length = .choose k home first →
      a.tabPage = some home) : Inv (a.push route pg) := by
  refine ⟨fun k s hk hs => ?_, fun k home first h => ?_⟩
  · simp only [App.push, List.getElem?_append, List.getElem?_singleton] at hs
    split_ifs at hs with hlt
    · exact hi.mounted k s hk hs
    · exact absurd (Option.some.inj hs) (hpg s)
  · rcases List.mem_cons.1 h with h | h
    · exact hroute k home first h.symm
    · exact hi.opener k home first h

theorem Inv.pushMap (hi : Inv a) : Inv a.pushMap :=
  hi.push (fun _ => nofun) fun _ _ _ => nofun

theorem Inv.pushMaps (hi : Inv a) (n : ℕ) : Inv (App.pushMap^[n] a) :=
  Function.Iterate.rec Inv hi (fun _ => Inv.pushMap) n

theorem Inv.routes {routes : List Route} (hi : Inv a) (hr : ∀ r ∈ routes, r ∈ a.routes) :
    Inv { a with routes := routes } :=
  ⟨hi.mounted, fun k home first h => hi.opener k home first (hr _ h)⟩

theorem inv_openTab (hr : a.routes = []) (t : Tab) : Inv (a.openTab t) := by
  have hopener : ∀ k home first, .choose k home first ∈ (a.openTab t).routes →
      (a.openTab t).tabPage = some home := by
    intro k home first h
    cases t <;> simp [openTab, hr] at h
  refine ⟨fun k s hk hs => ?_, hopener⟩
  cases t with
  | home =>
    cases hk
    simp only [openTab, List.getElem?_concat_length, Option.some.injEq, Page.home.injEq] at hs
    exact hs ▸ rfl
  | lines => cases hk
  | map =>
    cases hk
    simp [openTab] at hs

theorem select_mounted (db : Firestore) (s : HomePage) (first : Bool) (r : String × ℤ) :
    (select s first r).mounted = s.mounted := by
  cases first with
  | true => exact HomePage.step_mounted (show s.step db (.select1 r.1 r.2) = some _ from rfl)
  | false => exact HomePage.step_mounted (show s.step db (.select2 r.1 r.2) = some _ from rfl)

theorem select_lateSetStates (db : Firestore) {s : HomePage} (hm : s.mounted = true) (first : Bool)
    (r : String × ℤ) : (select s first r).lateSetStates = s.lateSetStates := by
  cases first with
  | true =>
    exact HomePage.lateSetStates_of_mounted hm
      (show s.step db (.select1 r.1 r.2) = some _ from rfl)
  | false =>
    exact HomePage.lateSetStates_of_mounted hm
      (show s.step db (.select2 r.1 r.2) = some _ from rfl)

/-- The page that opened a choice is another one than the choice. -/
theorem getElem?_setPage_opener {k home : ℕ} {s : ChooseFromMap} {hs : HomePage}
    (hk : a.pages[k]? = some (.choose s)) (hh : a.pages[home]? = some (.home hs)) (pg : Page) :
    (a.setPage k pg).pages[home]? = some (.home hs) := by
  have hne : k ≠ home := by
    rintro rfl
    cases hk.symm.trans hh
  rw [App.setPage, List.getElem?_set_ne hne, hh]

/-- **Every step keeps the home page of the tab alive.** -/
theorem Inv.effect (hi : Inv a) (h : Effect db a e b) : Inv b := by
  cases h with
  | tab t hr => exact inv_openTab hr t
  | openNear => exact hi.push (fun _ => nofun) fun _ _ _ => nofun
  | openChoose home first ht =>
    refine hi.push (fun _ => nofun) fun k home' first' h => ?_
    cases h
    exact ht
  | openStops => exact ⟨hi.mounted, fun k home first h => by simp at h⟩
  | openMap => exact hi.pushMap
  | closeStops result routes hr => exact hi.routes fun r hmem => hr ▸ List.mem_cons_of_mem _ hmem
  | close result route routes k pg hr hk hpg =>
    refine (hi.routes fun r hmem => hr ▸ List.mem_cons_of_mem _ hmem).setPage fun t ht => ?_
    cases pg with
    | home s => exact absurd rfl (hpg s)
    | _ => cases ht
  | chosen r k home first routes s hs hr hk hh =>
    have hi' : Inv { a with routes := routes } :=
      hi.routes fun r hmem => hr ▸ List.mem_cons_of_mem _ hmem
    have hi'' : Inv ({ a with routes := routes }.setPage k (.choose s.dispose)) :=
      hi'.setPage fun _ => nofun
    refine hi''.setPage fun t ht => ?_
    cases ht
    exact ⟨hs, getElem?_setPage_opener hk hh _, select_mounted db hs first r⟩
  | home k e s t hk hst =>
    refine hi.setPage fun u hu => ?_
    cases hu
    exact ⟨s, hk, HomePage.step_mounted hst⟩
  | near k n e s t hk hst =>
    have hi' : Inv (a.setPage k (.near t)) := hi.setPage fun _ => nofun
    exact hi'.pushMaps n
  | map k docs s hk => exact hi.setPage fun _ => nofun
  | choose k docs s hk => exact hi.setPage fun _ => nofun

theorem noLate_setPage {k : ℕ} {pg pg' : Page} (hk : a.pages[k]? = some pg) (hl : NoLate a) :
    NoLate (a.setPage k pg') ↔ pg'.lateSetStates = pg.lateSetStates := by
  rw [hl pg (List.mem_of_getElem? hk)]
  constructor
  · intro h
    obtain ⟨hlt, -⟩ := List.getElem?_eq_some_iff.1 hk
    exact h pg' (List.mem_set hlt _)
  · intro h pg'' hmem
    rcases List.mem_or_eq_of_mem_set hmem with hmem | rfl
    · exact hl pg'' hmem
    · exact h

theorem noLate_push {route : ℕ → Route} {pg : Page} :
    NoLate (a.push route pg) ↔ NoLate a ∧ pg.lateSetStates = 0 := by
  simp [NoLate, push, or_imp, forall_and]

theorem noLate_pushMaps (n : ℕ) : NoLate (pushMap^[n] a) ↔ NoLate a := by
  induction n generalizing a with
  | zero => rfl
  | succ n ih =>
    rw [Function.iterate_succ_apply, ih, pushMap, noLate_push]
    exact and_iff_left rfl

theorem noLate_openTab (hl : NoLate a) (t : Tab) : NoLate (a.openTab t) := by
  have hpages : ∀ k, ∀ pg ∈ a.pages.modify k Page.dispose, pg.lateSetStates = 0 := by
    intro k pg h
    obtain ⟨i, hi⟩ := List.mem_iff_getElem?.1 h
    rw [List.getElem?_modify] at hi
    obtain ⟨pg', hpg', rfl⟩ := Option.map_eq_some_iff.1 hi
    have h0 := hl pg' (List.mem_of_getElem? hpg')
    split_ifs
    · rw [Page.lateSetStates_dispose, h0]
    · exact h0
  have hnew : ∀ pages : List Page, ∀ pg : Page, pg.lateSetStates = 0 →
      (∀ pg ∈ pages, pg.lateSetStates = 0) → ∀ pg' ∈ pages ++ [pg], pg'.lateSetStates = 0 := by
    simp +contextual [or_imp]
  unfold openTab
  cases a.tabPage with
  | none =>
    cases t with
    | home => exact hnew _ _ rfl hl
    | lines => exact hl
    | map => exact hnew _ _ rfl hl
  | some k =>
    cases t with
    | home => exact hnew _ _ rfl (hpages k)
    | lines => exact hpages k
    | map => exact hnew _ _ rfl (hpages k)

/-- **No page calls `setState` too late in a step exactly if the step is safe.** -/
theorem Effect.noLate_iff_safe (h : Effect db a e b) (hi : Inv a) (hl : NoLate a) :
    NoLate b ↔ Safe a e := by
  cases h with
  | tab t hr => exact iff_of_true (noLate_openTab hl t) trivial
  | openNear => exact iff_of_true (noLate_push.2 ⟨hl, rfl⟩) trivial
  | openChoose home first ht => exact iff_of_true (noLate_push.2 ⟨hl, rfl⟩) trivial
  | openStops => exact iff_of_true hl trivial
  | openMap => exact iff_of_true (noLate_push.2 ⟨hl, rfl⟩) trivial
  | closeStops result routes hr => exact iff_of_true hl trivial
  | close result route routes k pg hr hk hpg =>
    exact iff_of_true ((noLate_setPage hk hl).2 pg.lateSetStates_dispose) trivial
  | chosen r k home first routes s hs hr hk hh =>
    have hl' : NoLate ({ a with routes := routes }.setPage k (.choose s.dispose)) :=
      (noLate_setPage hk hl).2 rfl
    -- the page that opened the choice is that of the tab, so it is there
    have hm : hs.mounted = true := hi.mounted home hs (hi.opener k home first (by simp [hr])) hh
    refine iff_of_true ((noLate_setPage (getElem?_setPage_opener hk hh _) hl').2 ?_) trivial
    exact select_lateSetStates db hm first r
  | home k e s t hk hst =>
    rw [noLate_setPage hk hl]
    simpa [Safe, hk, Page.lateSetStates] using HomePage.late_iff hst
  | near k n e s t hk hst =>
    rw [noLate_pushMaps, noLate_setPage hk hl]
    simpa [Safe, hk, Page.lateSetStates] using NearStopsPage.late_iff hst
  | map k docs s hk =>
    rw [noLate_setPage hk hl]
    simpa [Safe, hk, Page.lateSetStates] using s.onPrzystanki_lateSetStates_iff docs
  | choose k docs s hk =>
    rw [noLate_setPage hk hl]
    simpa [Safe, hk, Page.lateSetStates] using s.onPrzystanki_lateSetStates_iff docs

/-- **Whatever the order of events, no disposed page calls `setState` exactly if every answer to a
disposed page is quiet.** -/
theorem noLate_run_iff_safe_run (db : Firestore) (ls : List Event) (t : App) :
    ((lts db).within NoLate).Run initial ls t ↔ ((lts db).guard Safe).Run initial ls t := by
  refine Lts.within_run_iff_guard_run inv_initial ?_ ?_ ?_
  · intro pg h
    rw [List.mem_singleton.1 h]
    rfl
  · intro a e b hi h
    exact hi.effect (effect_of_step h)
  · intro a e b hi hl h
    exact (effect_of_step h).noLate_iff_safe hi hl

/-- The tab is changed before `getText` has its answer, whose `setState` is then too late. -/
theorem noLate_violated :
    ¬ ∀ (db : Firestore) (a : App), (lts db).Reachable initial a → NoLate a := by
  intro h
  obtain ⟨a, hr, ha⟩ := Lts.exists_run_of_any (step oneLine) initial
    [.tab .lines, .home 0 (.text (some "Dzień dobry"))]
    (fun a => a.pages.any fun pg => pg.lateSetStates ≠ 0) (by decide)
  obtain ⟨pg, hmem, hpg⟩ := List.any_eq_true.1 ha
  exact of_decide_eq_true hpg (h oneLine a hr.reachable pg hmem)

end App

end MapaZimSlupsk
