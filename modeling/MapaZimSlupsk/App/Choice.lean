import MapaZimSlupsk.App.Late
import MapaZimSlupsk.Home.Prompt
import MapaZimSlupsk.Keyed.Basic

/-!
# Choosing the stops and finding the lines

The home page gets each of its ends from a marker of a map, the map its markers from `Przystanki`.

* `App.Genuine` : the maps get what `Przystanki` holds.
* `App.choices_iff` : **a map on which a stop can be chosen offers every stop once, and no other.**
* `App.ends_of_reachable` : **the name and the id of an end are always those of one stop.**
* `App.lines_of_reachable` : **in a run of the app with prompt answers the home page shows, when it
  has finished, exactly the lines from the one stop to the other.**
-/

namespace MapaZimSlupsk

/-! ### Markers -/

/-- The marker that `_add` makes of a document. -/
def Przystanek.marker (doc : Przystanek) : Marker := ⟨doc.id, doc.name, doc.lat, doc.lng⟩

theorem setMarker_eq : setMarker = Keyed.put Marker.id := by
  funext markers marker
  rfl

namespace MarkerPage

variable {s : MarkerPage} {docs : List Przystanek}

/-- An answer writes the markers of its documents one after the other. -/
theorem onPrzystanki_of_mounted (hm : s.mounted = true) (docs : List Przystanek) :
    s.onPrzystanki docs = { s with
      reading := false
      markers := Keyed.puts Marker.id s.markers (docs.map Przystanek.marker) } := by
  have fold : ∀ (docs : List Przystanek) (s : MarkerPage), s.mounted = true →
      docs.foldlM add s = .ok { s with
        markers := Keyed.puts Marker.id s.markers (docs.map Przystanek.marker) } := by
    intro docs
    induction docs with
    | nil => exact fun s _ => rfl
    | cons doc docs ih =>
      intro s hm
      rw [List.foldlM_cons, add, if_pos hm, setMarker_eq]
      exact ih { s with markers := Keyed.put Marker.id s.markers doc.marker } hm
  unfold onPrzystanki
  rw [fold docs { s with reading := false } hm]

theorem onPrzystanki_reading (s : MarkerPage) (docs : List Przystanek) :
    (s.onPrzystanki docs).reading = false := by
  by_cases hm : s.mounted = true
  · rw [onPrzystanki_of_mounted hm]
  · unfold onPrzystanki
    cases docs with
    | nil => rfl
    | cons doc docs =>
      rw [List.foldlM_cons, add, if_neg hm]
      rfl

/-- The markers as they are when they come from the collection. -/
structure Genuine (db : Firestore) (s : MarkerPage) : Prop where
  none_yet : s.reading = true → s.markers = []
  known : ∀ m ∈ s.markers, ∃ doc ∈ db.przystanki, doc.marker = m
  answered : s.reading = false → s.mounted = true → ∃ docs : List Przystanek,
    docs.Perm db.przystanki ∧ s.markers = Keyed.puts Marker.id [] (docs.map Przystanek.marker)

variable {db : Firestore}

theorem genuine_initial (db : Firestore) : Genuine db initial where
  none_yet _ := rfl
  known _ h := absurd h List.not_mem_nil
  answered h := by cases h

theorem Genuine.dispose (h : s.Genuine db) : s.dispose.Genuine db :=
  ⟨h.none_yet, h.known, fun _ hm => by cases hm⟩

theorem Genuine.onPrzystanki (h : s.Genuine db) (hread : s.reading = true)
    (hdocs : docs.Perm db.przystanki) : (s.onPrzystanki docs).Genuine db := by
  have hnone := h.none_yet hread
  refine ⟨fun hr => ?_, fun m hmem => ?_, fun _ hm => ?_⟩
  · cases hr.symm.trans (s.onPrzystanki_reading docs)
  · by_cases hm : s.mounted = true
    · rw [onPrzystanki_of_mounted hm, hnone] at hmem
      obtain ⟨u, w, hsplit, -⟩ := Keyed.mem_puts_iff.1 hmem
      have hm' : m ∈ docs.map Przystanek.marker := hsplit ▸ by simp
      obtain ⟨doc, hdoc, rfl⟩ := List.mem_map.1 hm'
      exact ⟨doc, hdocs.mem_iff.1 hdoc, rfl⟩
    · rw [markers_of_gone (by simpa using hm)] at hmem
      exact h.known m hmem
  · rw [s.onPrzystanki_mounted] at hm
    exact ⟨docs, hdocs, by rw [onPrzystanki_of_mounted hm, hnone]⟩

end MarkerPage

/-! ### The ends of the journey -/

namespace HomePage

variable {db : Firestore} {s t : HomePage} {e : Event}

/-- The name and the id of each end are those of one stop, or it is not chosen yet. -/
structure Ends (db : Firestore) (s : HomePage) : Prop where
  first : ∀ i ∈ s.id1, ∃ doc ∈ db.przystanki, doc.id = i ∧ doc.name = s.przystanek1
  second : ∀ i ∈ s.id2, ∃ doc ∈ db.przystanki, doc.id = i ∧ doc.name = s.przystanek2
  unset1 : s.id1 = none → s.przystanek1 = wybierzPrzystanek
  unset2 : s.id2 = none → s.przystanek2 = wybierzPrzystanek

/-- The ends are read off what the page shows. -/
theorem Ends.congr (h : Ends db s) (hview : (Page.home t).view = (Page.home s).view) :
    Ends db t := by
  simp only [Page.view, View.home.injEq] at hview
  obtain ⟨-, h1, h2, hid1, hid2, -⟩ := hview
  constructor
  · rw [hid1, h1]
    exact h.first
  · rw [hid2, h2]
    exact h.second
  · rw [hid1, h1]
    exact h.unset1
  · rw [hid2, h2]
    exact h.unset2

theorem ends_initial (db : Firestore) : Ends db initial where
  first _ h := by cases h
  second _ h := by cases h
  unset1 _ := rfl
  unset2 _ := rfl

/-- Only a selection changes the ends. -/
theorem Ends.step (h : Ends db s) (hst : step db s e = some t)
    (hsel : ∀ name id, e ≠ .select1 name id ∧ e ≠ .select2 name id) : Ends db t := by
  by_cases hm : s.mounted = true
  · cases effect_of_step hm hst with
    | select1 name id => exact absurd rfl (hsel name id).1
    | select2 name id => exact absurd rfl (hsel name id).2
    | text | stops | stopsUnset | wait | route | routeUnset =>
      exact ⟨h.first, h.second, h.unset1, h.unset2⟩
  · exact h.congr (view_of_gone (by simpa using hm) hst)

theorem Ends.select (h : Ends db s) (first : Bool) {r : String × ℤ}
    (hr : ∃ doc ∈ db.przystanki, doc.id = r.2 ∧ doc.name = r.1) :
    Ends db (App.select s first r) := by
  by_cases hm : s.mounted = true
  · cases first with
    | true =>
      have hst : s.step db (.select1 r.1 r.2) = some (App.select s true r) := rfl
      generalize App.select s true r = t at hst ⊢
      cases effect_of_step hm hst with
      | select1 =>
        refine ⟨fun i hi => ?_, h.second, nofun, h.unset2⟩
        cases hi
        exact hr
    | false =>
      have hst : s.step db (.select2 r.1 r.2) = some (App.select s false r) := rfl
      generalize App.select s false r = t at hst ⊢
      cases effect_of_step hm hst with
      | select2 =>
        refine ⟨h.first, fun i hi => ?_, h.unset1, nofun⟩
        cases hi
        exact hr
  · exact h.congr (view_of_gone (by simpa using hm) (App.step_select db s first r))

end HomePage

/-! ### The app -/

/-- The page has from `Przystanki` what it has. -/
def Page.Genuine (db : Firestore) : Page → Prop
  | .home s => s.Ends db
  | .near _ => True
  | .map s | .choose s => s.Genuine db

namespace App

variable {db : Firestore} {a b : App} {e : Event} {k : ℕ} {pg pg' : Page}

/-- The maps get the documents of `Przystanki`, in any order. -/
def Genuine (db : Firestore) (_ : App) : Event → Prop
  | .markers _ docs => docs.Perm db.przystanki
  | _ => True

instance (db : Firestore) (a : App) : DecidablePred (Genuine db a) := fun e => by
  unfold Genuine
  split <;> infer_instance

theorem Fresh.genuine (h : Fresh pg) : pg.Genuine db := by
  obtain rfl | rfl | rfl | rfl := h
  · exact HomePage.ends_initial db
  · trivial
  · exact MarkerPage.genuine_initial db
  · exact MarkerPage.genuine_initial db

/-- Every turn keeps what a page has from `Przystanki`. -/
theorem Turn.genuine (h : Turn db a k e pg pg') (he : Genuine db a e)
    (hall : ∀ (j : ℕ) (pg : Page), a.pages[j]? = some pg → pg.Genuine db) (hpg : pg.Genuine db) :
    pg'.Genuine db := by
  cases h with
  | same => exact hpg
  | leaveTab | leave =>
    cases pg with
    | home s => exact HomePage.Ends.congr (s := s) hpg rfl
    | near => trivial
    | map | choose => exact MarkerPage.Genuine.dispose hpg
  | chosen r j first routes s hs hr hj hmem =>
    -- the stop comes from a marker
    obtain ⟨m, hm, rfl⟩ := List.mem_map.1 hmem
    obtain ⟨doc, hdoc, rfl⟩ := (show s.Genuine db from hall j _ hj).known m hm
    exact HomePage.Ends.select hpg first ⟨doc, hdoc, rfl, rfl⟩
  | home e s t hst hsel => exact HomePage.Ends.step hpg hst hsel
  | near => trivial
  | map docs s hread | choose docs s hread => exact MarkerPage.Genuine.onPrzystanki hpg hread he

theorem genuine_of_reachable (h : ((lts db).guard (Genuine db)).Reachable initial a) :
    Stacked a ∧ ∀ (k : ℕ) (pg : Page), a.pages[k]? = some pg → pg.Genuine db := by
  refine h.invariant
    (I := fun a => Stacked a ∧ ∀ (k : ℕ) (pg : Page), a.pages[k]? = some pg → pg.Genuine db)
    ⟨stacked_initial, fun k pg hk => ?_⟩ ?_
  · rw [List.mem_singleton.1 (List.mem_of_getElem? hk)]
    exact HomePage.ends_initial db
  · rintro a e b ⟨hs, hall⟩ ⟨he, hst⟩
    have hm := move_of_step hst
    refine ⟨hs.move hm, fun k pg hk => ?_⟩
    obtain hf | ⟨old, hold, hturn⟩ := hm.page_cases hs hk
    · exact hf.genuine
    · exact hturn.genuine he hall (hall k old hold)

/-- **A map on which a stop can be chosen offers every stop once, and no other.** -/
theorem choices_iff (hdb : (db.przystanki.map (·.id)).Nodup)
    (h : ((lts db).guard (Genuine db)).Reachable initial a) {s : ChooseFromMap}
    (hk : a.pages[k]? = some (.choose s)) (hmem : k ∈ a.stack) (hread : s.reading = false) :
    (s.results.map Prod.snd).Nodup ∧
      ∀ r, r ∈ s.results ↔ ∃ doc ∈ db.przystanki, r = (doc.name, doc.id) := by
  obtain ⟨hs, hall⟩ := genuine_of_reachable h
  obtain ⟨docs, hdocs, hmarkers⟩ :=
    (show s.Genuine db from hall k _ hk).answered hread ((hs.alive k _ hk).2 hmem)
  have hids : ((docs.map Przystanek.marker).map Marker.id).Nodup := by
    rw [List.map_map]
    exact (hdocs.map _).nodup_iff.2 hdb
  rw [Keyed.puts_of_nodup hids] at hmarkers
  have hresults : s.results = docs.map fun doc => (doc.name, doc.id) := by
    show s.markers.map (fun m => (m.name, m.id)) = _
    rw [hmarkers, List.map_map]
    rfl
  refine ⟨?_, fun r => ?_⟩
  · rw [hresults, List.map_map]
    exact (hdocs.map _).nodup_iff.2 hdb
  · rw [hresults, List.mem_map]
    simp only [hdocs.mem_iff, eq_comm]

/-- **The name and the id of an end are always those of one stop.** -/
theorem ends_of_reachable (h : ((lts db).guard (Genuine db)).Reachable initial a) {s : HomePage}
    (hk : a.pages[k]? = some (.home s)) : s.Ends db :=
  (genuine_of_reachable h).2 k _ hk

/-- The events of the app do not overtake an answer, and the maps get what `Przystanki` holds. -/
def Prompt (db : Firestore) (a : App) (e : Event) : Prop :=
  Homes HomePage.Prompt a e ∧ Genuine db a e

instance (db : Firestore) (a : App) : DecidablePred (Prompt db a) := fun e => by
  unfold Prompt
  infer_instance

/-- **Under prompt answers the home page shows, when it has finished, exactly the lines from the one
stop to the other**, and names these stops. -/
theorem lines_of_reachable (hdb : db.Regular) (hlisted : db.Listed)
    (hnames : ∀ doc ∈ db.przystanki, doc.name ≠ wybierzPrzystanek)
    (h : ((lts db).guard (Prompt db)).Reachable initial a) {s : HomePage}
    (hk : a.pages[k]? = some (.home s)) (hmem : k ∈ a.stack) (h1 : s.id1.isSome) (h2 : s.id2.isSome)
    (hdone : s.Done) : ∃ p ∈ db.przystanki, ∃ q ∈ db.przystanki,
      s.przystanek1 = p.name ∧ s.przystanek2 = q.name ∧
        s.D.Pairwise (· < ·) ∧ ∀ n, n ∈ s.D ↔ LineServes db n p.id q.id := by
  obtain ⟨hs, hall⟩ := genuine_of_reachable (h.guard_mono fun _ _ => And.right)
  have hm : s.mounted = true := (hs.alive k _ hk).2 hmem
  have hreach := home_reachable (h.guard_mono fun _ _ => And.left) hk hm
  obtain ⟨i, h1⟩ := Option.isSome_iff_exists.1 h1
  obtain ⟨j, h2⟩ := Option.isSome_iff_exists.1 h2
  have hends : s.Ends db := hall k _ hk
  obtain ⟨p, hp, rfl, hpn⟩ := hends.first i h1
  obtain ⟨q, hq, rfl, hqn⟩ := hends.second j h2
  have hch : s.Chosen p.id q.id :=
    ⟨⟨hpn ▸ hnames p hp, hqn ▸ hnames q hq⟩, h1, h2⟩
  exact ⟨p, hp, q, hq, hpn.symm, hqn.symm, HomePage.sorted_of_reachable hreach.of_guard, fun n =>
    HomePage.mem_D_iff hdb hlisted hreach hch hdone ⟨p, hp, rfl⟩ ⟨q, hq, rfl⟩⟩

/-- Both stops are chosen on the map, and the answers come in. -/
def journey : List Event :=
  [.openChoose true, .markers 1 oneLine.przystanki, .pop (some ("Dworzec", 10)),
    .openChoose false, .markers 2 oneLine.przystanki, .pop (some ("Ratusz", 20)),
    .home 0 (.stops 2 oneLine.przystanki),
    .home 0 (.route 2 ⟨0, 2, "5"⟩ (oneLine.trasa "5" 2)),
    .home 0 (.route 2 ⟨0, 1, "5"⟩ (oneLine.trasa "5" 1)), .home 0 (.wait 2 0)]

theorem exists_journey : ∃ a s, ((lts oneLine).guard (Prompt oneLine)).Reachable initial a ∧
    a.pages[0]? = some (.home s) ∧ 0 ∈ a.stack ∧ s.id1.isSome ∧ s.id2.isSome ∧ s.Done ∧
      s.D = [5] := by
  obtain ⟨a, ha, s, h⟩ : ∃ a, journey.foldlM (Lts.guarded (Prompt oneLine) (step oneLine)) initial =
      some a ∧ ∃ s, a.pages[0]? = some (.home s) ∧ 0 ∈ a.stack ∧ s.id1.isSome ∧ s.id2.isSome ∧
        s.Done ∧ s.D = [5] :=
    ⟨_, rfl, _, rfl, by decide, rfl, rfl, ⟨_, rfl, by decide, rfl⟩, by decide⟩
  exact ⟨a, s, (Lts.guard_run_of_foldlM ha).reachable, h⟩

/-- The map has its markers. -/
theorem choices_iff_oneLine : ∃ s : ChooseFromMap, s.results = [("Dworzec", 10), ("Ratusz", 20)] ∧
    (s.results.map Prod.snd).Nodup ∧
      ∀ r, r ∈ s.results ↔ ∃ doc ∈ oneLine.przystanki, r = (doc.name, doc.id) := by
  obtain ⟨a, ha, s, hk, hmem, hread, hresults⟩ : ∃ a,
      (journey.take 2).foldlM (Lts.guarded (Genuine oneLine) (step oneLine)) initial = some a ∧
        ∃ s, a.pages[1]? = some (.choose s) ∧ 1 ∈ a.stack ∧ s.reading = false ∧
          s.results = [("Dworzec", 10), ("Ratusz", 20)] :=
    ⟨_, rfl, _, rfl, by decide, rfl, rfl⟩
  have hreach := (Lts.guard_run_of_foldlM ha).reachable
  exact ⟨s, hresults, choices_iff HomePage.wellFormed_oneLine.stops_nodup hreach hk hmem hread⟩

theorem ends_of_reachable_oneLine : ∃ s : HomePage, s.D = [5] ∧ s.Ends oneLine := by
  obtain ⟨a, s, hreach, hk, -, -, -, -, hD⟩ := exists_journey
  exact ⟨s, hD, ends_of_reachable (hreach.guard_mono fun _ _ => And.right) hk⟩

theorem lines_of_reachable_oneLine : ∃ s : HomePage, s.D = [5] ∧
    ∃ p ∈ oneLine.przystanki, ∃ q ∈ oneLine.przystanki,
      s.przystanek1 = p.name ∧ s.przystanek2 = q.name ∧
        s.D.Pairwise (· < ·) ∧ ∀ n, n ∈ s.D ↔ LineServes oneLine n p.id q.id := by
  obtain ⟨a, s, hreach, hk, hmem, h1, h2, hdone, hD⟩ := exists_journey
  exact ⟨s, hD, lines_of_reachable HomePage.wellFormed_oneLine.toRegular HomePage.listed_oneLine
    (by decide) hreach hk hmem h1 h2 hdone⟩

end App

end MapaZimSlupsk
