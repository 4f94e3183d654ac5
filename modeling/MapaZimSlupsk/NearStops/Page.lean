import MapaZimSlupsk.Lts.Basic
import MapaZimSlupsk.NearStops.Insert

/-!
# The page of the nearest stops

Every build of the page subscribes to the positions and reads `Przystanki` for its geofence; every
position that a subscription delivers reads `Przystanki` for the list of nearest stops; the answers
call `setState`, which leads to the next build.

* `NearStopsPage` : the fields of the page, its subscriptions and the reads not answered yet.
* `NearStopsPage.Event`, `NearStopsPage.step` : what may happen next, and what it does.
* `NearStopsPage.lts` : the page from `NearStopsPage.initial` on; the answers hold any documents.

The framework builds a page before it disposes it and not afterwards.  A call of `setState` after
the disposal throws, which ends the callback it is made in.
-/

namespace MapaZimSlupsk

/-- The state of the page. -/
structure NearStopsPage where
  /-- `szerokosc` and `dlugosc`, which are set together. -/
  position : Option (ℚ × ℚ) := none
  nazwa : String := "brak"
  x : Fin 12 → ℕ := fun _ => 0
  /-- `id` and `od`. -/
  near : NearList Root := .empty
  /-- Set by `dispose`, after which the framework takes the page as unmounted. -/
  disposed : Bool := false
  /-- The calls of `setState` made after the disposal of the page. -/
  lateSetStates : ℕ := 0
  /-- The page has to be built: `setState` was called, or it is new. -/
  dirty : Bool := true
  /-- The number of calls of `listen`; the `n`-th returns the subscription `n`. -/
  listens : ℕ := 0
  positionStream : Option ℕ := none
  /-- The subscriptions that have not been cancelled. -/
  active : List ℕ := []
  /-- The positions for which a read of `nearStops` is not answered yet. -/
  nearReads : List (ℚ × ℚ) := []
  /-- The number of reads of `build` that are not answered yet. -/
  geoReads : ℕ := 0
  /-- The documents asked for by the answers to these. -/
  docReads : List ℕ := []
  /-- The rows whose map button has been tapped, without an answer yet. -/
  mapReads : List (Fin 4) := []
  /-- The number of reads of `Przystanki` issued. -/
  stopReads : ℕ := 0
  /-- The positions with which `/map` has been pushed. -/
  pushed : List (ℚ × ℚ) := []
  deriving DecidableEq

namespace NearStopsPage

/-- What may happen to the page. -/
inductive Event where
  /-- The framework calls `build`. -/
  | build
  /-- The device reports the position `p`. -/
  | position (p : ℚ × ℚ)
  /-- The answer to a read of `nearStops` for the position `p`. -/
  | near (p : ℚ × ℚ) (docs : List Przystanek)
  /-- The answer to a read of `build`. -/
  | geo (docs : List Przystanek)
  /-- The answer to the read of the document `y`, while `docs` is the collection. -/
  | doc (y : ℕ) (docs : List Przystanek)
  /-- The map button of the row `i` is tapped. -/
  | tap (i : Fin 4)
  /-- The answer to the read of such a tap. -/
  | map (i : Fin 4) (docs : List Przystanek)
  /-- The framework calls `dispose`. -/
  | dispose
  deriving DecidableEq

/-- The documents of `Przystanki` an answer holds. -/
def Event.snapshot : Event → Option (List Przystanek)
  | .near _ docs | .geo docs | .doc _ docs | .map _ docs => some docs
  | _ => none

/-- What ends a callback early. -/
inductive Exn where
  /-- A `late` field is read before it is set. -/
  | lateInit
  /-- `int.parse` finds no number. -/
  | format
  /-- An index out of range. -/
  | range
  /-- `setState` on a disposed page. -/
  | setState
  deriving DecidableEq

/-- The page as a fresh instance. -/
def initial : NearStopsPage := {}

/-- `setState`, for a change `f` of the fields. -/
def setState (s : NearStopsPage) (f : NearStopsPage → NearStopsPage) :
    Except (Exn × NearStopsPage) NearStopsPage :=
  if s.disposed then .error (.setState, { s with lateSetStates := s.lateSetStates + 1 })
  else .ok { f s with dirty := true }

/-- The state in which a callback ends, normally or by an exception. -/
def result : Except (Exn × NearStopsPage) NearStopsPage → NearStopsPage
  | .ok s => s
  | .error (_, s) => s

/-! ### The nearest stops -/

/-- The listener of a subscription. -/
def listener (s : NearStopsPage) (p : ℚ × ℚ) : NearStopsPage :=
  { s with position := some p, nearReads := s.nearReads ++ [p], stopReads := s.stopReads + 1 }

/-- Every active subscription delivers the position. -/
def onPosition (s : NearStopsPage) (p : ℚ × ℚ) : NearStopsPage :=
  s.active.foldl (fun s _ => s.listener p) s

/-- The closure of `nearStops` on one document; it is only run before the disposal. -/
def nearStop (p : ℚ × ℚ) (s : NearStopsPage) (doc : Przystanek) : NearStopsPage :=
  let d := odleglosc p.1 p.2 doc
  if s.near.Contains doc.name ∨ s.near.slot d = none then s
  else { s with near := s.near.nearStop doc.name d, dirty := true }

/-- The answer to a read of `nearStops`. -/
def onNear (s : NearStopsPage) (p : ℚ × ℚ) (docs : List Przystanek) : NearStopsPage :=
  let s := { s with nearReads := s.nearReads.erase p }
  if s.disposed then s else docs.foldl (nearStop p) s

/-! ### The geofence -/

/-- The position lies in the box of the stop. -/
def InBox (p : ℚ × ℚ) (doc : Przystanek) : Prop :=
  doc.lat - 0.00015 ≤ p.1 ∧ p.1 ≤ doc.lat + 0.00015 ∧
    doc.lng - 0.00015 ≤ p.2 ∧ p.2 ≤ doc.lng + 0.00015

instance (p : ℚ × ℚ) (doc : Przystanek) : Decidable (InBox p doc) := by
  unfold InBox; infer_instance

/-- The slot of `x` for a document. -/
def flag (docId : String) : Except Exn (Fin 12) :=
  match intParse docId with
  | none => .error .format
  | some n => if h : 0 ≤ n ∧ n < 12 then .ok ⟨n.toNat, by omega⟩ else .error .range

/-- The loop over `x`: the last slot that is set, 0 if there is none. -/
def lastFlag (x : Fin 12 → ℕ) : ℕ :=
  (List.finRange 12).foldl (fun y i => if 1 ≤ i.val ∧ x i = 1 then i.val else y) 0

/-- The closure of the geofence on one document. -/
def geoStop (s : NearStopsPage) (doc : Przystanek) : Except (Exn × NearStopsPage) NearStopsPage :=
  match s.position with
  | none => .error (.lateInit, s)
  | some p =>
    match flag doc.docId with
    | .error e => .error (e, s)
    | .ok i =>
      let s := { s with x := Function.update s.x i (if InBox p doc then 1 else 0) }
      let y := lastFlag s.x
      if y ≠ 0 then .ok { s with docReads := s.docReads ++ [y] }
      else s.setState fun s => { s with nazwa := "brak" }

/-- The documents of an answer to a read of `build`, up to the first exception. -/
def geofence (s : NearStopsPage) (docs : List Przystanek) :
    Except (Exn × NearStopsPage) NearStopsPage :=
  docs.foldlM geoStop s

/-- The answer to a read of `build`. -/
def onGeo (s : NearStopsPage) (docs : List Przystanek) : NearStopsPage :=
  result (geofence { s with geoReads := s.geoReads - 1 } docs)

/-- The answer to the read of the document `y`. -/
def onDoc (s : NearStopsPage) (y : ℕ) (docs : List Przystanek) : NearStopsPage :=
  let s := { s with docReads := s.docReads.erase y }
  match docs.find? fun doc => doc.docId = toString y with
  | none => s
  | some doc => result (s.setState fun s => { s with nazwa := doc.name })

/-! ### The framework and the user -/

/-- The calls of `listen` and `get` in `build`. -/
def build (s : NearStopsPage) : NearStopsPage :=
  { s with
    positionStream := some s.listens
    active := s.active ++ [s.listens]
    listens := s.listens + 1
    geoReads := s.geoReads + 1
    stopReads := s.stopReads + 1
    dirty := false }

/-- The map button of the row `i`. -/
def onTap (s : NearStopsPage) (i : Fin 4) : NearStopsPage :=
  { s with mapReads := s.mapReads ++ [i], stopReads := s.stopReads + 1 }

/-- The answer to the read of a tap.  The row is read off `id` now; a disposed page has no context
to push from. -/
def onMap (s : NearStopsPage) (i : Fin 4) (docs : List Przystanek) : NearStopsPage :=
  let s := { s with mapReads := s.mapReads.erase i }
  if s.disposed then s
  else { s with
    pushed := s.pushed ++
      (docs.filter fun doc => doc.name = s.near.id i).map fun doc => (doc.lat, doc.lng) }

/-- `dispose` cancels the last subscription. -/
def dispose (s : NearStopsPage) : NearStopsPage :=
  { s with
    disposed := true
    active := match s.positionStream with
      | none => s.active
      | some n => s.active.erase n }

/-- The step of the page; `none` if the event cannot happen. -/
def step (s : NearStopsPage) : Event → Option NearStopsPage
  | .build => if s.disposed = false then some s.build else none
  | .position p => some (s.onPosition p)
  | .near p docs => if p ∈ s.nearReads then some (s.onNear p docs) else none
  | .geo docs => if s.geoReads ≠ 0 then some (s.onGeo docs) else none
  | .doc y docs => if y ∈ s.docReads then some (s.onDoc y docs) else none
  | .tap i => if s.disposed = false ∧ s.listens ≠ 0 then some (s.onTap i) else none
  | .map i docs => if i ∈ s.mapReads then some (s.onMap i docs) else none
  | .dispose => if s.disposed = false ∧ s.listens ≠ 0 then some s.dispose else none

/-- The page, whatever its answers hold. -/
def lts : Lts NearStopsPage Event := .ofFun step

/-- The answers hold the collection `kol`. -/
def Over (kol : List Przystanek) (e : Event) : Prop := ∀ docs, e.snapshot = some docs → docs = kol

instance (kol : List Przystanek) : DecidablePred (Over kol) := fun e =>
  decidable_of_iff (e.snapshot.all (· = kol) = true) (by simp [Over, Option.all_eq_true])

/-! ### What each step changes -/

variable {s t : NearStopsPage} {e : Event} {p : ℚ × ℚ} {docs : List Przystanek}

theorem onPosition_eq (s : NearStopsPage) (p : ℚ × ℚ) : s.onPosition p = { s with
    position := if s.active = [] then s.position else some p
    nearReads := s.nearReads ++ List.replicate s.active.length p
    stopReads := s.stopReads + s.active.length } := by
  have fold : ∀ (subs : List ℕ) (s : NearStopsPage),
      subs.foldl (fun s _ => s.listener p) s = { s with
        position := if subs = [] then s.position else some p
        nearReads := s.nearReads ++ List.replicate subs.length p
        stopReads := s.stopReads + subs.length } := by
    intro subs
    induction subs with
    | nil => simp
    | cons sub subs ih =>
      intro s
      rw [List.foldl_cons, ih]
      simp only [listener, List.length_cons, List.append_assoc, List.singleton_append,
        List.replicate_succ, reduceCtorEq, ↓reduceIte, ite_self, mk.injEq, and_true, true_and]
      omega
  exact fold s.active s

theorem foldl_nearStop (s : NearStopsPage) (docs : List Przystanek) :
    ∃ dirty, docs.foldl (nearStop p) s = { s with
      near := nearStops (odleglosc p.1 p.2) s.near docs, dirty := dirty } := by
  induction docs generalizing s with
  | nil => exact ⟨s.dirty, rfl⟩
  | cons doc docs ih =>
    obtain ⟨dirty, he⟩ := ih (nearStop p s doc)
    refine ⟨dirty, ?_⟩
    rw [List.foldl_cons, he, nearStops_cons]
    unfold nearStop
    dsimp only
    split_ifs with h
    · rcases NearList.nearStop_cases s.near doc.name (odleglosc p.1 p.2 doc) with
        ⟨hl, -⟩ | ⟨i, hc, hs, -⟩
      · rw [hl]
      · rcases h with h | h
        · exact absurd h hc
        · simp [hs] at h
    · rfl

/-- An answer for the nearest stops changes the list, and nothing after the disposal. -/
theorem onNear_eq (s : NearStopsPage) (p : ℚ × ℚ) (docs : List Przystanek) :
    ∃ near dirty, s.onNear p docs = { s with
        nearReads := s.nearReads.erase p, near := near, dirty := dirty } ∧
      (s.disposed = false → near = nearStops (odleglosc p.1 p.2) s.near docs) := by
  unfold onNear
  dsimp only
  split_ifs with hd
  · exact ⟨s.near, s.dirty, rfl, fun h => by simp [h] at hd⟩
  · obtain ⟨dirty, he⟩ := foldl_nearStop { s with nearReads := s.nearReads.erase p } docs
    exact ⟨_, dirty, he, fun _ => rfl⟩

/-- The fields that the geofence writes. -/
def GeoChange (s t : NearStopsPage) : Prop :=
  ∃ nazwa x docReads dirty late, t = { s with
    nazwa := nazwa, x := x, docReads := docReads, dirty := dirty, lateSetStates := late }

theorem GeoChange.refl (s : NearStopsPage) : s.GeoChange s := ⟨_, _, _, _, _, rfl⟩

theorem GeoChange.trans {u : NearStopsPage} (h : s.GeoChange t) (h' : t.GeoChange u) :
    s.GeoChange u := by
  obtain ⟨_, _, _, _, _, rfl⟩ := h
  obtain ⟨_, _, _, _, _, rfl⟩ := h'
  exact ⟨_, _, _, _, _, rfl⟩

theorem geoChange_geoStop (s : NearStopsPage) (doc : Przystanek) :
    s.GeoChange (result (s.geoStop doc)) := by
  unfold geoStop setState
  split
  · exact .refl s
  · split
    · exact .refl s
    · dsimp only
      split_ifs <;> exact ⟨_, _, _, _, _, rfl⟩

theorem geofence_cons {doc : Przystanek} : s.geofence (doc :: docs) =
    match s.geoStop doc with
    | .ok s => s.geofence docs
    | .error e => .error e := by
  unfold geofence
  rw [List.foldlM_cons]
  cases s.geoStop doc <;> rfl

theorem geoChange_geofence (s : NearStopsPage) (docs : List Przystanek) :
    s.GeoChange (result (s.geofence docs)) := by
  induction docs generalizing s with
  | nil => exact .refl s
  | cons doc docs ih =>
    have h := geoChange_geoStop s doc
    rw [geofence_cons]
    cases hg : s.geoStop doc with
    | ok t =>
      rw [hg] at h
      exact h.trans (ih t)
    | error e =>
      rw [hg] at h
      exact h

/-- An answer for the geofence changes the fields of the geofence. -/
theorem onGeo_eq (s : NearStopsPage) (docs : List Przystanek) :
    ∃ nazwa x docReads dirty late, s.onGeo docs = { s with
      geoReads := s.geoReads - 1, nazwa := nazwa, x := x, docReads := docReads, dirty := dirty,
      lateSetStates := late } :=
  geoChange_geofence _ docs

theorem onDoc_eq (s : NearStopsPage) (y : ℕ) (docs : List Przystanek) :
    ∃ nazwa dirty late, s.onDoc y docs = { s with
      docReads := s.docReads.erase y, nazwa := nazwa, dirty := dirty, lateSetStates := late } := by
  unfold onDoc setState
  dsimp only
  split
  · exact ⟨_, _, _, rfl⟩
  · split_ifs <;> exact ⟨_, _, _, rfl⟩

theorem onMap_eq (s : NearStopsPage) (i : Fin 4) (docs : List Przystanek) :
    ∃ pushed, s.onMap i docs = { s with mapReads := s.mapReads.erase i, pushed := pushed } := by
  unfold onMap
  dsimp only
  split_ifs
  · exact ⟨_, rfl⟩
  · exact ⟨_, rfl⟩

/-- What a step does to the page. -/
inductive Effect (s : NearStopsPage) : Event → NearStopsPage → Prop
  | build (hd : s.disposed = false) : Effect s .build s.build
  | position (p : ℚ × ℚ) : Effect s (.position p) { s with
      position := if s.active = [] then s.position else some p
      nearReads := s.nearReads ++ List.replicate s.active.length p
      stopReads := s.stopReads + s.active.length }
  | near (p : ℚ × ℚ) (docs : List Przystanek) (near : NearList Root) (dirty : Bool)
      (hp : p ∈ s.nearReads)
      (hnear : s.disposed = false → near = nearStops (odleglosc p.1 p.2) s.near docs) :
      Effect s (.near p docs) { s with
        nearReads := s.nearReads.erase p, near := near, dirty := dirty }
  | geo (docs : List Przystanek) (nazwa : String) (x : Fin 12 → ℕ) (docReads : List ℕ)
      (dirty : Bool) (late : ℕ) (hg : s.geoReads ≠ 0) (t : NearStopsPage)
      (ht : t = s.onGeo docs)
      (heq : t = { s with
        geoReads := s.geoReads - 1, nazwa := nazwa, x := x, docReads := docReads, dirty := dirty,
        lateSetStates := late }) :
      Effect s (.geo docs) t
  | doc (y : ℕ) (docs : List Przystanek) (nazwa : String) (dirty : Bool) (late : ℕ)
      (hy : y ∈ s.docReads) :
      Effect s (.doc y docs) { s with
        docReads := s.docReads.erase y, nazwa := nazwa, dirty := dirty, lateSetStates := late }
  | tap (i : Fin 4) (hd : s.disposed = false) (hb : s.listens ≠ 0) : Effect s (.tap i) (s.onTap i)
  | map (i : Fin 4) (docs : List Przystanek) (pushed : List (ℚ × ℚ)) (hi : i ∈ s.mapReads) :
      Effect s (.map i docs) { s with mapReads := s.mapReads.erase i, pushed := pushed }
  | dispose (hd : s.disposed = false) (hb : s.listens ≠ 0) : Effect s .dispose s.dispose

theorem effect_of_step (h : s.step e = some t) : s.Effect e t := by
  cases e with
  | build =>
    obtain ⟨hd, h⟩ := Option.ite_none_right_eq_some.1 h
    cases h
    exact .build hd
  | position p =>
    cases h
    rw [onPosition_eq]
    exact .position p
  | near p docs =>
    obtain ⟨hp, h⟩ := Option.ite_none_right_eq_some.1 h
    cases h
    obtain ⟨near, dirty, he, hnear⟩ := s.onNear_eq p docs
    rw [he]
    exact .near p docs near dirty hp hnear
  | geo docs =>
    obtain ⟨hg, h⟩ := Option.ite_none_right_eq_some.1 h
    cases h
    obtain ⟨nazwa, x, docReads, dirty, late, he⟩ := s.onGeo_eq docs
    exact .geo docs nazwa x docReads dirty late hg _ rfl he
  | doc y docs =>
    obtain ⟨hy, h⟩ := Option.ite_none_right_eq_some.1 h
    cases h
    obtain ⟨nazwa, dirty, late, he⟩ := s.onDoc_eq y docs
    rw [he]
    exact .doc y docs nazwa dirty late hy
  | tap i =>
    obtain ⟨⟨hd, hb⟩, h⟩ := Option.ite_none_right_eq_some.1 h
    cases h
    exact .tap i hd hb
  | map i docs =>
    obtain ⟨hi, h⟩ := Option.ite_none_right_eq_some.1 h
    cases h
    obtain ⟨pushed, he⟩ := s.onMap_eq i docs
    rw [he]
    exact .map i docs pushed hi
  | dispose =>
    obtain ⟨⟨hd, hb⟩, h⟩ := Option.ite_none_right_eq_some.1 h
    cases h
    exact .dispose hd hb

/-- Only its disposal closes a page. -/
theorem Effect.disposed (he : s.Effect e t) (hne : e ≠ .dispose) : t.disposed = s.disposed := by
  cases he with
  | geo _ _ _ _ _ _ _ _ _ heq => exact heq ▸ rfl
  | dispose => exact absurd rfl hne
  | build | position | near | doc | tap | map => rfl

/-- Only an answer to a read of `nearStops` changes the list. -/
theorem step_near (h : s.step e = some t) : t.near = s.near ∨ ∃ p docs, e = .near p docs ∧
    p ∈ s.nearReads ∧ t.near = nearStops (odleglosc p.1 p.2) s.near docs := by
  cases effect_of_step h with
  | near p docs near dirty hp hnear =>
    obtain ⟨-, h⟩ := Option.ite_none_right_eq_some.1 h
    by_cases hd : s.disposed = true
    · refine .inl ?_
      rw [← Option.some.inj h]
      simp [onNear, hd]
    · exact .inr ⟨p, docs, rfl, hp, hnear (by simpa using hd)⟩
  | geo _ _ _ _ _ _ _ _ _ heq => exact .inl (heq ▸ rfl)
  | build | position | doc | tap | map | dispose => exact .inl rfl

end NearStopsPage

end MapaZimSlupsk
