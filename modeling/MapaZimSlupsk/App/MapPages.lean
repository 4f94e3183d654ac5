import MapaZimSlupsk.Firestore.Documents

/-!
# The pages with a map

`MapPage` and `ChooseFromMap` read `Przystanki` when they are opened and put a marker for every
document on the map.  Both are the same page here, `MarkerPage`; on `ChooseFromMap` a marker can be
chosen, which closes the page with the name and the id of its stop.
-/

namespace MapaZimSlupsk

/-- A marker; its key in the map `markers` is made of the id of the stop. -/
structure Marker where
  id : ℤ
  name : String
  lat : ℚ
  lng : ℚ
  deriving DecidableEq, Repr

/-- The state of a page with markers. -/
structure MarkerPage where
  mounted : Bool := true
  /-- The calls of `setState` made after the disposal of the page. -/
  lateSetStates : ℕ := 0
  /-- The read of `przystanki` is not answered yet. -/
  reading : Bool := false
  markers : List Marker := []
  deriving DecidableEq, Repr

/-- `markers[markerId] = marker`. -/
def setMarker (markers : List Marker) (marker : Marker) : List Marker :=
  if ∃ m ∈ markers, m.id = marker.id then
    markers.map fun m => if m.id = marker.id then marker else m
  else markers ++ [marker]

namespace MarkerPage

/-- `_add`, called for each document; an exception ends the whole answer. -/
def add (s : MarkerPage) (doc : Przystanek) : Except MarkerPage MarkerPage :=
  if s.mounted then
    .ok { s with markers := setMarker s.markers ⟨doc.id, doc.name, doc.lat, doc.lng⟩ }
  else .error { s with lateSetStates := s.lateSetStates + 1 }

/-- The read issued by `przystanki`. -/
def przystanki (s : MarkerPage) : MarkerPage := { s with reading := true }

/-- The answer to this read. -/
def onPrzystanki (s : MarkerPage) (docs : List Przystanek) : MarkerPage :=
  match docs.foldlM add { s with reading := false } with
  | .ok t | .error t => t

/-- The page after `initState`. -/
def initial : MarkerPage := przystanki {}

def dispose (s : MarkerPage) : MarkerPage := { s with mounted := false }

theorem foldlM_add_of_mounted (docs : List Przystanek) (s : MarkerPage) (hm : s.mounted = true) :
    ∃ markers, docs.foldlM add s = .ok { s with markers := markers } := by
  induction docs generalizing s with
  | nil => exact ⟨s.markers, rfl⟩
  | cons doc docs ih =>
    obtain ⟨markers, he⟩ := ih { s with
      markers := setMarker s.markers ⟨doc.id, doc.name, doc.lat, doc.lng⟩ } hm
    refine ⟨markers, ?_⟩
    rw [List.foldlM_cons, add, if_pos hm]
    exact he

/-- An answer calls no `setState` too late if the page is there or there is no document. -/
theorem onPrzystanki_lateSetStates_iff (s : MarkerPage) (docs : List Przystanek) :
    (s.onPrzystanki docs).lateSetStates = s.lateSetStates ↔ (s.mounted = false → docs = []) := by
  unfold onPrzystanki
  by_cases hm : s.mounted = true
  · obtain ⟨markers, he⟩ := foldlM_add_of_mounted docs { s with reading := false } hm
    rw [he]
    simp [hm]
  · cases docs with
    | nil => exact iff_of_true rfl fun _ => rfl
    | cons doc docs =>
      rw [List.foldlM_cons, add, if_neg hm]
      simp [hm, Bind.bind, Except.bind]

end MarkerPage

/-- `_MapPageState`. -/
abbrev MapPage := MarkerPage

def MapPage.initial : MapPage := MarkerPage.initial

/-- `_ChooseFromMapState`. -/
abbrev ChooseFromMap := MarkerPage

def ChooseFromMap.initial : ChooseFromMap := MarkerPage.initial

/-- The `ScreenArguments` that the button of a marker closes the page with. -/
def ChooseFromMap.results (s : ChooseFromMap) : List (String × ℤ) :=
  s.markers.map fun m => (m.name, m.id)

end MapaZimSlupsk
