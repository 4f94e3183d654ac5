import MapaZimSlupsk.NearStops.Latest

/-!
# The map buttons

A tap on the map button of a row starts a read of `Przystanki`; its answer pushes `/map` for every
document that bears the name which the row displays by then.

* `TapRecord` : the page with a record of the taps: those under way, each with the name displayed
  when it was made, and those answered, each with the positions pushed.
* `TapRecord.page_run`, `TapRecord.exists_run_of_page_run` : the runs of the record are those of the
  page.
* `TapRecord.OpensItsStop` : every answered tap has pushed `/map` once, with the position of a stop
  of its name.
* `TapRecord.opensItsStop_run_iff` : **main result**: this holds in every state of a run exactly if
  every answer finds the page open and one document of the name now displayed, at the place of a
  stop of the name tapped.
-/

namespace MapaZimSlupsk

/-- A tap on the map button of a row, and the name that the row displays. -/
structure Tap where
  row : Fin 4
  name : String
  deriving DecidableEq

/-- The page and a record of its taps. -/
structure TapRecord where
  page : NearStopsPage := NearStopsPage.initial
  /-- The taps that are not answered yet. -/
  waiting : List Tap := []
  /-- The taps answered, with the positions that their answers pushed. -/
  answered : List (Tap × List (ℚ × ℚ)) := []
  deriving DecidableEq

/-- The event is one of the map buttons. -/
def NearStopsPage.Event.ofButton : NearStopsPage.Event → Bool
  | .tap _ => true
  | .map _ _ => true
  | _ => false

namespace TapRecord

/-- What may happen. -/
inductive Event where
  /-- An event that is not one of the map buttons. -/
  | page (e : NearStopsPage.Event)
  | tap (i : Fin 4)
  /-- The answer to the read that the tap `a` has started. -/
  | answer (a : Tap) (docs : List Przystanek)
  deriving DecidableEq

/-- The event of the page. -/
def Event.event : Event → NearStopsPage.Event
  | .page e => e
  | .tap i => .tap i
  | .answer a docs => .map a.row docs

/-- The record of a step of the page. -/
def step (s : TapRecord) (e : Event) : Option TapRecord :=
  (s.page.step e.event).bind fun t =>
    match e with
    | .page e => if e.ofButton then none else some { s with page := t }
    | .tap i => some { s with page := t, waiting := s.waiting ++ [⟨i, s.page.near.id i⟩] }
    | .answer a _ =>
      if a ∈ s.waiting then
        some {
          page := t
          waiting := s.waiting.erase a
          answered := s.answered ++ [(a, t.pushed.drop s.page.pushed.length)] }
      else none

/-- The page over the collection `kol`, with the record of its taps. -/
def lts (kol : List Przystanek) : Lts TapRecord Event :=
  (Lts.ofFun step).guard fun _ e => NearStopsPage.Over kol e.event

/-- Every tap on a row that displays the name of a stop has pushed `/map` once when it is answered,
with the position of a stop of this name. -/
def OpensItsStop (kol : List Przystanek) (s : TapRecord) : Prop :=
  ∀ r ∈ s.answered, r.1.name ≠ "" → (∃ doc ∈ kol, doc.name = r.1.name) →
    ∃ doc ∈ kol, doc.name = r.1.name ∧ r.2 = [(doc.lat, doc.lng)]

/-- The answer to a tap on the name of a stop finds the page open and a single document of the name
that the row displays now, at the place of a stop of the name tapped. -/
def FindsIt (kol : List Przystanek) (s : TapRecord) (e : Event) : Prop :=
  ∀ a docs, e = .answer a docs → a.name ≠ "" → (∃ doc ∈ kol, doc.name = a.name) →
    s.page.disposed = false ∧
      ∃ doc ∈ kol, doc.name = a.name ∧ ∃ stop, (stop.lat, stop.lng) = (doc.lat, doc.lng) ∧
        kol.filter (fun d => d.name = s.page.near.id a.row) = [stop]

variable {kol docs : List Przystanek} {s t : TapRecord} {e : Event} {ls : List Event} {a : Tap}
  {i : Fin 4}

/-! ### What a step does -/

/-- The positions pushed by an answer. -/
theorem onMap_pushed (s : NearStopsPage) (i : Fin 4) (docs : List Przystanek) :
    (s.onMap i docs).pushed = s.pushed ++ if s.disposed then [] else
      (docs.filter fun doc => doc.name = s.near.id i).map fun doc => (doc.lat, doc.lng) := by
  unfold NearStopsPage.onMap
  dsimp only
  split_ifs
  · exact (List.append_nil _).symm
  · rfl

/-- What a step does to the page and to the record. -/
inductive Effect (kol : List Przystanek) (s : TapRecord) : Event → TapRecord → Prop
  | page (e : NearStopsPage.Event) (t : NearStopsPage) (hb : e.ofButton = false)
      (ht : s.page.Effect e t) : Effect kol s (.page e) { s with page := t }
  | tap (i : Fin 4) : Effect kol s (.tap i) { s with
      page := s.page.onTap i, waiting := s.waiting ++ [⟨i, s.page.near.id i⟩] }
  | answer (a : Tap) (ha : a ∈ s.waiting) (hi : a.row ∈ s.page.mapReads) :
      Effect kol s (.answer a kol) {
        page := s.page.onMap a.row kol
        waiting := s.waiting.erase a
        answered := s.answered ++ [(a, if s.page.disposed then [] else
          (kol.filter fun doc => doc.name = s.page.near.id a.row).map fun doc =>
            (doc.lat, doc.lng))] }

theorem effect_of_step (h : (lts kol).step s e t) : Effect kol s e t := by
  obtain ⟨hover, h⟩ := h
  obtain ⟨u, hu, h⟩ := Option.bind_eq_some_iff.1 h
  cases e with
  | page e =>
    by_cases hb : e.ofButton
    · simp [hb] at h
    · simp only [hb, Bool.false_eq_true, ↓reduceIte, Option.some.injEq] at h
      exact h ▸ .page e u (by simpa using hb) (NearStopsPage.effect_of_step hu)
  | tap i =>
    obtain ⟨-, hu⟩ := Option.ite_none_right_eq_some.1 hu
    cases hu
    cases h
    exact .tap i
  | answer a docs =>
    obtain rfl : docs = kol := hover docs rfl
    obtain ⟨hi, hu⟩ := Option.ite_none_right_eq_some.1 hu
    cases hu
    obtain ⟨ha, h⟩ := Option.ite_none_right_eq_some.1 h
    cases h
    rw [onMap_pushed, List.drop_left]
    exact .answer a ha hi

/-! ### The record and the page -/

/-- The taps under way are the reads of the page, and all pushes belong to answered taps. -/
structure Inv (s : TapRecord) : Prop where
  rows : (s.waiting.map (·.row)).Perm s.page.mapReads
  pushed : s.page.pushed = s.answered.flatMap (·.2)

theorem inv_initial : Inv {} := ⟨List.Perm.refl _, rfl⟩

theorem Inv.effect (h : s.Inv) (he : Effect kol s e t) : t.Inv := by
  cases he with
  | page e u hb hu =>
    have hframe : u.mapReads = s.page.mapReads ∧ u.pushed = s.page.pushed := by
      cases hu with
      | geo _ _ _ _ _ _ _ _ _ heq => exact heq ▸ ⟨rfl, rfl⟩
      | tap | map => cases hb
      | build | position | near | doc | dispose => exact ⟨rfl, rfl⟩
    exact ⟨hframe.1 ▸ h.rows, hframe.2.trans h.pushed⟩
  | tap i =>
    refine ⟨?_, h.pushed⟩
    rw [List.map_append]
    exact h.rows.append_right [i]
  | answer a ha hi =>
    refine ⟨?_, ?_⟩
    · obtain ⟨pushed, he⟩ := s.page.onMap_eq a.row kol
      rw [he]
      have hp := ((List.perm_cons_erase ha).map (·.row)).symm.trans
        (h.rows.trans (List.perm_cons_erase hi))
      exact hp.cons_inv
    · rw [List.flatMap_append, ← h.pushed, onMap_pushed]
      simp

theorem inv_of_run (h : (lts kol).Run {} ls s) : s.Inv :=
  h.invariant inv_initial fun _ _ _ hs hst => hs.effect (effect_of_step hst)

/-- A step of the record is one of the page. -/
theorem step_page (h : s.step e = some t) : s.page.step e.event = some t.page := by
  obtain ⟨u, hu, h⟩ := Option.bind_eq_some_iff.1 h
  rw [hu, Option.some.injEq]
  cases e with
  | page e =>
    obtain ⟨-, h⟩ := Option.ite_none_left_eq_some.1 h
    rw [← Option.some.inj h]
  | tap i => rw [← Option.some.inj h]
  | answer a docs =>
    obtain ⟨-, h⟩ := Option.ite_none_right_eq_some.1 h
    rw [← Option.some.inj h]

/-- A run of the record is one of the page. -/
theorem page_run (h : (lts kol).Run {} ls s) :
    (NearStopsPage.ltsOver kol).Run NearStopsPage.initial (ls.map Event.event) s.page := by
  induction h with
  | nil => exact .nil
  | snoc _ hst ih =>
    rw [List.map_append]
    exact .snoc ih ⟨hst.1, step_page hst.2⟩

/-- Every step of the page can be recorded. -/
theorem exists_step {e : NearStopsPage.Event} {u : NearStopsPage} (h : s.Inv)
    (hu : s.page.step e = some u) : ∃ e' t, s.step e' = some t ∧ t.page = u ∧ e'.event = e := by
  by_cases hb : e.ofButton
  · cases e with
    | tap i =>
      have ht : s.step (.tap i) =
          some { s with page := u, waiting := s.waiting ++ [⟨i, s.page.near.id i⟩] } :=
        Option.bind_eq_some_iff.2 ⟨u, hu, rfl⟩
      exact ⟨.tap i, _, ht, rfl, rfl⟩
    | map i docs =>
      -- the read belongs to a tap under way
      obtain ⟨hi, -⟩ := Option.ite_none_right_eq_some.1 hu
      obtain ⟨a, ha, rfl⟩ := List.mem_map.1 (h.rows.mem_iff.2 hi)
      have ht : s.step (.answer a docs) = some {
          page := u
          waiting := s.waiting.erase a
          answered := s.answered ++ [(a, u.pushed.drop s.page.pushed.length)] } :=
        Option.bind_eq_some_iff.2 ⟨u, hu, if_pos ha⟩
      exact ⟨.answer a docs, _, ht, rfl, rfl⟩
    | build | position | near | geo | doc | dispose => cases hb
  · have ht : s.step (.page e) = some { s with page := u } :=
      Option.bind_eq_some_iff.2 ⟨u, hu, if_neg hb⟩
    exact ⟨.page e, _, ht, rfl, rfl⟩

/-- Every run of the page has a record. -/
theorem exists_run_of_page_run {events : List NearStopsPage.Event} {u : NearStopsPage}
    (h : (NearStopsPage.ltsOver kol).Run NearStopsPage.initial events u) :
    ∃ ls s, (lts kol).Run {} ls s ∧ s.page = u ∧ ls.map Event.event = events := by
  induction h with
  | nil => exact ⟨[], {}, .nil, rfl, rfl⟩
  | snoc _ hst ih =>
    obtain ⟨ls, s, hr, rfl, rfl⟩ := ih
    obtain ⟨e, t, ht, rfl, rfl⟩ := exists_step (inv_of_run hr) hst.2
    exact ⟨ls ++ [e], t, .snoc hr ⟨hst.1, ht⟩, rfl, by simp⟩

/-! ### One push for each tap -/

/-- An answer pushes one position exactly if one document bears the name displayed. -/
theorem pushed_eq_singleton {R : Przystanek → Prop} {name : String} {disposed : Bool} :
    (∃ doc ∈ kol, R doc ∧ (if disposed then [] else
        (kol.filter fun d => d.name = name).map fun d => (d.lat, d.lng)) = [(doc.lat, doc.lng)]) ↔
      disposed = false ∧ ∃ doc ∈ kol, R doc ∧ ∃ stop, (stop.lat, stop.lng) = (doc.lat, doc.lng) ∧
        kol.filter (fun d => d.name = name) = [stop] := by
  cases disposed with
  | true => simp
  | false =>
    simp only [Bool.false_eq_true, ↓reduceIte, true_and, List.map_eq_singleton_iff]
    refine exists_congr fun doc => and_congr_right fun _ => and_congr_right fun _ =>
      exists_congr fun stop => and_comm

/-- **The step**: a good record stays good exactly if the answer finds the stop. -/
theorem Effect.opensItsStop_iff (h : OpensItsStop kol s) (he : Effect kol s e t) :
    OpensItsStop kol t ↔ FindsIt kol s e := by
  cases he with
  | page e u hb hu => exact ⟨fun _ => nofun, fun _ => h⟩
  | tap i => exact ⟨fun _ => nofun, fun _ => h⟩
  | answer a ha hi =>
    constructor
    · rintro ht b docs hb hne hdoc
      cases hb
      exact pushed_eq_singleton.1 (ht _ (List.mem_append_right _ List.mem_cons_self) hne hdoc)
    · intro hfind r hr hne hdoc
      rcases List.mem_append.1 hr with hr | hr
      · exact h r hr hne hdoc
      · obtain rfl := List.mem_singleton.1 hr
        exact pushed_eq_singleton.2 (hfind a kol rfl hne hdoc)

/-- **A map button opens exactly the stop of its row, once**, in every state of a run exactly if
every answer finds the page open and a single document of the name its row displays by then, at the
place of a stop of the name that was tapped. -/
theorem opensItsStop_run_iff (kol : List Przystanek) (ls : List Event) (t : TapRecord) :
    ((lts kol).within (OpensItsStop kol)).Run {} ls t ↔
      ((lts kol).guard (FindsIt kol)).Run {} ls t :=
  Lts.within_run_iff_guard_run (J := fun _ => True) trivial nofun (fun _ _ _ _ _ => trivial)
    fun _ _ _ _ h hst => (effect_of_step hst).opensItsStop_iff h

/-- Two stops bear one name. -/
theorem opensItsStop_violated : ¬ ∀ kol ls t, (lts kol).Run {} ls t → OpensItsStop kol t := by
  intro h
  let stop : Przystanek := ⟨"3", 3, "Dworzec", 54.48, 17.03, []⟩
  let p : ℚ × ℚ := (54.46, 17.03)
  let kol := [dworzec, stop]
  let ls : List Event := [.page .build, .page (.position p), .page (.near p kol), .tap 0,
    .answer ⟨0, "Dworzec"⟩ kol]
  obtain ⟨t, ht, hans⟩ := Lts.exists_run_of_any step {} ls
    (fun t => t.answered = [(⟨0, "Dworzec"⟩, [(54.47, 17.03), (54.48, 17.03)])])
    (by decide +kernel)
  have hover : ∀ e ∈ ls, NearStopsPage.Over kol e.event := by decide +kernel
  have hopens := h kol ls t (ht.guard_of_labels hover) _
    ((of_decide_eq_true hans).symm ▸ List.mem_singleton.2 rfl) (by decide)
    ⟨dworzec, by simp [kol], rfl⟩
  obtain ⟨doc, -, -, he⟩ := hopens
  simp at he

end TapRecord

end MapaZimSlupsk
