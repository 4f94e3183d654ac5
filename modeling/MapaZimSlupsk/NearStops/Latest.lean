import MapaZimSlupsk.NearStops.Nearest
import MapaZimSlupsk.NearStops.Page

/-!
# The list of nearest stops and earlier positions

The list should be the one that a page opened at the latest position shows.  The arrays `id` and
`od` are never cleared, so an answer finds in them what earlier answers left.  What it makes of this
matters when it leaves no read unanswered.

* `NearStopsPage.fresh` : a page opened at a position.
* `NearStopsPage.LatestOnly` : once all reads are answered the list is that of the latest position.
* `NearStopsPage.Undisturbed` : what the answer finds are no arrays yet, the right list already, or
  the first of the names that it should leave, and it brings the others in order.
* `NearStopsPage.LeavesSame` : the answer leaves the right name in each row.
* `NearStopsPage.latestOnly_run_iff` : **the list is that of the latest position in every state of a
  run whose last answers are undisturbed**, and exactly if they leave the right names.
-/

namespace MapaZimSlupsk

/-- The documents leave the name `n` in the slot `i`: the last one that finds the slot bears it, or
it stands there and no document finds the slot. -/
def Leaves {δ : Type*} [LinearOrder δ] [Zero δ] (dist : Przystanek → δ) (l : NearList δ)
    (docs : List Przystanek) (i : Fin 4) (n : String) : Prop :=
  PutLast dist l docs i n ∨ (l.id i = n ∧ LeftAlone dist l docs i)

namespace NearStopsPage

variable {docs : List Przystanek} {s t : NearStopsPage} {e : Event} {p q : ℚ × ℚ}

/-- A page that is opened, gets the position `p` and has its read answered. -/
def fresh (p : ℚ × ℚ) (docs : List Przystanek) : NearStopsPage :=
  ((initial.build).onPosition p).onNear p docs

theorem fresh_near (p : ℚ × ℚ) (docs : List Przystanek) :
    (fresh p docs).near = nearStops (odleglosc p.1 p.2) .empty docs := by
  unfold fresh
  obtain ⟨near, dirty, he, hnear⟩ := ((initial.build).onPosition p).onNear_eq p docs
  rw [he]
  exact hnear rfl

/-- Once the reads of all positions are answered, the list of the open page is that of the latest
one. -/
def LatestOnly (docs : List Przystanek) (s : NearStopsPage) : Prop :=
  s.disposed = false → s.nearReads = [] → ∀ p, s.position = some p →
    s.near.id = (fresh p docs).near.id

/-- The page over one snapshot. -/
def ltsOver (docs : List Przystanek) : Lts NearStopsPage Event := lts.guard fun _ => Over docs

theorem ltsOver_position : (ltsOver docs).step s (.position p) (s.onPosition p) := ⟨nofun, rfl⟩

theorem ltsOver_near (h : p ∈ s.nearReads) :
    (ltsOver docs).step s (.near p docs) (s.onNear p docs) :=
  ⟨fun _ he => (Option.some.inj he).symm, if_pos h⟩

/-! ### Answers that leave no read unanswered -/

/-- An answer to the open page that leaves no read unanswered meets `C`, for its position and the
latest one. -/
def AtLastAnswer (C : NearStopsPage → ℚ × ℚ → ℚ × ℚ → Prop) (s : NearStopsPage) (e : Event) :
    Prop :=
  s.disposed = false → match e with
    | .near p _ => s.nearReads = [p] → ∀ q, s.position = some q → C s p q
    | _ => True

theorem atLastAnswer_near {C : NearStopsPage → ℚ × ℚ → ℚ × ℚ → Prop} (hq : s.position = some q)
    (h : C s p q) : AtLastAnswer C s (.near p docs) := by
  intro _ _ r hr
  rw [hq] at hr
  cases hr
  exact h

/-- The answer leaves the same name in each row as that of a page opened at the latest position. -/
def LeavesSame (docs : List Przystanek) (s : NearStopsPage) (p q : ℚ × ℚ) : Prop :=
  ∀ i, ∃ n, Leaves (odleglosc p.1 p.2) s.near docs i n ∧
    Leaves (odleglosc q.1 q.2) .empty docs i n

/-- The answer for `p` is the first and for the latest position `q`; or the list is that of `q` and
the answer changes nothing; or there are names, four or as many as there are, that come in order at
`q`, and of which the arrays hold the first and the answer brings the others in order. -/
def Undisturbed (docs : List Przystanek) (s : NearStopsPage) (p q : ℚ × ℚ) : Prop :=
  (s.near = .empty ∧ p = q) ∨
  (s.near.id = (fresh q docs).near.id ∧
    ∀ doc ∈ docs, s.near.Contains doc.name ∨ s.near.slot (odleglosc p.1 p.2 doc) = none) ∨
  ∃ names : List String, names.length = min 4 (nameCount docs) ∧
    Fills (odleglosc p.1 p.2) s.near names docs ∧
    Fills (odleglosc q.1 q.2) .empty names docs

theorem leavesSame_iff : LeavesSame docs s p q ↔
    (nearStops (odleglosc p.1 p.2) s.near docs).id = (fresh q docs).near.id := by
  rw [fresh_near]
  constructor
  · intro h
    funext i
    obtain ⟨n, hp, hq⟩ := h i
    rw [id_nearStops_iff.2 hp, id_nearStops_iff.2 hq]
  · intro h i
    exact ⟨_, id_nearStops_iff.1 rfl, id_nearStops_iff.1 (congrFun h i).symm⟩

/-- **An undisturbed answer leaves the same rows.** -/
theorem Undisturbed.leavesSame (hr : s.near.Rows (docs.map (·.name)))
    (h : Undisturbed docs s p q) : LeavesSame docs s p q := by
  rw [leavesSame_iff]
  rcases h with ⟨hempty, rfl⟩ | ⟨hid, hstay⟩ | ⟨names, hlen, hp, hq⟩
  · rw [hempty, fresh_near]
  · rw [nearStops_of_settled hstay, hid]
  · rw [fresh_near]
    funext i
    have hsub : ∀ n ∈ names, n ∈ docs.map (·.name) := fun _ => hq.mem_of_empty
    rw [hp.id_eq hr hlen hsub, hq.id_eq (.empty _) hlen hsub]

/-! ### Runs -/

/-- What a single step makes of the list: it is the one of the latest position again, or still,
exactly if the last answer leaves the same rows. -/
theorem latestOnly_step_iff (hs : LatestOnly docs s) (hst : (ltsOver docs).step s e t) :
    LatestOnly docs t ↔ AtLastAnswer (LeavesSame docs) s e := by
  obtain ⟨hover, hst⟩ := hst
  have hkeep : ∀ {t' : NearStopsPage}, t'.disposed = s.disposed → t'.nearReads = s.nearReads →
      t'.position = s.position → t'.near = s.near → LatestOnly docs t' := by
    intro t' hd hr hp hn
    unfold LatestOnly
    rw [hd, hr, hp, hn]
    exact hs
  have htrivial : (∀ p docs, e ≠ .near p docs) → AtLastAnswer (LeavesSame docs) s e := by
    intro hne _
    cases e with
    | near p docs => exact absurd rfl (hne p docs)
    | _ => trivial
  cases effect_of_step hst with
  | build => exact iff_of_true (hkeep rfl rfl rfl rfl) (htrivial nofun)
  | position p =>
    refine iff_of_true ?_ (htrivial nofun)
    by_cases hactive : s.active = []
    · exact hkeep rfl (by simp [hactive]) (by simp [hactive]) rfl
    · -- its read is not answered yet
      intro _ hreads
      simp [hactive] at hreads
  | near p docs' near dirty hp hnear =>
    obtain rfl := hover docs' rfl
    unfold LatestOnly AtLastAnswer
    have herase : s.nearReads.erase p = [] ↔ s.nearReads = [p] := by
      rw [List.erase_eq_nil_iff]
      exact or_iff_right fun hnil => List.not_mem_nil (hnil ▸ hp)
    dsimp only
    simp only [herase, leavesSame_iff]
    exact forall_congr' fun hd => by rw [hnear hd]
  | geo _ _ _ _ _ _ _ _ _ heq =>
    exact iff_of_true (hkeep (heq ▸ rfl) (heq ▸ rfl) (heq ▸ rfl) (heq ▸ rfl)) (htrivial nofun)
  | doc => exact iff_of_true (hkeep rfl rfl rfl rfl) (htrivial nofun)
  | tap => exact iff_of_true (hkeep rfl rfl rfl rfl) (htrivial nofun)
  | map => exact iff_of_true (hkeep rfl rfl rfl rfl) (htrivial nofun)
  | dispose => exact iff_of_true (fun hd => by simp [NearStopsPage.dispose] at hd) (htrivial nofun)

/-- No stop is shown twice, and only stops of the snapshot are. -/
theorem rows_step (hs : s.near.Rows (docs.map (·.name))) (hst : (ltsOver docs).step s e t) :
    t.near.Rows (docs.map (·.name)) := by
  obtain he | ⟨p, docs', rfl, -, hnear⟩ := step_near hst.2
  · rwa [he]
  · obtain rfl := hst.1 docs' rfl
    rw [hnear]
    exact hs.nearStops fun doc hdoc => List.mem_map_of_mem hdoc

/-- **The list is that of the latest position in every state of a run** exactly if every answer that
leaves no read unanswered leaves the same rows as that of a page opened there; in particular if each
of these answers is undisturbed. -/
theorem latestOnly_run_iff (docs : List Przystanek) (ls : List Event) (t : NearStopsPage) :
    (((ltsOver docs).guard (AtLastAnswer (Undisturbed docs))).Run initial ls t →
      ((ltsOver docs).within (LatestOnly docs)).Run initial ls t) ∧
    (((ltsOver docs).within (LatestOnly docs)).Run initial ls t ↔
      ((ltsOver docs).guard (AtLastAnswer (LeavesSame docs))).Run initial ls t) := by
  have hiff : ((ltsOver docs).within (LatestOnly docs)).Run initial ls t ↔
      ((ltsOver docs).guard (AtLastAnswer (LeavesSame docs))).Run initial ls t :=
    Lts.within_run_iff_guard_run (J := fun _ => True) trivial (fun _ _ => nofun)
      (fun _ _ _ _ _ => trivial) fun _ _ _ _ => latestOnly_step_iff
  refine ⟨fun h => hiff.2 (h.guard_imp (J := fun s => s.near.Rows (docs.map (·.name)))
    (.empty _) (fun _ _ _ => rows_step) fun s e _ hs _ hC hd => ?_), hiff⟩
  cases e with
  | near p docs' => exact fun hlast q hq => (hC hd hlast q hq).leavesSame hs
  | _ => trivial

/-- Five stops from south to north. -/
def ulica : List Przystanek :=
  [dworzec, ⟨"3", 3, "Park", 54.48, 17.03, []⟩, ratusz, ⟨"4", 4, "Teatr", 54.51, 17.03, []⟩,
    ⟨"5", 5, "Szpital", 54.43, 17.03, []⟩]

/-- The page at a first position, where `Szpital` is not listed, and its answer. -/
def atTeatr : NearStopsPage :=
  ((initial.build).onPosition (54.4722, 17.03)).onNear (54.4722, 17.03) ulica

/-- Then at a second one, where `Szpital` takes the place of `Teatr`. -/
def atSzpital : NearStopsPage :=
  (atTeatr.onPosition (54.462, 17.03)).onNear (54.462, 17.03) ulica

/-- Then at a third and back again, without the answer for the third. -/
def back : NearStopsPage :=
  ((atSzpital.onPosition (54.6, 17.03)).onPosition (54.462, 17.03)).onNear (54.462, 17.03) ulica

theorem undisturbed_szpital :
    Undisturbed ulica (atTeatr.onPosition (54.462, 17.03)) (54.462, 17.03) (54.462, 17.03) := by
  refine .inr (.inr ⟨["Dworzec", "Park", "Ratusz", "Szpital"], by decide, ?_, ?_⟩)
  · refine ⟨["Dworzec", "Park", "Ratusz"], ["Szpital"],
      [atTeatr.near.od 0, atTeatr.near.od 1, atTeatr.near.od 2], [atTeatr.near.od 3], rfl, ?_, ?_⟩
    · exact ⟨by decide, by decide, by decide +kernel, by decide +kernel, by decide +kernel,
        by decide +kernel, by decide +kernel⟩
    · decide +kernel
  · exact ⟨[], _, [], [], rfl, .empty (by decide) (by decide) (by decide), by decide +kernel⟩

/-- The answer for the third position comes last and finds nothing to change. -/
theorem latestOnly_back :
    ((ltsOver ulica).within (LatestOnly ulica)).Run initial
      [.build, .position (54.4722, 17.03), .near (54.4722, 17.03) ulica,
        .position (54.462, 17.03), .near (54.462, 17.03) ulica, .position (54.6, 17.03),
        .position (54.462, 17.03), .near (54.462, 17.03) ulica, .near (54.6, 17.03) ulica]
      (back.onNear (54.6, 17.03) ulica) := by
  have hlate : Undisturbed ulica back (54.6, 17.03) (54.462, 17.03) :=
    .inr (.inl (by decide +kernel))
  refine (latestOnly_run_iff ulica _ _).1 ?_
  refine .cons (t := initial.build) ⟨fun _ => trivial, nofun, rfl⟩ ?_
  refine .cons ⟨fun _ => trivial, ltsOver_position⟩ ?_
  refine .cons (t := atTeatr) ⟨atLastAnswer_near rfl (.inl ⟨rfl, rfl⟩), ltsOver_near ?_⟩ ?_
  · decide +kernel
  refine .cons ⟨fun _ => trivial, ltsOver_position⟩ ?_
  refine .cons (t := atSzpital) ⟨atLastAnswer_near ?_ undisturbed_szpital, ltsOver_near ?_⟩ ?_
  · decide +kernel
  · decide +kernel
  refine .cons ⟨fun _ => trivial, ltsOver_position⟩ ?_
  refine .cons ⟨fun _ => trivial, ltsOver_position⟩ ?_
  refine .cons (t := back) ⟨fun _ h => absurd h ?_, ltsOver_near ?_⟩ ?_
  · decide +kernel
  · decide +kernel
  refine .cons ⟨atLastAnswer_near ?_ hlate, ltsOver_near ?_⟩ .nil
  · decide +kernel
  · decide +kernel

/-- North of both stops the list still shows them in the order of the first position. -/
theorem latestOnly_violated : ¬ ∀ (docs : List Przystanek) (ls : List Event) (t : NearStopsPage),
    (ltsOver docs).Run initial ls t → t.LatestOnly docs := by
  intro h
  let docs := [ratusz, dworzec]
  let p : ℚ × ℚ := (54.46, 17.03)
  let q : ℚ × ℚ := (54.50, 17.03)
  let ls : List Event := [.build, .position p, .near p docs, .position q, .near q docs]
  obtain ⟨t, ht, hp⟩ := Lts.exists_run_of_any step initial ls
    (fun t => decide (t.disposed = false ∧ t.nearReads = [] ∧ t.position = some q ∧
      t.near.id 0 = "Dworzec")) (by decide +kernel)
  obtain ⟨hd, hr, hpos, hid⟩ := of_decide_eq_true hp
  have hlatest := h docs ls t (ht.guard_of_labels (by decide +kernel)) hd hr q hpos
  have hfresh : (fresh q docs).near.id 0 = "Ratusz" := by decide +kernel
  rw [← hlatest, hid] at hfresh
  exact absurd hfresh (by decide)

end NearStopsPage

end MapaZimSlupsk
