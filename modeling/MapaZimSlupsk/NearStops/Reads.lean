import MapaZimSlupsk.NearStops.Page

/-!
# How many reads the page issues

A build reads `Przystanki`; the answer calls `setState` for every document whose neighbourhood the
user is not in, and so leads to the next build.

* `NearStopsPage.scheduled` : the page over a fixed collection, built when `setState` asks for it.
* `NearStopsPage.reads_le` : without a call of `setState` in the geofence, `p` positions lead to
  `2 ^ (p + 1)` reads at most.
* `NearStopsPage.exists_reads_gt` : with it, the reads exceed every bound.
* `NearStopsPage.reads_bounded_iff` : **the reads are bounded exactly if no position is reported or
  the geofence ends at its first document**.
-/

namespace MapaZimSlupsk

namespace NearStopsPage

variable {kol : List Przystanek} {s t : NearStopsPage} {e : Event} {ls : List Event} {p : ℚ × ℚ}

/-- The event is a tap on a map button. -/
def Event.IsTap (e : Event) : Prop := ∃ i, e = .tap i

/-- The event is a position. -/
def Event.isPosition : Event → Bool
  | .position _ => true
  | _ => false

/-- The number of positions reported. -/
def positions (ls : List Event) : ℕ := ls.countP Event.isPosition

theorem positions_append (ls ls' : List Event) :
    positions (ls ++ ls') = positions ls + positions ls' := List.countP_append

/-- The page over the collection `kol` with nobody tapping; it is built when it has to be. -/
def scheduled (kol : List Przystanek) : Lts NearStopsPage Event :=
  lts.guard fun s e => (e = .build → s.dirty = true) ∧ Over kol e ∧ ¬ e.IsTap

/-- The geofence throws at the first document of the collection, or has none. -/
def EndsAtOnce (kol : List Przystanek) : Prop :=
  ∀ doc, kol.head? = some doc → ∃ e, flag doc.docId = .error e

/-! ### A geofence that does nothing -/

/-- An answer for the geofence changes nothing before the first position, and never does if the
geofence ends at its first document. -/
theorem onGeo_of_ends (h : s.position = none ∨ EndsAtOnce kol) :
    s.onGeo kol = { s with geoReads := s.geoReads - 1 } := by
  unfold onGeo
  cases kol with
  | nil => rfl
  | cons doc kol =>
    rw [geofence_cons]
    unfold geoStop
    rcases h with h | h
    · simp only [h, result]
    · obtain ⟨e, he⟩ := h doc rfl
      cases s.position with
      | none => simp only [result]
      | some p => simp only [he, result]

/-- After `n` positions: the builds done and due are at most one more than the reads of `nearStops`
answered; those issued at most double with every position. -/
structure Bounded (n : ℕ) (s : NearStopsPage) : Prop where
  position : n = 0 → s.position = none
  docReads : s.docReads = []
  active : s.active.length ≤ s.listens
  issued : ∃ near, s.stopReads = near + s.listens ∧
    s.listens + s.dirty.toNat + s.nearReads.length ≤ near + 1 ∧ near + 1 ≤ 2 ^ n

theorem bounded_initial : Bounded 0 initial :=
  ⟨fun _ => rfl, rfl, le_rfl, 0, rfl, by decide, by decide⟩

theorem Bounded.effect {n : ℕ} (h : Bounded n s) (he : s.Effect e t)
    (hsched : (e = .build → s.dirty = true) ∧ Over kol e ∧ ¬ e.IsTap)
    (hends : s.position = none ∨ EndsAtOnce kol) : Bounded (n + positions [e]) t := by
  obtain ⟨hdirty, hover, htap⟩ := hsched
  obtain ⟨hpos, hdoc, hact, near, hreads, hbuilds, hnear⟩ := h
  cases he with
  | build hd =>
    have hd' := hdirty rfl
    refine ⟨hpos, hdoc, by simpa [build] using hact, near, ?_, ?_, hnear⟩
    · simp only [build, hreads, Nat.add_assoc]
    · simp only [hd', Bool.toNat_true] at hbuilds
      simp only [build, Bool.toNat_false]
      omega
  | position p =>
    have hn : n + positions [.position p] = n + 1 := rfl
    refine ⟨fun h => absurd h (Nat.succ_ne_zero n), hdoc, hact, near + s.active.length, ?_, ?_, ?_⟩
    · dsimp only
      omega
    · simp only [List.length_append, List.length_replicate]
      omega
    · rw [hn, Nat.pow_succ]
      omega
  | near p docs l dirty hp =>
    refine ⟨hpos, hdoc, hact, near, hreads, ?_, hnear⟩
    have hlen := List.length_erase_of_mem hp
    have hone := List.length_pos_of_mem hp
    have hb : dirty.toNat ≤ 1 := Bool.toNat_le dirty
    dsimp only
    omega
  | geo docs _ _ _ _ _ hg t ht heq =>
    obtain rfl := hover docs rfl
    rw [onGeo_of_ends hends] at ht
    subst ht
    exact ⟨hpos, hdoc, hact, near, hreads, hbuilds, hnear⟩
  | doc y docs nazwa dirty late hy => simp [hdoc] at hy
  | tap i => exact absurd ⟨i, rfl⟩ htap
  | map => exact ⟨hpos, hdoc, hact, near, hreads, hbuilds, hnear⟩
  | dispose hd hb =>
    refine ⟨hpos, hdoc, ?_, near, hreads, hbuilds, hnear⟩
    refine le_trans ?_ hact
    unfold dispose
    dsimp only
    split
    · exact le_rfl
    · exact List.length_erase_le

/-- **Without a call of `setState` in the geofence the reads are bounded.** -/
theorem reads_le (h : (scheduled kol).Run initial ls t)
    (hends : positions ls = 0 ∨ EndsAtOnce kol) : t.stopReads ≤ 2 ^ (positions ls + 1) := by
  have hb : Bounded (positions ls) t := by
    induction h with
    | nil => exact bounded_initial
    | snoc hr hst ih =>
      rw [positions_append] at hends ⊢
      have hends' := hends.imp_left Nat.eq_zero_of_add_eq_zero_right
      have hb := ih hends'
      exact hb.effect (effect_of_step hst.2) hst.1 (hends'.imp_left hb.position)
  obtain ⟨-, -, -, near, hreads, hbuilds, hnear⟩ := hb
  rw [Nat.pow_succ]
  omega

/-! ### A geofence that calls `setState` -/

/-- The page is open far from all stops, and the geofence has not set a flag. -/
structure Far (p : ℚ × ℚ) (s : NearStopsPage) : Prop where
  disposed : s.disposed = false
  position : s.position = some p
  x : ∀ i, s.x i ≠ 1

theorem lastFlag_eq_zero {x : Fin 12 → ℕ} (hx : ∀ i, x i ≠ 1) : lastFlag x = 0 := by
  unfold lastFlag
  refine List.foldlRecOn (motive := fun y => y = 0) _ _ rfl fun y hy i _ => ?_
  rw [if_neg fun h => hx i h.2, hy]

theorem exists_far (kol : List Przystanek) : ∃ p : ℚ × ℚ, ∀ doc ∈ kol, ¬ InBox p doc := by
  have hnorth : ∃ lat : ℚ, ∀ doc ∈ kol, doc.lat + 0.00015 < lat := by
    induction kol with
    | nil => exact ⟨0, nofun⟩
    | cons doc kol ih =>
      obtain ⟨lat, hlat⟩ := ih
      refine ⟨max lat (doc.lat + 1), fun d hd => ?_⟩
      rcases List.mem_cons.1 hd with rfl | hd
      · exact lt_max_of_lt_right (by norm_num)
      · exact lt_max_of_lt_left (hlat d hd)
  obtain ⟨lat, hlat⟩ := hnorth
  exact ⟨(lat, 0), fun doc hdoc hbox => absurd hbox.2.1 (not_le_of_gt (hlat doc hdoc))⟩

/-- Away from its stop a document calls `setState` if its name is a slot of `x`. -/
theorem Far.geoStop (h : Far p s) {doc : Przystanek} (hdoc : ¬ InBox p doc) {i : Fin 12}
    (hi : flag doc.docId = .ok i) : ∃ t, s.geoStop doc = .ok t ∧ Far p t ∧ t.dirty = true := by
  have hx : ∀ j, Function.update s.x i 0 j ≠ 1 := by
    intro j
    by_cases hj : j = i
    · simp [hj]
    · rw [Function.update_of_ne hj]
      exact h.x j
  refine ⟨{ s with x := Function.update s.x i 0, nazwa := "brak", dirty := true }, ?_,
    ⟨h.disposed, h.position, hx⟩, rfl⟩
  unfold NearStopsPage.geoStop setState
  simp only [h.position, hi, if_neg hdoc, lastFlag_eq_zero hx, h.disposed]
  simp

theorem Far.geofence (h : Far p s) (hd : s.dirty = true) (hfar : ∀ doc ∈ kol, ¬ InBox p doc) :
    Far p (result (s.geofence kol)) ∧ (result (s.geofence kol)).dirty = true := by
  induction kol generalizing s with
  | nil => exact ⟨h, hd⟩
  | cons doc kol ih =>
    rw [geofence_cons]
    cases hflag : flag doc.docId with
    | error e =>
      have he : s.geoStop doc = .error (e, s) := by
        unfold NearStopsPage.geoStop
        simp only [h.position, hflag]
      rw [he]
      exact ⟨h, hd⟩
    | ok i =>
      obtain ⟨t, ht, hf, hdirty⟩ := h.geoStop (hfar doc List.mem_cons_self) hflag
      rw [ht]
      exact ih hf hdirty fun d hmem => hfar d (List.mem_cons_of_mem _ hmem)

theorem Far.onGeo (h : Far p s) (hends : ¬ EndsAtOnce kol) (hfar : ∀ d ∈ kol, ¬ InBox p d) :
    Far p (s.onGeo kol) ∧ (s.onGeo kol).dirty = true := by
  cases kol with
  | nil => exact absurd nofun hends
  | cons doc kol =>
    cases hflag : flag doc.docId with
    | error e =>
      refine absurd (fun d hd => ?_) hends
      rw [List.head?_cons, Option.some.injEq] at hd
      exact ⟨e, hd ▸ hflag⟩
    | ok i =>
      have h' : Far p { s with geoReads := s.geoReads - 1 } := ⟨h.disposed, h.position, h.x⟩
      obtain ⟨t, ht, hf, hdirty⟩ := h'.geoStop (hfar doc List.mem_cons_self) hflag
      unfold NearStopsPage.onGeo
      rw [geofence_cons, ht]
      exact hf.geofence hdirty fun d hmem => hfar d (List.mem_cons_of_mem _ hmem)

/-- The page after its first build and `n` positions. -/
theorem exists_run_positions (kol : List Przystanek) (q : ℚ × ℚ) (n : ℕ) :
    ∃ t, (scheduled kol).Run initial (.build :: List.replicate n (.position q)) t ∧
      t.disposed = false ∧ t.active = [0] ∧ (∀ i, t.x i ≠ 1) ∧ t.geoReads ≠ 0 ∧
      (n ≠ 0 → t.position = some q) := by
  induction n with
  | zero =>
    refine ⟨initial.build, .single ⟨⟨fun _ => rfl, nofun, ?_⟩, rfl⟩, rfl, rfl, ?_, ?_, ?_⟩
    · rintro ⟨i, hi⟩
      cases hi
    · intro i
      exact zero_ne_one
    · decide
    · exact fun h => absurd rfl h
  | succ n ih =>
    obtain ⟨t, hr, hd, ha, hx, hg, -⟩ := ih
    refine ⟨t.onPosition q, ?_, ?_⟩
    · rw [List.replicate_succ', ← List.cons_append]
      refine .snoc hr ⟨⟨nofun, nofun, ?_⟩, rfl⟩
      rintro ⟨i, hi⟩
      cases hi
    · rw [onPosition_eq]
      exact ⟨hd, ha, hx, hg, fun _ => by simp [ha]⟩

theorem positions_eq_zero (h : ∀ e ∈ ls, e.isPosition = false) : positions ls = 0 := by
  rw [positions, List.countP_eq_zero]
  exact fun e he => by simp [h e he]

/-- **With it, the reads exceed every bound**, for any number of positions but zero. -/
theorem exists_reads_gt (hends : ¬ EndsAtOnce kol) {n : ℕ} (hn : n ≠ 0) (b : ℕ) :
    ∃ ls t, (scheduled kol).Run initial ls t ∧ positions ls = n ∧ b < t.stopReads := by
  obtain ⟨q, hfar⟩ := exists_far kol
  obtain ⟨s, hr, hd, -, hx, hg, hq⟩ := exists_run_positions kol q n
  -- the answer to the read of a build leads to the next build
  have hloop : ∀ s, Far q s ∧ s.geoReads ≠ 0 → ∃ ls t, (scheduled kol).Run s ls t ∧
      (∀ e ∈ ls, e.isPosition = false) ∧ (Far q t ∧ t.geoReads ≠ 0) ∧ s.stopReads < t.stopReads := by
    rintro s ⟨hs, hgs⟩
    obtain ⟨ht, hdirty⟩ := hs.onGeo hends hfar
    have hgeo : (scheduled kol).step s (.geo kol) (s.onGeo kol) := by
      refine ⟨⟨nofun, fun docs hdocs => (Option.some.inj hdocs).symm, ?_⟩, if_pos hgs⟩
      rintro ⟨i, hi⟩
      cases hi
    have hbuild : (scheduled kol).step (s.onGeo kol) .build (s.onGeo kol).build := by
      refine ⟨⟨fun _ => hdirty, nofun, ?_⟩, if_pos ht.disposed⟩
      rintro ⟨i, hi⟩
      cases hi
    refine ⟨[.geo kol] ++ [.build], (s.onGeo kol).build, .snoc (.single hgeo) hbuild, ?_,
      ⟨⟨ht.disposed, ht.position, ht.x⟩, Nat.succ_ne_zero _⟩, ?_⟩
    · intro e he
      rcases List.mem_append.1 he with he | he <;> rw [List.mem_singleton.1 he] <;> rfl
    · obtain ⟨_, _, _, _, _, he⟩ := s.onGeo_eq kol
      rw [he]
      exact Nat.lt_succ_self s.stopReads
  obtain ⟨ls, t, hr', hpos, hb⟩ := Lts.exists_run_counter_gt stopReads hloop b
    (s := s) ⟨⟨hd, hq hn, hx⟩, hg⟩
  refine ⟨_, t, hr.append hr', ?_, hb⟩
  rw [positions_append, positions_eq_zero hpos]
  simp [positions, Event.isPosition, List.countP_replicate]

/-- **The reads are bounded exactly if no position is reported or the geofence ends at its first
document.** -/
theorem reads_bounded_iff (kol : List Przystanek) (p : ℕ) :
    (∃ b, ∀ ls t, (scheduled kol).Run initial ls t → positions ls = p → t.stopReads ≤ b) ↔
      p = 0 ∨ EndsAtOnce kol := by
  constructor
  · rintro ⟨b, hb⟩
    by_contra hcon
    obtain ⟨hp, hends⟩ := not_or.1 hcon
    obtain ⟨ls, t, hr, hpos, hgt⟩ := exists_reads_gt hends hp b
    exact absurd (hb ls t hr hpos) (not_le_of_gt hgt)
  · intro hcond
    refine ⟨2 ^ (p + 1), fun ls t hr hpos => ?_⟩
    subst hpos
    exact reads_le hr hcond

/-- One position next to one stop is enough. -/
theorem reads_unbounded : ¬ ∃ f : ℕ → ℕ → ℕ, ∀ kol ls t, (scheduled kol).Run initial ls t →
    t.stopReads ≤ f (positions ls) kol.length := by
  rintro ⟨f, hf⟩
  let kol : List Przystanek := [⟨"1", 1, "Dworzec", 54.47, 17.03, []⟩]
  have hends : ¬ EndsAtOnce kol := fun h => by
    obtain ⟨e, he⟩ := h _ rfl
    have hok : flag "1" = .ok 1 := by decide
    rw [hok] at he
    cases he
  obtain ⟨ls, t, hr, hpos, hgt⟩ := exists_reads_gt hends one_ne_zero (f 1 1)
  have := hf kol ls t hr
  rw [hpos] at this
  exact absurd this (not_le_of_gt hgt)

end NearStopsPage

end MapaZimSlupsk
