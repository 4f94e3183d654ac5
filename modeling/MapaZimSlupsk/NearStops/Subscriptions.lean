import MapaZimSlupsk.NearStops.Page
import Mathlib.Data.List.Count

/-!
# The subscriptions of the page

`build` subscribes to the positions and keeps the subscription in `positionStream`; the next build
overwrites it there, and `dispose` cancels the one it finds.

* `NearStopsPage.subscriptions_of_run` : which subscriptions are active after a run.
* `NearStopsPage.NoLeak` : at most one subscription is active, none after the disposal.
* `NearStopsPage.noLeak_iff_build_once` : **this holds along a run exactly if the run builds the page
  at most once**.
-/

namespace MapaZimSlupsk

namespace NearStopsPage

variable {s t : NearStopsPage} {e : Event} {ls : List Event}

/-- The subscriptions are those of all builds; `dispose` takes away the last one. -/
structure Subscribed (ls : List Event) (s : NearStopsPage) : Prop where
  listens : s.listens = ls.count .build
  stream : s.listens ≠ 0 → s.positionStream = some (s.listens - 1)
  active : s.disposed = false → s.active = List.range s.listens
  cancelled : s.disposed = true → s.listens ≠ 0 ∧ s.active = List.range (s.listens - 1)

theorem subscribed_initial : Subscribed [] initial := by
  refine ⟨rfl, fun h => absurd rfl h, fun _ => rfl, fun h => ?_⟩
  exact absurd h Bool.false_ne_true

/-- A step that is not a build leaves the count of builds as it is. -/
theorem Subscribed.congr (h : Subscribed ls s) (he : e ≠ .build) (hl : t.listens = s.listens)
    (hp : t.positionStream = s.positionStream) (ha : t.active = s.active)
    (hd : t.disposed = s.disposed) : Subscribed (ls ++ [e]) t := by
  have hc : (ls ++ [e]).count .build = ls.count .build := by
    simp [List.count_append, he]
  refine ⟨?_, ?_, ?_, ?_⟩
  · rw [hl, hc, h.listens]
  · rw [hl, hp]
    exact h.stream
  · rw [hl, ha, hd]
    exact h.active
  · rw [hl, ha, hd]
    exact h.cancelled

theorem Subscribed.effect (h : Subscribed ls s) (he : s.Effect e t) : Subscribed (ls ++ [e]) t := by
  cases he with
  | build hd =>
    refine ⟨?_, fun _ => ?_, fun _ => ?_, fun hd' => ?_⟩
    · simp [NearStopsPage.build, List.count_append, h.listens]
    · simp [NearStopsPage.build]
    · simp [NearStopsPage.build, h.active hd, List.range_succ]
    · simp [NearStopsPage.build, hd] at hd'
  | position => exact h.congr (by simp) rfl rfl rfl rfl
  | near => exact h.congr (by simp) rfl rfl rfl rfl
  | geo docs _ _ _ _ _ _ _ _ heq => exact heq ▸ h.congr (by simp) rfl rfl rfl rfl
  | doc => exact h.congr (by simp) rfl rfl rfl rfl
  | tap => exact h.congr (by simp) rfl rfl rfl rfl
  | map => exact h.congr (by simp) rfl rfl rfl rfl
  | dispose hd hb =>
    have hstream := h.stream hb
    refine ⟨?_, ?_, fun hd' => ?_, fun _ => ⟨hb, ?_⟩⟩
    · simp [NearStopsPage.dispose, List.count_append, h.listens]
    · exact h.stream
    · simp [NearStopsPage.dispose] at hd'
    · obtain ⟨n, hn⟩ := Nat.exists_eq_succ_of_ne_zero hb
      simp only [NearStopsPage.dispose, hstream, h.active hd, hn, Nat.succ_eq_add_one,
        Nat.add_sub_cancel, List.range_succ]
      rw [List.erase_append_right _ (by simp)]
      simp

/-- Which subscriptions are active after a run. -/
theorem subscriptions_of_run (h : lts.Run initial ls s) : Subscribed ls s :=
  h.invariant_labels subscribed_initial fun _ _ _ _ hs hst => hs.effect (effect_of_step hst)

/-- No subscription leaks: at most one is active, none after the disposal, and a position makes the
page issue one read while it is open and none otherwise. -/
structure NoLeak (s : NearStopsPage) : Prop where
  one_active : s.active.length ≤ 1
  disposed : s.disposed = true → s.active = []
  one_read : ∀ p, (s.onPosition p).stopReads =
    s.stopReads + if s.listens ≠ 0 ∧ s.disposed = false then 1 else 0

/-- The leak can be read off the number of builds. -/
theorem Subscribed.noLeak_iff (h : Subscribed ls s) : s.NoLeak ↔ ls.count .build ≤ 1 := by
  rw [← h.listens]
  cases hd : s.disposed with
  | false =>
    have ha := h.active hd
    refine ⟨fun hn => by simpa [ha] using hn.one_active, fun hl => ⟨?_, ?_, fun p => ?_⟩⟩
    · simpa [ha] using hl
    · simp [hd]
    · rw [onPosition_eq]
      simp only [ha, List.length_range, hd, and_true]
      split_ifs <;> omega
  | true =>
    obtain ⟨hb, ha⟩ := h.cancelled hd
    refine ⟨fun hn => ?_, fun hl => ?_⟩
    · have := hn.disposed hd
      rw [ha, List.range_eq_nil] at this
      omega
    · have hnil : s.active = [] := by
        rw [ha, List.range_eq_nil]
        omega
      refine ⟨by simp [hnil], fun _ => hnil, fun p => ?_⟩
      rw [onPosition_eq]
      simp [hnil, hd]

/-- **No subscription leaks along a run exactly if the run builds the page at most once.** -/
theorem noLeak_iff_build_once (ls : List Event) (t : NearStopsPage) (h : lts.Run initial ls t) :
    (lts.within NoLeak).Run initial ls t ↔ ls.count .build ≤ 1 := by
  constructor
  · intro hw
    refine (subscriptions_of_run h).noLeak_iff.1 (hw.last_of_within ?_)
    exact subscribed_initial.noLeak_iff.2 (Nat.zero_le 1)
  · intro hc
    induction h with
    | nil => exact .nil
    | snoc hr hst ih =>
      have hc' := hc
      rw [List.count_append] at hc
      refine .snoc (ih (le_trans (Nat.le_add_right _ _) hc)) ⟨hst, ?_⟩
      exact (subscriptions_of_run (.snoc hr hst)).noLeak_iff.2 hc'

/-- A page that is opened and closed again. -/
theorem noLeak_open_close : (lts.within NoLeak).Run initial [.build, .position (54.46, 17.03),
    .dispose, .position (54.47, 17.03)] ((initial.build.onPosition (54.46, 17.03)).dispose) :=
  (noLeak_iff_build_once _ _ (Lts.ofFun_run (by decide +kernel))).2 (by decide)

/-- The answer to the read of the first build leads to a second one; after the disposal the first
subscription still delivers positions. -/
theorem noLeak_violated : ¬ ∀ t, lts.Reachable initial t → t.NoLeak := by
  intro h
  obtain ⟨t, ht, hp⟩ := Lts.exists_run_of_any step initial
    [.build, .position (54.46, 17.03), .geo [⟨"1", 1, "Dworzec", 54.47, 17.03, []⟩], .build,
      .dispose] (fun t => t.disposed && t.active == [0]) (by decide +kernel)
  simp only [Bool.and_eq_true, beq_iff_eq] at hp
  have := (h t ht.reachable).disposed hp.1
  simp [hp.2] at this

end NearStopsPage

end MapaZimSlupsk
