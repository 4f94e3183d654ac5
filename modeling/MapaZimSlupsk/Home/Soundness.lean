import MapaZimSlupsk.Home.Shown

/-!
# When a listed line serves the selection

A line in `D` should go from the first selected stop to the second.  The index variables are reset
when a read is issued, not when its answer is handled, so an answer can find in them the place of a
stop on another line.

* `Sound` : every line in `D` serves the selected pair.
* `Clean` : the event does not list a line through such a left-over index, unless the line serves
  the pair anyway.
* `sound_run_iff_clean_run` : **a run stays sound exactly if all its events are clean**.
* `sound_violated` : a run of six events that is not.
-/

namespace MapaZimSlupsk

/-- Some direction of a line with the number `n` goes from the stop `id1` to the stop `id2`. -/
def LineServes (db : Firestore) (n id1 id2 : ℤ) : Prop :=
  ∃ line, intParse line = some n ∧ ∃ j, (j = 1 ∨ j = 2) ∧ Goes (db.trasa line j) id1 id2

namespace HomePage

variable {db : Firestore} {s t : HomePage} {e : Event} {ls : List Event}

/-- Every line shown goes from the first selected stop to the second. -/
def Sound (db : Firestore) (s : HomePage) : Prop :=
  ∀ n ∈ s.D, ∃ id1 id2, s.id1 = some id1 ∧ s.id2 = some id2 ∧ LineServes db n id1 id2

/-- No index left over from an earlier answer takes part in a successful test of this event, unless
the line of the answer is listed or serves the selected pair. -/
def Clean (db : Firestore) (s : HomePage) : Event → Prop
  | .route k r docs =>
    ∀ c, s.calculations[k]? = some c → ∀ id1 id2, s.id1 = some id1 → s.id2 = some id2 →
      ∀ n, intParse r.line = some n → Leftover id1 id2 r.j c.vars docs →
        n ∈ s.D ∨ LineServes db n id1 id2
  | _ => True

/-- A step that leaves the selection and `D` as they are stays sound. -/
theorem Sound.congr (h : s.Sound db) (hD : t.D = s.D) (h1 : t.id1 = s.id1) (h2 : t.id2 = s.id2) :
    t.Sound db := by
  intro n hn
  rw [hD] at hn
  rw [h1, h2]
  exact h n hn

theorem sound_of_nil (hD : s.D = []) : s.Sound db := by
  intro n hn
  simp [hD] at hn

/-- The one event that can break soundness is the answer to a read of a route. -/
theorem Effect.sound_iff_clean (hinv : s.Inv) (h : s.Sound db) (he : Effect db s e t) :
    t.Sound db ↔ Clean db s e := by
  cases he with
  | select1 => exact iff_of_true (sound_of_nil rfl) trivial
  | select2 => exact iff_of_true (sound_of_nil rfl) trivial
  | text => exact iff_of_true (h.congr rfl rfl rfl) trivial
  | stops => exact iff_of_true (h.congr rfl rfl rfl) trivial
  | stopsUnset => exact iff_of_true (h.congr rfl rfl rfl) trivial
  | wait => exact iff_of_true (h.congr rfl rfl rfl) trivial
  | routeUnset k r docs c hk hr hids =>
    refine iff_of_true (h.congr rfl rfl rfl) fun _ _ id1 id2 h1 h2 => ?_
    rcases hids with hids | hids
    · simp [hids] at h1
    · simp [hids] at h2
  | route k r docs c id1 id2 hs hk hr hdocs h1 h2 hh =>
    rw [hinv.line_eq hk hr] at hh
    subst hh
    constructor
    · intro ht c' hk' a b ha hb n hn hleft
      cases hk.symm.trans hk'
      cases h1.symm.trans ha
      cases h2.symm.trans hb
      -- the handler lists the line, so the line serves the pair
      obtain ⟨a, b, ha, hb, hserves⟩ :=
        ht n (mem_handleRoute_of_passes hn (passes_of_leftover hleft))
      cases h1.symm.trans ha
      cases h2.symm.trans hb
      exact .inr hserves
    · intro hclean m hm
      cases hn : intParse r.line with
      | none =>
        rw [handleRoute_of_not_passes fun n hn' => by simp [hn] at hn'] at hm
        exact h m hm
      | some n =>
        rcases handleRoute_D_cases hn id1 id2 r.j docs ⟨c.vars, s.D, s.lateSetStates⟩ with
          he | ⟨hnew, hp, he⟩
        · rw [he] at hm
          exact h m hm
        · rw [he, Bubble.mem_sort, List.mem_append, List.mem_singleton] at hm
          rcases hm with hm | rfl
          · exact h m hm
          · refine ⟨id1, id2, h1, h2, ?_⟩
            have hreads := (hinv.ok c (List.mem_of_getElem? hk)).reads
            rcases goes_or_leftover_of_passes hp with hg | hleft
            · exact ⟨r.line, hn, r.j, hreads.direction r (hreads.pending_sub r hr),
                hg.perm hdocs⟩
            · exact (hclean c hk id1 id2 h1 h2 m hn hleft).resolve_left hnew

/-- **A run keeps every listed line serving the selected pair exactly if none of its answers lists
a line through a left-over index.** -/
theorem sound_run_iff_clean_run (db : Firestore) (ls : List Event) (t : HomePage) :
    ((lts db).within (Sound db)).Run initial ls t ↔ ((lts db).guard (Clean db)).Run initial ls t :=
  Lts.within_run_iff_guard_run inv_initial (sound_of_nil rfl) (fun _ _ _ => inv_step)
    fun _ _ _ hinv h hst => (effect_of_step hinv.mounted hst).sound_iff_clean hinv h

/-! ### A line listed by mistake -/

/-- The lines 1 and 2 serve the stops 10 and 20; the first course of line 1 only stops at 10, that
of line 2 only at 20. -/
def twoLines : Firestore where
  przystanki := [⟨"1", 10, "Dworzec", 0, 0, ["1", "2"]⟩, ⟨"2", 20, "Ratusz", 0, 1, ["1", "2"]⟩]
  trasa
    | "1", 1 => [⟨"10", 1, "Dworzec"⟩]
    | "2", 1 => [⟨"20", 2, "Ratusz"⟩]
    | _, _ => []

/-- The answer for line 1 is late: the reads of line 2 are issued, and the index variables reset,
before it is handled. -/
def lateAnswer : List Event :=
  [.select1 "Dworzec" 10, .select2 "Ratusz" 20, .stops 2 twoLines.przystanki, .wait 2 0,
    .route 2 ⟨0, 1, "1"⟩ [⟨"10", 1, "Dworzec"⟩], .route 2 ⟨1, 1, "2"⟩ [⟨"20", 2, "Ratusz"⟩]]

theorem not_serves_twoLines {n : ℤ} : ¬ LineServes twoLines n 10 20 := by
  rintro ⟨line, -, j, -, p, hp, q, hq, hpid, hqid, hlt⟩
  unfold twoLines at hp hq
  dsimp only at hp hq
  split at hp <;> simp_all

theorem sound_violated : ¬ ∀ db : Firestore,
    (∀ line j, ∀ p ∈ db.trasa line j, 1 ≤ p.l) →
    (∀ p ∈ db.przystanki, ∀ line ∈ p.linie, (intParse line).isSome) →
    ∀ s, (lts db).Reachable initial s → s.Sound db := by
  intro h
  obtain ⟨t, ht, h10, h20, hD⟩ : ∃ t, lateAnswer.foldlM (step twoLines) initial = some t ∧
      t.id1 = some 10 ∧ t.id2 = some 20 ∧ t.D = [2] := ⟨_, rfl, by decide⟩
  have hsound := h twoLines ?_ (by decide) t (Lts.ofFun_run ht).reachable
  · obtain ⟨id1, id2, h1, h2, hs⟩ := hsound 2 (by simp [hD])
    cases h10.symm.trans h1
    cases h20.symm.trans h2
    exact not_serves_twoLines hs
  · intro line j p hp
    unfold twoLines at hp
    dsimp only at hp
    split at hp <;> simp_all

end HomePage

end MapaZimSlupsk
