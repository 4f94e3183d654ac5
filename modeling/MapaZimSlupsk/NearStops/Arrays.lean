import MapaZimSlupsk.NearStops.Nearest

/-!
# The representation of the nearest stops

`id` and `od` are two arrays for one list of stops: a slot is free when its name is empty, the free
slots come last, and the distance in a slot is the one of the stop named there.  An insertion moves
the distances behind its slot but no names, so it keeps the two arrays together only where there is
nothing to move.

* `RepInv` : the arrays represent a list of stops of the snapshot in the order of their distances.
* `Holds` : the same, with what the proofs need besides: the list holds the nearest stops seen.
* `OvertakesLate` : a stop that comes after a farther one finds four stops seen that are no farther
  than that one.
* `Holds.repInv_nearStop_iff` : what one document does to a list it finds.
* `repInv_iff_overtakesLate` : **main result**: the arrays represent a list after every document
  exactly if the snapshot overtakes late.
-/

namespace MapaZimSlupsk

variable {δ : Type*} {dist : Przystanek → δ} {docs : List Przystanek} {l : NearList δ}
  {t : Przystanek} {i j : Fin 4}

/-! ### Snapshots -/

/-- No two stops share their name, none is nameless, and none is at distance zero. -/
structure Apart [Zero δ] (dist : Przystanek → δ) (docs : List Przystanek) : Prop where
  names : (docs.map (·.name)).Nodup
  name_ne : ∀ doc ∈ docs, doc.name ≠ ""
  dist_ne : ∀ doc ∈ docs, dist doc ≠ 0

/-- The document `t` comes after farther ones only if four of the documents seen are no farther
than these. -/
def OvertakesLateAt [LE δ] [LT δ] [DecidableLE δ] (dist : Przystanek → δ) (docs : List Przystanek)
    (t : Przystanek) : Prop :=
  ∀ p ∈ docs, dist t < dist p → 4 ≤ docs.countP fun q => dist q ≤ dist p

/-- Every document overtakes late those in front of it. -/
def OvertakesLate [LE δ] [LT δ] [DecidableLE δ] (dist : Przystanek → δ) (docs : List Przystanek) :
    Prop :=
  ∀ pre t, pre ++ [t] <+: docs → OvertakesLateAt dist pre t

section

variable [Zero δ]

theorem Apart.of_prefix {pre : List Przystanek} (h : Apart dist docs) (hp : pre <+: docs) :
    Apart dist pre where
  names := h.names.sublist (hp.sublist.map _)
  name_ne doc hdoc := h.name_ne doc (hp.subset hdoc)
  dist_ne doc hdoc := h.dist_ne doc (hp.subset hdoc)

theorem Apart.eq_of_name {p q : Przystanek} (h : Apart dist docs) (hp : p ∈ docs) (hq : q ∈ docs)
    (hpq : p.name = q.name) : p = q :=
  List.inj_on_of_nodup_map h.names hp hq hpq

end

/-! ### An insertion with nothing to move -/

namespace NearList

/-- The distances from the slot `i` on are the same: there is nothing to move. -/
def Level (l : NearList δ) (i : Fin 4) : Prop := ∀ j, i ≤ j → l.od j = l.od i

/-- At a level slot an insertion overwrites the slot and nothing else. -/
theorem insertAt_of_level {name : String} {d : δ} (h : l.Level i) :
    l.insertAt i name d = ⟨Function.update l.id i name, Function.update l.od i d⟩ := by
  refine NearList.ext rfl ?_
  funext j
  show (l.insertAt i name d).od j = Function.update l.od i d j
  by_cases hj : j = i
  · rw [hj, insertAt_od_self, Function.update_self]
  · rw [insertAt_od_of_ne hj, Function.update_of_ne hj]
    by_cases hlt : j < i
    · rw [source, if_pos hlt]
    · have hij : i ≤ j := not_lt.1 hlt
      rw [h j hij, h _ (le_source i j le_rfl hij)]

end NearList

/-! ### Prefixes -/

variable [LinearOrder δ]

theorem overtakesLate_snoc :
    OvertakesLate dist (docs ++ [t]) ↔ OvertakesLate dist docs ∧ OvertakesLateAt dist docs t := by
  constructor
  · intro h
    exact ⟨fun pre u hp => h pre u (hp.trans (List.prefix_append docs [t])),
      h docs t (List.prefix_refl _)⟩
  · rintro ⟨h, ht⟩ pre u hp
    rcases List.prefix_concat_iff.1 hp with he | hp
    · obtain ⟨rfl, hu⟩ := List.append_inj' he rfl
      exact List.singleton_inj.1 hu ▸ ht
    · exact h pre u hp

/-- A property of all prefixes. -/
theorem forall_prefix_snoc {P : List Przystanek → Prop} :
    (∀ pre, pre <+: docs ++ [t] → P pre) ↔ (∀ pre, pre <+: docs → P pre) ∧ P (docs ++ [t]) := by
  simp only [List.prefix_concat_iff, forall_eq_or_imp, and_comm]

variable [Zero δ]

/-- The arrays represent a list of documents, in the order of their distances: the free slots are
those at distance zero and come last, and every other slot holds a document with its distance. -/
structure RepInv (dist : Przystanek → δ) (docs : List Przystanek) (l : NearList δ) : Prop where
  free_iff : ∀ i, l.id i = "" ↔ l.od i = 0
  suffix : ∀ i j, i ≤ j → l.id i = "" → l.id j = ""
  sorted : ∀ i j, i ≤ j → l.id i ≠ "" → l.id j ≠ "" → l.od i ≤ l.od j
  paired : ∀ i, l.id i ≠ "" → ∃ doc ∈ docs, doc.name = l.id i ∧ l.od i = dist doc

/-! ### The list of the nearest stops seen -/

/-- The arrays represent a list of documents, and the documents not on it are no nearer than the
fourth of it. -/
structure Holds (dist : Przystanek → δ) (docs : List Przystanek) (l : NearList δ) : Prop
    extends RepInv dist docs l where
  distinct : ∀ i j, l.id i ≠ "" → l.id i = l.id j → i = j
  kept : ∀ doc ∈ docs, l.Contains doc.name ∨ (l.id 3 ≠ "" ∧ l.od 3 ≤ dist doc)

namespace Holds

theorem empty : Holds dist [] (.empty : NearList δ) where
  free_iff _ := ⟨fun _ => rfl, fun _ => rfl⟩
  suffix _ _ _ _ := rfl
  sorted _ _ _ h := absurd rfl h
  paired _ h := absurd rfl h
  distinct _ _ h := absurd rfl h
  kept _ h := absurd h List.not_mem_nil

theorem od_ne_zero (h : Holds dist docs l) (hi : l.id i ≠ "") : l.od i ≠ 0 := fun h0 =>
  hi ((h.free_iff i).2 h0)

/-- A document named in a slot is at the distance noted there. -/
theorem od_of_id (h : Holds dist docs l) (ha : Apart dist docs) {p : Przystanek} (hp : p ∈ docs)
    (hi : l.id i = p.name) : l.id i ≠ "" ∧ l.od i = dist p := by
  have hne : l.id i ≠ "" := hi ▸ ha.name_ne p hp
  obtain ⟨q, hq, hqi, hod⟩ := h.paired i hne
  exact ⟨hne, ha.eq_of_name hq hp (hqi.trans hi) ▸ hod⟩

/-- A new document is not named. -/
theorem not_contains (h : Holds dist docs l) (ha : Apart dist (docs ++ [t])) :
    ¬ l.Contains t.name := by
  rintro ⟨i, hi⟩
  have hne : l.id i ≠ "" := hi ▸ ha.name_ne t (by simp)
  obtain ⟨q, hq, hqi, -⟩ := h.paired i hne
  have hnd := ha.names
  rw [List.map_append, List.nodup_append] at hnd
  exact hnd.2.2 _ (List.mem_map_of_mem hq) _ (by simp) (hqi.trans hi)

/-- A slot that does not take a document holds one that is no farther. -/
theorem of_not_takes (h : Holds dist docs l) (hj : ¬ l.Takes (dist t) j) :
    l.id j ≠ "" ∧ l.od j ≤ dist t :=
  ⟨fun h0 => hj (.inr ((h.free_iff j).1 h0)), not_lt.1 fun hlt => hj (.inl hlt)⟩

/-- The slots from a level slot on that takes a document are free or farther. -/
theorem lt_of_level (h : Holds dist docs l) (htake : l.Takes (dist t) i) (hlev : l.Level i)
    (hij : i ≤ j) (hj : l.id j ≠ "") : dist t < l.od j := by
  have h0 := h.od_ne_zero hj
  rw [hlev j hij] at h0 ⊢
  exact htake.resolve_right h0

/-- A level slot that is overwritten leaves a list. -/
theorem repInv_insertAt (h : Holds dist docs l) (ha : Apart dist (docs ++ [t]))
    (hs : l.slot (dist t) = some i) (hlev : l.Level i) :
    RepInv dist (docs ++ [t]) (l.insertAt i t.name (dist t)) := by
  have hname : t.name ≠ "" := ha.name_ne t (by simp)
  have hdist : dist t ≠ 0 := ha.dist_ne t (by simp)
  obtain ⟨htake, hfirst⟩ := NearList.slot_eq_some.1 hs
  rw [NearList.insertAt_of_level hlev]
  refine ⟨fun j => ?_, fun j k hjk hj => ?_, fun j k hjk hj hk => ?_, fun j hj => ?_⟩
  · by_cases hji : j = i
    · subst hji
      simp [hname, hdist]
    · simpa [hji] using h.free_iff j
  · -- a free slot is not the one overwritten, nor in front of it
    have hji : j ≠ i := by
      rintro rfl
      simp [hname] at hj
    have hki : k ≠ i := by
      rintro rfl
      exact (h.of_not_takes (hfirst j (lt_of_le_of_ne hjk hji))).1 (by simpa [hji] using hj)
    simpa [hki] using h.suffix j k hjk (by simpa [hji] using hj)
  · by_cases hji : j = i
    · subst hji
      by_cases hkj : k = j
      · simp [hkj]
      · have hk' : l.id k ≠ "" := by simpa [hkj] using hk
        simpa [hkj] using (h.lt_of_level htake hlev hjk hk').le
    · by_cases hki : k = i
      · subst hki
        simpa [hji] using (h.of_not_takes (hfirst j (lt_of_le_of_ne hjk hji))).2
      · simpa [hji, hki] using
          h.sorted j k hjk (by simpa [hji] using hj) (by simpa [hki] using hk)
  · by_cases hji : j = i
    · subst hji
      exact ⟨t, by simp, by simp, by simp⟩
    · obtain ⟨doc, hdoc, hn, hod⟩ := h.paired j (by simpa [hji] using hj)
      exact ⟨doc, List.mem_append_left _ hdoc, by simpa [hji] using hn, by simpa [hji] using hod⟩

/-- The names of the slots stay different. -/
theorem distinct_insertAt (h : Holds dist docs l) (ha : Apart dist (docs ++ [t])) {k : Fin 4}
    (hj : (l.insertAt i t.name (dist t)).id j ≠ "")
    (hjk : (l.insertAt i t.name (dist t)).id j = (l.insertAt i t.name (dist t)).id k) : j = k := by
  have hnew : ¬ l.Contains t.name := h.not_contains ha
  by_cases hji : j = i
  · by_cases hki : k = i
    · rw [hji, hki]
    · rw [hji, NearList.insertAt_id_self, NearList.insertAt_id_of_ne hki] at hjk
      exact absurd ⟨k, hjk.symm⟩ hnew
  · rw [NearList.insertAt_id_of_ne hji] at hj hjk
    by_cases hki : k = i
    · rw [hki, NearList.insertAt_id_self] at hjk
      exact absurd ⟨j, hjk⟩ hnew
    · rw [NearList.insertAt_id_of_ne hki] at hjk
      exact h.distinct j k hj hjk

/-- A document is listed or no nearer than the last slot, before and after an insertion. -/
theorem kept_insertAt (h : Holds dist docs l) (ha : Apart dist (docs ++ [t]))
    (htake : l.Takes (dist t) i) (hlev : l.Level i) {doc : Przystanek} (hdoc : doc ∈ docs) :
    (l.insertAt i t.name (dist t)).Contains doc.name ∨
      ((l.insertAt i t.name (dist t)).id 3 ≠ "" ∧
        (l.insertAt i t.name (dist t)).od 3 ≤ dist doc) := by
  have had : Apart dist docs := ha.of_prefix (List.prefix_append docs [t])
  have hname : t.name ≠ "" := ha.name_ne t (by simp)
  rw [NearList.insertAt_of_level hlev]
  -- the last slot holds `t` or is level with the slot overwritten
  have hlast : l.id 3 ≠ "" → l.od 3 ≤ dist doc → Function.update l.id i t.name 3 ≠ "" ∧
      Function.update l.od i (dist t) 3 ≤ dist doc := by
    intro h3 hle
    by_cases hi3 : (3 : Fin 4) = i
    · subst hi3
      simpa [hname] using (h.lt_of_level htake hlev le_rfl h3).le.trans hle
    · simpa [hi3] using ⟨h3, hle⟩
  rcases h.kept doc hdoc with ⟨j, hj⟩ | ⟨h3, hle⟩
  · by_cases hji : j = i
    · subst hji
      obtain ⟨hne, hod⟩ := h.od_of_id had hdoc hj
      have h3 : l.od 3 = l.od j := hlev 3 (Fin.le_last j)
      refine .inr (hlast (fun h0 => h.od_ne_zero hne ?_) (h3.trans hod).le)
      rw [← h3, (h.free_iff 3).1 h0]
    · exact .inl ⟨j, by simpa [hji] using hj⟩
  · exact .inr (hlast h3 hle)

/-- **A level slot keeps the list** of the nearest documents. -/
theorem insertAt (h : Holds dist docs l) (ha : Apart dist (docs ++ [t]))
    (hs : l.slot (dist t) = some i) (hlev : l.Level i) :
    Holds dist (docs ++ [t]) (l.insertAt i t.name (dist t)) := by
  refine ⟨h.repInv_insertAt ha hs hlev, fun j k => h.distinct_insertAt ha, fun doc hdoc => ?_⟩
  rcases List.mem_append.1 hdoc with hdoc | hdoc
  · exact h.kept_insertAt ha (NearList.slot_eq_some.1 hs).1 hlev hdoc
  · rw [List.mem_singleton.1 hdoc]
    exact .inl ⟨i, NearList.insertAt_id_self⟩

/-- Where there is something to move, the last slot no longer holds the distance of its stop. -/
theorem level_of_insertAt (h : Holds dist docs l) (ha : Apart dist (docs ++ [t]))
    (hrep : RepInv dist (docs ++ [t]) (l.insertAt i t.name (dist t))) : l.Level i := by
  have had : Apart dist docs := ha.of_prefix (List.prefix_append docs [t])
  have h3 : l.od 3 = l.od i := by
    by_cases hi3 : (3 : Fin 4) = i
    · rw [hi3]
    · have hid : (l.insertAt i t.name (dist t)).id 3 = l.id 3 := NearList.insertAt_id_of_ne hi3
      have hod : (l.insertAt i t.name (dist t)).od 3 = l.od i := by
        have hlt : ¬ (3 : Fin 4) < i := (Fin.le_last i).not_gt
        rw [NearList.insertAt_od_of_ne hi3, NearList.source, if_neg hlt, if_pos rfl]
      by_cases hfree : l.id 3 = ""
      · rw [(h.free_iff 3).1 hfree, ← hod, (hrep.free_iff 3).1 (hid.trans hfree)]
      · obtain ⟨p, hp, hpi, hpod⟩ := h.paired 3 hfree
        obtain ⟨q, hq, hqi, hqod⟩ := hrep.paired 3 (hid ▸ hfree)
        have hpq : p = q :=
          ha.eq_of_name (List.mem_append_left _ hp) hq (hpi.trans (hqi.trans hid).symm)
        rw [hpod, ← hod, hqod, hpq]
  -- between equal distances of a sorted list lie equal ones
  intro j hij
  by_cases hi : l.id i = ""
  · rw [(h.free_iff j).1 (h.suffix i j hij hi), (h.free_iff i).1 hi]
  · have hi3 : l.id 3 ≠ "" := fun h0 => h.od_ne_zero hi (h3 ▸ (h.free_iff 3).1 h0)
    have hj : l.id j ≠ "" := fun h0 => hi3 (h.suffix j 3 (Fin.le_last j) h0)
    exact le_antisymm (h3 ▸ h.sorted j 3 (Fin.le_last j) hj hi3) (h.sorted i j hij hi hj)

/-! ### Counting the stops that are no farther -/

/-- The names of the documents that are no farther than `e`. -/
theorem nodup_names_filter (had : Apart dist docs) (e : δ) :
    ((docs.filter fun q => dist q ≤ e).map (·.name)).Nodup :=
  had.names.sublist (List.filter_sublist.map _)

/-- Four taken slots at distances up to `e` are four documents that are no farther than `e`. -/
theorem four_le_countP (h : Holds dist docs l) {e : δ}
    (hall : ∀ j, l.id j ≠ "" ∧ l.od j ≤ e) : 4 ≤ docs.countP fun q => dist q ≤ e := by
  have hnd : (List.ofFn l.id).Nodup :=
    List.nodup_ofFn.2 fun j k hjk => h.distinct j k (hall j).1 hjk
  have hsub : List.ofFn l.id ⊆ (docs.filter fun q => dist q ≤ e).map (·.name) := by
    intro n hn
    obtain ⟨j, rfl⟩ := List.mem_ofFn.1 hn
    obtain ⟨q, hq, hqj, hod⟩ := h.paired j (hall j).1
    exact List.mem_map.2 ⟨q, List.mem_filter.2 ⟨hq, decide_eq_true (hod ▸ (hall j).2)⟩, hqj⟩
  have hlen := (List.subperm_of_subset hnd hsub).length_le
  rwa [List.length_ofFn, List.length_map, ← List.countP_eq_length_filter] at hlen

/-- If the last slot is free or farther than `e`, fewer than four documents are no farther. -/
theorem countP_lt_four (h : Holds dist docs l) (had : Apart dist docs) {e : δ}
    (hlast : l.id 3 ≠ "" → e < l.od 3) : (docs.countP fun q => dist q ≤ e) < 4 := by
  have hsub : (docs.filter fun q => dist q ≤ e).map (·.name) ⊆ [l.id 0, l.id 1, l.id 2] := by
    intro n hn
    obtain ⟨q, hq, rfl⟩ := List.mem_map.1 hn
    obtain ⟨hq, hle⟩ := List.mem_filter.1 hq
    have hle : dist q ≤ e := of_decide_eq_true hle
    rcases h.kept q hq with ⟨j, hj⟩ | ⟨h3, h3le⟩
    · obtain ⟨hne, hod⟩ := h.od_of_id had hq hj
      have hj3 : j ≠ 3 := by
        rintro rfl
        exact absurd (hod ▸ hle) (not_le_of_gt (hlast hne))
      rw [← hj]
      fin_cases j <;> simp_all
    · exact absurd (h3le.trans hle) (not_le_of_gt (hlast h3))
  have hlen := (List.subperm_of_subset (nodup_names_filter had e) hsub).length_le
  rw [List.length_map, ← List.countP_eq_length_filter] at hlen
  exact Nat.lt_succ_of_le hlen

/-- **The slot found is level exactly if the document overtakes late.** -/
theorem level_iff (h : Holds dist docs l) (had : Apart dist docs) :
    (∀ i, l.slot (dist t) = some i → l.Level i) ↔ OvertakesLateAt dist docs t := by
  constructor
  · intro hlev p hp hlt
    -- a slot that `t` could take, at a distance up to that of `p`
    obtain ⟨k, hk, hkp, hkt⟩ : ∃ k, l.id k ≠ "" ∧ l.od k ≤ dist p ∧
        (l.Takes (dist t) k ∨ k = 3) := by
      rcases h.kept p hp with ⟨k, hk⟩ | ⟨h3, hle⟩
      · obtain ⟨hne, hod⟩ := h.od_of_id had hp hk
        exact ⟨k, hne, hod.le, .inl (.inl (hod ▸ hlt))⟩
      · exact ⟨3, h3, hle, .inr rfl⟩
    refine h.four_le_countP fun j => ?_
    cases hs : l.slot (dist t) with
    | none =>
      exact (h.of_not_takes (NearList.not_takes_of_slot_eq_none hs j)).imp_right
        fun hle => hle.trans hlt.le
    | some i =>
      obtain ⟨-, hfirst⟩ := NearList.slot_eq_some.1 hs
      have hik : i ≤ k := by
        rcases hkt with hkt | rfl
        · exact not_lt.1 fun hki => hfirst k hki hkt
        · exact Fin.le_last i
      by_cases hji : j < i
      · exact (h.of_not_takes (hfirst j hji)).imp_right fun hle => hle.trans hlt.le
      · have hjk : l.od j = l.od k :=
          (hlev i hs j (not_lt.1 hji)).trans (hlev i hs k hik).symm
        exact ⟨fun h0 => h.od_ne_zero hk (hjk ▸ (h.free_iff j).1 h0), hjk ▸ hkp⟩
  · intro hlate i hs
    by_contra hlev
    obtain ⟨htake, -⟩ := NearList.slot_eq_some.1 hs
    have hi : l.id i ≠ "" := fun h0 => hlev fun j hj => by
      rw [(h.free_iff j).1 (h.suffix i j hj h0), (h.free_iff i).1 h0]
    obtain ⟨p, hp, -, hod⟩ := h.paired i hi
    have hlt : dist t < dist p := hod ▸ htake.resolve_right (h.od_ne_zero hi)
    refine absurd (hlate p hp hlt) (not_le_of_gt (h.countP_lt_four had fun h3 => ?_))
    rw [← hod]
    refine lt_of_le_of_ne (h.sorted i 3 (Fin.le_last i) hi h3) fun he => hlev fun j hij => ?_
    have hj : l.id j ≠ "" := fun h0 => h3 (h.suffix j 3 (Fin.le_last j) h0)
    exact le_antisymm (he ▸ h.sorted j 3 (Fin.le_last j) hj h3) (h.sorted i j hij hi hj)

/-! ### A document -/

/-- A document that overtakes late keeps the list. -/
theorem nearStop (h : Holds dist docs l) (ha : Apart dist (docs ++ [t]))
    (ht : OvertakesLateAt dist docs t) :
    Holds dist (docs ++ [t]) (l.nearStop t.name (dist t)) := by
  have had : Apart dist docs := ha.of_prefix (List.prefix_append docs [t])
  rcases NearList.nearStop_cases l t.name (dist t) with ⟨he, hno⟩ | ⟨i, -, hs, he⟩
  · have hs : l.slot (dist t) = none := hno.resolve_left (h.not_contains ha)
    rw [he]
    refine ⟨⟨h.free_iff, h.suffix, h.sorted, fun j hj => ?_⟩, h.distinct, fun doc hdoc => ?_⟩
    · obtain ⟨doc, hdoc, hn, hod⟩ := h.paired j hj
      exact ⟨doc, List.mem_append_left _ hdoc, hn, hod⟩
    · rcases List.mem_append.1 hdoc with hdoc | hdoc
      · exact h.kept doc hdoc
      · rw [List.mem_singleton.1 hdoc]
        exact .inr (h.of_not_takes (NearList.not_takes_of_slot_eq_none hs 3))
  · rw [he]
    exact h.insertAt ha hs ((h.level_iff had).2 ht i hs)

/-- **The step**: a document keeps the two arrays together exactly if it overtakes late. -/
theorem repInv_nearStop_iff (h : Holds dist docs l) (ha : Apart dist (docs ++ [t])) :
    RepInv dist (docs ++ [t]) (l.nearStop t.name (dist t)) ↔ OvertakesLateAt dist docs t := by
  constructor
  · intro hrep
    refine (h.level_iff (ha.of_prefix (List.prefix_append docs [t]))).1 fun i hs => ?_
    rw [NearList.nearStop_of_slot (h.not_contains ha) hs] at hrep
    exact h.level_of_insertAt ha hrep
  · exact fun ht => (h.nearStop ha ht).toRepInv

end Holds

/-! ### A snapshot -/

/-- Documents that overtake late leave the list of the nearest ones. -/
theorem holds_nearStops (ha : Apart dist docs) (h : OvertakesLate dist docs) :
    Holds dist docs (nearStops dist .empty docs) := by
  induction docs using List.reverseRecOn with
  | nil => exact .empty
  | append_singleton docs t ih =>
    obtain ⟨h, ht⟩ := overtakesLate_snoc.1 h
    rw [nearStops_append]
    exact (ih (ha.of_prefix (List.prefix_append docs [t])) h).nearStop ha ht

/-- **The two arrays represent one list after every document** of a snapshot exactly if the
snapshot overtakes late. -/
theorem repInv_iff_overtakesLate (ha : Apart dist docs) :
    (∀ pre, pre <+: docs → RepInv dist pre (nearStops dist .empty pre)) ↔
      OvertakesLate dist docs := by
  induction docs using List.reverseRecOn with
  | nil =>
    refine ⟨fun _ pre t hp => ?_, fun _ pre hp => ?_⟩
    · simp at hp
    · rw [List.prefix_nil.1 hp]
      exact Holds.empty.toRepInv
  | append_singleton docs t ih =>
    have had : Apart dist docs := ha.of_prefix (List.prefix_append docs [t])
    rw [forall_prefix_snoc (P := fun pre => RepInv dist pre (nearStops dist .empty pre)), ih had,
      overtakesLate_snoc]
    refine and_congr_right fun h => ?_
    rw [nearStops_append]
    exact (holds_nearStops had h).repInv_nearStop_iff ha

/-- **The arrays of the page** represent a list after every document of a snapshot handled at one
position, without repeated names or stops at distance zero, exactly if every document that comes
after a farther one finds four documents seen that are no farther than that one. -/
theorem repInv_odleglosc (sz dl : ℚ) {docs : List Przystanek} (ha : Apart (odleglosc sz dl) docs) :
    (∀ pre, pre <+: docs →
        RepInv (odleglosc sz dl) pre (nearStops (odleglosc sz dl) .empty pre)) ↔
      ∀ pre t, pre ++ [t] <+: docs → ∀ p ∈ pre, odleglosc sz dl t < odleglosc sz dl p →
        4 ≤ pre.countP fun q => odleglosc sz dl q ≤ odleglosc sz dl p :=
  repInv_iff_overtakesLate ha

/-- With the nearer stop first the arrays represent a list throughout. -/
theorem repInv_dworzec_ratusz :
    (∀ pre, pre <+: [dworzec, ratusz] →
        RepInv (odleglosc 54.46 17.03) pre (nearStops (odleglosc 54.46 17.03) .empty pre)) ↔
      ∀ pre t, pre ++ [t] <+: [dworzec, ratusz] → ∀ p ∈ pre,
        odleglosc 54.46 17.03 t < odleglosc 54.46 17.03 p →
          4 ≤ pre.countP fun q => odleglosc 54.46 17.03 q ≤ odleglosc 54.46 17.03 p :=
  repInv_odleglosc 54.46 17.03 ⟨by decide, by decide, by decide +kernel⟩

/-- With the farther stop first its distance ends in the last slot, which bears no name. -/
theorem repInv_violated : ¬ ∀ (sz dl : ℚ) (docs : List Przystanek), Apart (odleglosc sz dl) docs →
    ∀ pre, pre <+: docs →
      RepInv (odleglosc sz dl) pre (nearStops (odleglosc sz dl) .empty pre) := by
  intro h
  have ha : Apart (odleglosc 54.46 17.03) [ratusz, dworzec] :=
    ⟨by decide, by decide, by decide +kernel⟩
  have hrep := h 54.46 17.03 [ratusz, dworzec] ha _ (List.prefix_refl _)
  have hid : (nearStops (odleglosc 54.46 17.03) .empty [ratusz, dworzec]).id 3 = "" := by
    decide +kernel
  have hod : (nearStops (odleglosc 54.46 17.03) .empty [ratusz, dworzec]).od 3 ≠ 0 := by
    decide +kernel
  exact hod ((hrep.free_iff 3).1 hid)

end MapaZimSlupsk
