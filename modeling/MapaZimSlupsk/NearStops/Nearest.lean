import MapaZimSlupsk.NearStops.InOrder
import Mathlib.Data.Set.Finite.Lattice

/-!
# When the four nearest stops are listed

A snapshot should leave the four nearest names in `id`, in the order of their distances.  The
insertion overwrites the name of the slot it takes, so a nearer stop that comes after a farther one
loses it.

* `FourNearest` : `id` holds the nearest names of the snapshot.
* `InOrder` : the nearest name comes first, then the second nearest, and so on.
* `Repaired` : names are written over, and those of the nearest stops put back.
* `fourNearest_iff` : **the four nearest are listed in these cases only**, unless there is one name.
* `inOrder_of_overwritesNone`, `inOrder_of_fourNearest` : in the first case only, where no name is
  written over and where all names and all distances differ.
-/

namespace MapaZimSlupsk

variable {δ : Type*} [LinearOrder δ] {docs : List Przystanek} {dist : Przystanek → δ}
  {id : Fin 4 → String} {names : List String}

/-! ### The four nearest names -/

/-- `d` is the smallest distance of a document that bears the name. -/
def NameDist (docs : List Przystanek) (dist : Przystanek → δ) (name : String) (d : δ) : Prop :=
  IsLeast {x | ∃ doc ∈ docs, doc.name = name ∧ dist doc = x} d

theorem nameDist_iff {name : String} {d : δ} : NameDist docs dist name d ↔
    ∃ p ∈ docs, p.name = name ∧ dist p = d ∧ ∀ q ∈ docs, q.name = name → dist p ≤ dist q := by
  constructor
  · rintro ⟨⟨p, hp, hn, rfl⟩, hle⟩
    exact ⟨p, hp, hn, rfl, fun q hq hqn => hle ⟨q, hq, hqn, rfl⟩⟩
  · rintro ⟨p, hp, hn, rfl, hle⟩
    refine ⟨⟨p, hp, hn, rfl⟩, ?_⟩
    rintro _ ⟨q, hq, hqn, rfl⟩
    exact hle q hq hqn

theorem nameDist_self (hnames : (docs.map (·.name)).Nodup) {doc : Przystanek} (hdoc : doc ∈ docs) :
    NameDist docs dist doc.name (dist doc) := by
  refine ⟨⟨doc, hdoc, rfl, rfl⟩, ?_⟩
  rintro _ ⟨p, hp, hn, rfl⟩
  rw [List.inj_on_of_nodup_map hnames hp hdoc hn]

theorem exists_nameDist (dist : Przystanek → δ) {doc : Przystanek} (hdoc : doc ∈ docs) :
    ∃ d, NameDist docs dist doc.name d := by
  have hfin : {p | p ∈ docs ∧ p.name = doc.name}.Finite :=
    docs.finite_toSet.subset fun p hp => hp.1
  obtain ⟨p, ⟨hp, hn⟩, hle⟩ := Set.exists_min_image _ dist hfin ⟨doc, hdoc, rfl⟩
  exact ⟨dist p, nameDist_iff.2 ⟨p, hp, hn, rfl, fun q hq hqn => hle q ⟨hq, hqn⟩⟩⟩

/-- The slots hold the nearest names of the snapshot, as many as there are, by distance. -/
structure FourNearest (docs : List Przystanek) (dist : Przystanek → δ) (id : Fin 4 → String) :
    Prop where
  listed : ∀ i : Fin 4, i < nameCount docs → ∃ doc ∈ docs, doc.name = id i
  distinct : ∀ i j : Fin 4, i < nameCount docs → j < nameCount docs → id i = id j → i = j
  sorted : ∀ i j : Fin 4, i < j → j < nameCount docs → ∀ d e, NameDist docs dist (id i) d →
    NameDist docs dist (id j) e → d ≤ e
  rest : ∀ i : Fin 4, nameCount docs ≤ i → id i = ""
  nearest : ∀ doc ∈ docs, (∀ i, id i ≠ doc.name) → ∀ i : Fin 4, i < nameCount docs → ∀ d e,
    NameDist docs dist (id i) d → NameDist docs dist doc.name e → d ≤ e

/-- The first name has a document that is no farther than any of the second name. -/
def NoFarther (docs : List Przystanek) (dist : Przystanek → δ) (n n' : String) : Prop :=
  ∀ q ∈ docs, q.name = n' → ∃ p ∈ docs, p.name = n ∧ dist p ≤ dist q

instance (docs : List Przystanek) (dist : Przystanek → δ) : DecidableRel (NoFarther docs dist) :=
  fun _ _ => by unfold NoFarther; infer_instance

theorem NoFarther.le {n n' : String} (h : NoFarther docs dist n n') {d e : δ}
    (hd : NameDist docs dist n d) (he : NameDist docs dist n' e) : d ≤ e := by
  obtain ⟨⟨q, hq, hqn, rfl⟩, -⟩ := he
  obtain ⟨p, hp, hpn, hle⟩ := h q hq hqn
  exact (hd.2 ⟨p, hp, hpn, rfl⟩).trans hle

/-- Names in the order of their distances, none of them farther than another name, are the nearest
if they are as many as there should be. -/
theorem fourNearest_of_names (hnd : names.Nodup) (hlen : names.length = min 4 (nameCount docs))
    (hsub : ∀ n ∈ names, n ∈ docs.map (·.name)) (hsorted : names.Pairwise (NoFarther docs dist))
    (hnear : ∀ n ∈ names, ∀ q ∈ docs, q.name ∉ names → NoFarther docs dist n q.name)
    (hid : ∀ i, id i = (names[i.val]?).getD "") : FourNearest docs dist id := by
  have hlt : ∀ {i : Fin 4}, i < nameCount docs → i < names.length := fun {i} hi => by
    have := i.isLt
    omega
  have hget : ∀ {i : Fin 4} (hi : i < names.length), id i = names[i.val] := fun {i} hi => by
    rw [hid, List.getElem?_eq_getElem hi, Option.getD_some]
  refine ⟨fun i hi => ?_, fun i j hi hj he => ?_, fun i j hij hj d e hd he => ?_,
    fun i hi => ?_, fun doc hdoc hno i hi d e hd he => ?_⟩
  · rw [hget (hlt hi)]
    exact List.mem_map.1 (hsub _ (List.getElem_mem _))
  · rw [hget (hlt hi), hget (hlt hj), hnd.getElem_inj_iff] at he
    exact Fin.ext he
  · have hi : i < nameCount docs := lt_trans (Fin.lt_def.1 hij) hj
    rw [hget (hlt hi)] at hd
    rw [hget (hlt hj)] at he
    exact (List.pairwise_iff_getElem.1 hsorted _ _ _ _ (Fin.lt_def.1 hij)).le hd he
  · rw [hid, List.getElem?_eq_none (by omega), Option.getD_none]
  · rw [hget (hlt hi)] at hd
    refine (hnear _ (List.getElem_mem _) doc hdoc fun hmem => ?_).le hd he
    obtain ⟨m, hm, hmn⟩ := List.mem_iff_getElem.1 hmem
    exact hno ⟨m, by omega⟩ ((hget hm).trans hmn)

/-- The names listed. -/
def firstNames (docs : List Przystanek) (id : Fin 4 → String) : List String :=
  (List.ofFn id).take (nameCount docs)

theorem length_firstNames : (firstNames docs id).length = min 4 (nameCount docs) := by
  rw [firstNames, List.length_take, List.length_ofFn, min_comm]

theorem getElem_firstNames {i : ℕ} (hi : i < (firstNames docs id).length) :
    (firstNames docs id)[i] = id ⟨i, by rw [length_firstNames] at hi; omega⟩ := by
  simp only [firstNames, List.getElem_take, List.getElem_ofFn]

theorem getElem?_firstNames {i : Fin 4} (hi : i < nameCount docs) :
    (firstNames docs id)[i.val]? = some (id i) := by
  have hlt : i.val < (firstNames docs id).length := by
    rw [length_firstNames]
    exact lt_min i.isLt hi
  rw [List.getElem?_eq_getElem hlt, getElem_firstNames]

theorem mem_take_firstNames {c : ℕ} {n : String} : n ∈ (firstNames docs id).take c ↔
    ∃ i : Fin 4, i < c ∧ i < nameCount docs ∧ id i = n := by
  rw [List.mem_take_iff_getElem]
  constructor
  · rintro ⟨i, hi, rfl⟩
    rw [length_firstNames] at hi
    exact ⟨⟨i, by omega⟩, by simp only; omega, by simp only; omega, (getElem_firstNames _).symm⟩
  · rintro ⟨i, hc, hk, rfl⟩
    refine ⟨i, ?_, getElem_firstNames _⟩
    rw [length_firstNames]
    omega

theorem mem_drop_firstNames {c : ℕ} {n : String} : n ∈ (firstNames docs id).drop c ↔
    ∃ i : Fin 4, c ≤ i ∧ i < nameCount docs ∧ id i = n := by
  rw [List.mem_drop_iff_getElem]
  constructor
  · rintro ⟨i, hi, rfl⟩
    rw [length_firstNames] at hi
    exact ⟨⟨c + i, by omega⟩, by simp, by simp only; omega, (getElem_firstNames _).symm⟩
  · rintro ⟨i, hc, hk, rfl⟩
    refine ⟨i - c, ?_, ?_⟩
    · rw [length_firstNames]
      omega
    · simp only [Nat.add_sub_cancel' hc, getElem_firstNames]

namespace FourNearest

theorem nodup (h : FourNearest docs dist id) : (firstNames docs id).Nodup := by
  refine List.nodup_iff_injective_getElem.2 fun i j he => ?_
  have hi := i.isLt.trans_eq length_firstNames
  have hj := j.isLt.trans_eq length_firstNames
  simp only [getElem_firstNames] at he
  exact Fin.ext (Fin.mk.inj_iff.1 (h.distinct _ _ (by simp only; omega) (by simp only; omega) he))

theorem pairwise (h : FourNearest docs dist id) :
    (firstNames docs id).Pairwise (NoFarther docs dist) := by
  refine List.pairwise_iff_getElem.2 fun i j hi hj hij q hq hqn => ?_
  rw [getElem_firstNames] at hqn ⊢
  rw [length_firstNames] at hi hj
  obtain ⟨p, hp, hpn⟩ := h.listed ⟨i, by omega⟩ (by simp only; omega)
  obtain ⟨d, hd⟩ := exists_nameDist dist hp
  obtain ⟨e, he⟩ := exists_nameDist dist hq
  have hle := h.sorted ⟨i, by omega⟩ ⟨j, by omega⟩ hij (by simp only; omega) d e (hpn ▸ hd)
    (hqn ▸ he)
  obtain ⟨p', hp', hpn', rfl, -⟩ := nameDist_iff.1 hd
  exact ⟨p', hp', hpn'.trans hpn, hle.trans (he.2 ⟨q, hq, rfl, rfl⟩)⟩

/-- Only the order of the distances matters. -/
theorem congr {ε : Type*} [LinearOrder ε] [Zero δ] [Zero ε] {dist' : Przystanek → ε}
    (hr : SameRank docs dist dist') (h : FourNearest docs dist id) : FourNearest docs dist' id := by
  have hle : ∀ p ∈ docs, ∀ q ∈ docs, dist p ≤ dist q ↔ dist' p ≤ dist' q := fun p hp q hq => by
    rw [← not_lt, ← not_lt, hr.lt_iff q hq p hp]
  -- a smallest distance is that of a document, for both
  have hback : ∀ {n d}, NameDist docs dist' n d →
      ∃ p ∈ docs, d = dist' p ∧ NameDist docs dist n (dist p) := fun hd => by
    obtain ⟨p, hp, hn, rfl, hmin⟩ := nameDist_iff.1 hd
    exact ⟨p, hp, rfl, nameDist_iff.2 ⟨p, hp, hn, rfl, fun q hq hqn =>
      (hle p hp q hq).2 (hmin q hq hqn)⟩⟩
  refine { h with
    sorted := fun i j hij hj d e hd he => ?_
    nearest := fun doc hdoc hno i hi d e hd he => ?_ }
  · obtain ⟨p, hp, rfl, hdp⟩ := hback hd
    obtain ⟨q, hq, rfl, heq⟩ := hback he
    exact (hle p hp q hq).1 (h.sorted i j hij hj _ _ hdp heq)
  · obtain ⟨p, hp, rfl, hdp⟩ := hback hd
    obtain ⟨q, hq, rfl, heq⟩ := hback he
    exact (hle p hp q hq).1 (h.nearest doc hdoc hno i hi _ _ hdp heq)

end FourNearest

variable [Zero δ]

/-! ### Names that come in order are the nearest -/

/-- The names to be listed come one after another, and in the order of their distances. -/
def InOrder (dist : Przystanek → δ) (docs : List Przystanek) : Prop :=
  ∃ names : List String, names.Nodup ∧ names.length = min 4 (nameCount docs) ∧
    ArriveInOrder dist [] names [] [] docs ∧ names.Pairwise (NoFarther docs dist)

/-- **Names that come in order are listed as the nearest.** -/
theorem fourNearest_of_inOrder (hne : ∀ doc ∈ docs, doc.name ≠ "") (h : InOrder dist docs) :
    FourNearest docs dist (nearStops dist .empty docs).id := by
  obtain ⟨names, hnd, hlen, harr, hsorted⟩ := h
  have hsub : ∀ n ∈ names, n ∈ docs.map (·.name) := fun n hn => by
    obtain ⟨t, ht, rfl, -⟩ := harr.exists_arrival hn
    exact List.mem_map_of_mem ht
  have hempty : "" ∉ names := fun hn => by
    obtain ⟨t, ht, htn, -⟩ := harr.exists_arrival hn
    exact hne t ht htn
  have hs := Settled.empty (δ := δ) hnd (hlen.trans_le (min_le_left _ _)) hempty
  refine fourNearest_of_names hnd hlen hsub hsorted (fun n hn q _ hqn p hp hpn => ?_)
    (Fills.id_eq ⟨[], names, [], [], rfl, hs, harr⟩ (.empty _) hlen hsub)
  obtain ⟨t, ht, htn, -, -, hle⟩ := harr.exists_arrival hn
  exact ⟨t, ht, htn, hle p hp (hpn ▸ hqn)⟩

/-- A single name is always listed. -/
theorem fourNearest_of_nameCount_le_one (hne : ∀ doc ∈ docs, doc.name ≠ "")
    (h : nameCount docs ≤ 1) : FourNearest docs dist (nearStops dist .empty docs).id := by
  cases docs with
  | nil =>
    exact ⟨fun _ h => absurd h (Nat.not_lt_zero _), fun _ _ h => absurd h (Nat.not_lt_zero _),
      fun _ _ _ h => absurd h (Nat.not_lt_zero _), fun _ _ => rfl, nofun⟩
  | cons doc docs =>
    have hname : ∀ p ∈ doc :: docs, p.name = doc.name := fun p hp => by
      have hmem : ∀ q ∈ doc :: docs, q.name ∈ ((doc :: docs).map (·.name)).dedup := fun q hq =>
        List.mem_dedup.2 (List.mem_map_of_mem hq)
      obtain ⟨n, hn⟩ : ∃ n, ((doc :: docs).map (·.name)).dedup = [n] :=
        List.length_eq_one_iff.1 (le_antisymm h (List.length_pos_of_mem (hmem p hp)))
      have h1 := hmem p hp
      have h2 := hmem doc List.mem_cons_self
      rw [hn, List.mem_singleton] at h1 h2
      exact h1.trans h2.symm
    rw [nearStops_id_of_one_name fun p hp => hname p (List.mem_cons_of_mem _ hp)]
    have hzero : ∀ i : Fin 4, i < nameCount (doc :: docs) → i = 0 := fun i hi => by
      have := hi.trans_le h
      exact Fin.ext (by omega)
    refine ⟨fun i hi => ?_, fun i j hi hj _ => ?_, fun i j hij hj => ?_, fun i hi => ?_,
      fun p hp hno => ?_⟩
    · rw [hzero i hi]
      exact ⟨doc, List.mem_cons_self, rfl⟩
    · rw [hzero i hi, hzero j hj]
    · rw [hzero j hj] at hij
      exact absurd hij (Fin.not_lt_zero i)
    · have hpos : 0 < nameCount (doc :: docs) :=
        List.length_pos_of_mem (List.mem_dedup.2 (List.mem_map_of_mem List.mem_cons_self))
      refine Function.update_of_ne (fun hi0 => ?_) _ _
      subst hi0
      exact absurd hpos (not_lt_of_ge hi)
    · exact absurd (hname p hp).symm (hno 0)

/-- Documents that all bear the same name. -/
theorem nameCount_le_one {n : String} (h : ∀ doc ∈ docs, doc.name = n) : nameCount docs ≤ 1 := by
  have hsub : (docs.map (·.name)).dedup ⊆ [n] := fun m hm => by
    obtain ⟨doc, hdoc, rfl⟩ := List.mem_map.1 (List.mem_dedup.1 hm)
    exact List.mem_singleton.2 (h doc hdoc)
  exact ((List.nodup_dedup _).subperm hsub).length_le

/-! ### No other names are, unless names are written over -/

/-- Where the nearest are listed and no name is written over, they have come in order. -/
theorem inOrder_of_overwritesNone (hne : ∀ doc ∈ docs, doc.name ≠ "")
    (hpos : ∀ doc ∈ docs, 0 ≤ dist doc) (hnone : OverwritesNone dist .empty docs)
    (h : FourNearest docs dist (nearStops dist .empty docs).id) :
    nameCount docs ≤ 1 ∨ InOrder dist docs := by
  rcases arriveInOrder_of_overwritesNone hne hpos hnone with
    ⟨names, h4, hempty, hid, harr⟩ | ⟨n, hn⟩
  · right
    -- the slots with a name are as many as there should be
    have hlen : names.length = min 4 (nameCount docs) := by
      refine le_antisymm (not_lt.1 fun hlt => ?_) (not_lt.1 fun hlt => ?_)
      · have hk : nameCount docs < names.length := by omega
        have hrest := h.rest ⟨nameCount docs, by omega⟩ le_rfl
        rw [hid, List.getElem?_eq_getElem hk, Option.getD_some] at hrest
        exact hempty (hrest ▸ List.getElem_mem hk)
      · obtain ⟨doc, hdoc, hn⟩ := h.listed ⟨names.length, by omega⟩ (by simp only; omega)
        rw [hid, List.getElem?_eq_none le_rfl, Option.getD_none] at hn
        exact hne doc hdoc hn
    have hnames : firstNames docs (nearStops dist .empty docs).id = names := by
      refine List.ext_getElem (length_firstNames.trans hlen.symm) fun i _ hi => ?_
      rw [getElem_firstNames, hid, List.getElem?_eq_getElem hi, Option.getD_some]
    exact ⟨names, hnames ▸ h.nodup, hlen, harr, hnames ▸ h.pairwise⟩
  · exact .inl (nameCount_le_one hn)

/-- Names are written over, and yet the last documents to find the slots bear the nearest names. -/
def Repaired (dist : Przystanek → δ) (docs : List Przystanek) : Prop :=
  ¬ OverwritesNone dist .empty docs ∧ ∃ names : Fin 4 → String, FourNearest docs dist names ∧
    ∀ i : Fin 4, i < nameCount docs → PutLast dist .empty docs i (names i)

/-- Where each of the names is the last to be put in its slot, no other name is listed. -/
theorem id_eq_of_putLast {names : Fin 4 → String} (h : FourNearest docs dist names)
    (hput : ∀ i : Fin 4, i < nameCount docs → PutLast dist .empty docs i (names i)) :
    (nearStops dist .empty docs).id = names := by
  have hid : ∀ i : Fin 4, i < nameCount docs → (nearStops dist .empty docs).id i = names i :=
    fun i hi => id_nearStops_iff.2 (.inl (hput i hi))
  funext i
  by_cases hi : i < nameCount docs
  · exact hid i hi
  · -- all names stand in front of this slot
    have hrows : (nearStops dist .empty docs).Rows (docs.map (·.name)) :=
      (NearList.Rows.empty _).nearStops fun doc hdoc => List.mem_map_of_mem hdoc
    rw [h.rest i (not_lt.1 hi)]
    refine hrows.id_eq_empty (fun n hn => ?_) (not_lt.1 hi)
    have hlen : (firstNames docs names).length = nameCount docs := by
      rw [length_firstNames]
      omega
    have hmem := mem_of_length_eq_nameCount h.nodup (fun m hm => ?_) hlen hn
    · obtain ⟨j, hj, rfl⟩ := List.mem_iff_getElem.1 hmem
      rw [hlen] at hj
      rw [getElem_firstNames]
      exact ⟨_, hj, hid _ hj⟩
    · obtain ⟨j, hj, rfl⟩ := List.mem_iff_getElem.1 hm
      rw [hlen] at hj
      rw [getElem_firstNames]
      exact List.mem_map.2 (h.listed _ hj)

/-- **When the nearest names are listed.** -/
theorem fourNearest_iff (hne : ∀ doc ∈ docs, doc.name ≠ "") (hpos : ∀ doc ∈ docs, 0 ≤ dist doc) :
    FourNearest docs dist (nearStops dist .empty docs).id ↔
      nameCount docs ≤ 1 ∨ InOrder dist docs ∨ Repaired dist docs := by
  constructor
  · intro h
    by_cases hnone : OverwritesNone dist .empty docs
    · exact (inOrder_of_overwritesNone hne hpos hnone h).imp_right .inl
    · refine .inr (.inr ⟨hnone, _, h, fun i hi => (id_nearStops_iff.1 rfl).resolve_right ?_⟩)
      rintro ⟨hold, -⟩
      obtain ⟨doc, hdoc, hn⟩ := h.listed i hi
      exact hne doc hdoc (hn.trans hold.symm)
  · rintro (hk | hord | ⟨-, names, h, hput⟩)
    · exact fourNearest_of_nameCount_le_one hne hk
    · exact fourNearest_of_inOrder hne hord
    · rwa [id_eq_of_putLast h hput]

/-! ### Where nothing repeats -/

/-- The non-zero entries of `od` are distances of different documents seen. -/
structure SeenDistances (seen : List Przystanek) (dist : Przystanek → δ) (l : NearList δ) :
    Prop where
  od : ∀ i, l.od i = 0 ∨ ∃ p ∈ seen, l.od i = dist p
  od_injective : ∀ i j, l.od i ≠ 0 → l.od i = l.od j → i = j
  id : ∀ i, l.id i = "" ∨ ∃ p ∈ seen, l.id i = p.name

/-- A document at a new distance. -/
theorem SeenDistances.nearStop {seen : List Przystanek} {l : NearList δ} {doc : Przystanek}
    (h : SeenDistances seen dist l) (hdoc : ∀ p ∈ seen, dist p ≠ dist doc) :
    SeenDistances (seen ++ [doc]) dist (l.nearStop doc.name (dist doc)) := by
  -- the new distance is none of those that stand in `od`
  have hnew : ∀ i, l.od i ≠ 0 → l.od i ≠ dist doc := fun i h0 he => by
    obtain ⟨p, hp, hpe⟩ := (h.od i).resolve_left h0
    exact hdoc p hp (hpe.symm.trans he)
  have h' : SeenDistances (seen ++ [doc]) dist l :=
    ⟨fun i => (h.od i).imp_right fun ⟨p, hp, he⟩ => ⟨p, List.mem_append_left _ hp, he⟩,
      h.od_injective,
      fun i => (h.id i).imp_right fun ⟨p, hp, he⟩ => ⟨p, List.mem_append_left _ hp, he⟩⟩
  refine NearList.nearStop_invariant h' fun i _ _ => ⟨fun j => ?_, ?_, fun j => ?_⟩
  · by_cases hj : j = i
    · subst hj
      exact .inr ⟨doc, by simp, NearList.insertAt_od_self⟩
    · rw [NearList.insertAt_od_of_ne hj]
      exact h'.od _
  · intro j j' h0 he
    by_cases hj : j = i
    · by_cases hj' : j' = i
      · exact hj.trans hj'.symm
      · subst hj
        rw [NearList.insertAt_od_self] at h0 he
        rw [NearList.insertAt_od_of_ne hj'] at he
        exact absurd he.symm (hnew _ (he ▸ h0))
    · by_cases hj' : j' = i
      · subst hj'
        rw [NearList.insertAt_od_of_ne hj] at h0 he
        rw [NearList.insertAt_od_self] at he
        exact absurd he (hnew _ h0)
      · rw [NearList.insertAt_od_of_ne hj] at h0 he
        rw [NearList.insertAt_od_of_ne hj'] at he
        exact NearList.source_injective i j j' hj hj' (h.od_injective _ _ h0 he)
  · by_cases hj : j = i
    · subst hj
      exact .inr ⟨doc, by simp, NearList.insertAt_id_self⟩
    · rw [NearList.insertAt_id_of_ne hj]
      exact h'.id _

theorem seenDistances_nearStops (hinj : ∀ p ∈ docs, ∀ q ∈ docs, dist p = dist q → p = q)
    (hnd : docs.Nodup) : SeenDistances docs dist (nearStops dist .empty docs) := by
  induction docs using List.reverseRecOn with
  | nil => exact ⟨fun _ => .inl rfl, fun _ _ h => absurd rfl h, fun _ => .inl rfl⟩
  | append_singleton docs doc ih =>
    have h := ih
      (fun p hp q hq => hinj p (List.mem_append_left _ hp) q (List.mem_append_left _ hq))
      (hnd.sublist (List.sublist_append_left _ _))
    rw [nearStops_append, nearStops_cons, nearStops_nil]
    refine h.nearStop fun p hp he => ?_
    have hpd := hinj p (List.mem_append_left _ hp) doc (by simp) he
    exact (List.nodup_append.1 hnd).2.2 p hp doc (by simp) hpd

/-- A name does not move: it is listed at the slot that took its document. -/
theorem slot_of_listed {pre post : List Przystanek} {t : Przystanek} {i : Fin 4}
    (hnd : ((pre ++ t :: post).map (·.name)).Nodup) (hne : t.name ≠ "")
    (htr : SeenDistances pre dist (nearStops dist .empty pre))
    (hi : (nearStops dist .empty (pre ++ t :: post)).id i = t.name) :
    (nearStops dist .empty pre).slot (dist t) = some i := by
  rw [List.map_append, List.map_cons, List.nodup_append] at hnd
  obtain ⟨-, hpost, hpre⟩ := hnd
  have hpre' : ∀ p ∈ pre, p.name ≠ t.name := fun p hp =>
    hpre _ (List.mem_map_of_mem hp) _ List.mem_cons_self
  have hpost' : ∀ p ∈ post, p.name ≠ t.name := fun p hp he =>
    (List.nodup_cons.1 hpost).1 (he ▸ List.mem_map_of_mem hp)
  rw [nearStops_append, nearStops_cons] at hi
  have hi' := id_of_nearStops hpost' hi
  have hold : (nearStops dist .empty pre).id i ≠ t.name := fun h => by
    rcases htr.id i with h0 | ⟨p, hp, he⟩
    · exact hne (h ▸ h0)
    · exact hpre' p hp (he ▸ h)
  rcases NearList.nearStop_cases (nearStops dist .empty pre) t.name (dist t) with
    ⟨he, -⟩ | ⟨j, -, hs, he⟩
  · rw [he] at hi'
    exact absurd hi' hold
  · rw [he] at hi'
    by_cases hij : i = j
    · rwa [hij]
    · rw [NearList.insertAt_id_of_ne hij] at hi'
      exact absurd hi' hold

section Necessity

variable (hnames : (docs.map (·.name)).Nodup) (hne : ∀ doc ∈ docs, doc.name ≠ "")
  (hinj : ∀ p ∈ docs, ∀ q ∈ docs, dist p = dist q → p = q)
  (h : FourNearest docs dist (nearStops dist .empty docs).id)

include hnames hne hinj h

/-- The stop at a slot is nearer than those of no earlier slot. -/
theorem dist_lt_of_fourNearest {i : Fin 4} (hi : i < nameCount docs) {t doc : Przystanek}
    (ht : t ∈ docs) (hti : (nearStops dist .empty docs).id i = t.name) (hdoc : doc ∈ docs)
    (hno : ∀ j ≤ i, (nearStops dist .empty docs).id j ≠ doc.name) : dist t < dist doc := by
  have hle : dist t ≤ dist doc := by
    by_cases hex : ∃ j, (nearStops dist .empty docs).id j = doc.name
    · obtain ⟨j, hj⟩ := hex
      have hij : i < j := not_le.1 fun hji => hno j hji hj
      have hjk : j < nameCount docs := not_le.1 fun hkj =>
        hne doc hdoc (hj.symm.trans (h.rest j hkj))
      exact h.sorted i j hij hjk _ _ (hti ▸ nameDist_self hnames ht)
        (hj ▸ nameDist_self hnames hdoc)
    · exact h.nearest doc hdoc (fun j hj => hex ⟨j, hj⟩) i hi _ _
        (hti ▸ nameDist_self hnames ht) (nameDist_self hnames hdoc)
  refine lt_of_le_of_ne hle fun he => hno i le_rfl ?_
  rw [hti, hinj t ht doc hdoc he]

/-- When the stop of a slot comes, those of all earlier slots have come, none at distance zero: as
many non-zero distances stand in front of the slot, and they are smaller. -/
theorem exists_before_of_fourNearest {i : Fin 4} (hi : i < nameCount docs)
    {pre post : List Przystanek} {t : Przystanek} (hdocs : docs = pre ++ t :: post)
    (hti : (nearStops dist .empty docs).id i = t.name) {j : Fin 4} (hj : j < i) :
    ∃ p ∈ pre, (nearStops dist .empty docs).id j = p.name ∧ dist p ≠ 0 := by
  have hsub : ∀ p ∈ pre, p ∈ docs := fun p hp => hdocs ▸ List.mem_append_left _ hp
  have ht : t ∈ docs := hdocs ▸ by simp
  have hnd : docs.Nodup := .of_map _ hnames
  have htr : SeenDistances pre dist (nearStops dist .empty pre) :=
    seenDistances_nearStops (fun p hp q hq => hinj p (hsub p hp) q (hsub q hq))
      (hnd.sublist (hdocs ▸ List.sublist_append_left _ _))
  have hs : (nearStops dist .empty pre).slot (dist t) = some i :=
    slot_of_listed (hdocs ▸ hnames) (hne t ht) htr (hdocs ▸ hti)
  have hfree := (NearList.slot_eq_some.1 hs).2
  -- the distance at a slot in front is that of the stop of such a slot
  have hslot : ∀ a : Fin i.val, ∃ b : Fin i.val, ∃ p ∈ pre,
      (nearStops dist .empty docs).id ⟨b, b.isLt.trans i.isLt⟩ = p.name ∧ dist p ≠ 0 ∧
        (nearStops dist .empty pre).od ⟨a, a.isLt.trans i.isLt⟩ = dist p := by
    intro a
    have hnot := hfree ⟨a, a.isLt.trans i.isLt⟩ (Fin.lt_def.2 a.isLt)
    unfold NearList.Takes at hnot
    rw [not_or, not_lt] at hnot
    obtain ⟨p, hp, he⟩ := (htr.od _).resolve_left hnot.2
    have hpt : p ≠ t := fun hpt => by
      rw [hdocs] at hnd
      exact (List.nodup_append.1 hnd).2.2 p hp t List.mem_cons_self hpt
    have hlt : dist p < dist t :=
      lt_of_le_of_ne (he ▸ hnot.1) fun he' => hpt (hinj p (hsub p hp) t ht he')
    by_contra hcon
    refine absurd (dist_lt_of_fourNearest hnames hne hinj h hi ht hti (hsub p hp) ?_)
      (not_lt_of_gt hlt)
    intro b hb hbp
    rcases lt_or_eq_of_le hb with hb | rfl
    · exact hcon ⟨⟨b, hb⟩, p, hp, hbp, he ▸ hnot.2, he⟩
    · exact hpt (List.inj_on_of_nodup_map hnames (hsub p hp) ht (hbp.symm.trans hti))
  choose f g hg hid hzero hod using hslot
  have hf : Function.Injective f := fun a a' haa => by
    have hn : (g a).name = (g a').name := by
      rw [← hid a, ← hid a', haa]
    have hgg := List.inj_on_of_nodup_map hnames (hsub _ (hg a)) (hsub _ (hg a')) hn
    have := htr.od_injective _ _ (hod a ▸ hzero a) ((hod a).trans (hgg ▸ (hod a').symm))
    exact Fin.ext (Fin.mk.inj this)
  obtain ⟨a, ha⟩ := Finite.injective_iff_surjective.1 hf ⟨j, hj⟩
  refine ⟨g a, hg a, ?_, hzero a⟩
  rw [← hid a, ha]

/-- The names of the slots come in order. -/
theorem arriveInOrder_from (hzero : ∀ i : Fin 4, i < nameCount docs → ∀ t ∈ docs,
      (nearStops dist .empty docs).id i = t.name → dist t ≠ 0) {before rest : List Przystanek}
    (hdocs : docs = before ++ rest) {c : ℕ} {near far : List δ}
    (hlate : ∀ i : Fin 4, c ≤ i → i < nameCount docs → ∀ p ∈ before,
      (nearStops dist .empty docs).id i ≠ p.name)
    (hnear : ∀ d ∈ near, ∃ p ∈ docs, dist p = d ∧ ∃ i : Fin 4, i < c ∧ i < nameCount docs ∧
      (nearStops dist .empty docs).id i = p.name)
    (hfar : ∀ d ∈ far, ∃ p ∈ docs, dist p = d ∧ ∀ i : Fin 4, i < nameCount docs →
      (nearStops dist .empty docs).id i ≠ p.name) :
    ArriveInOrder dist ((firstNames docs (nearStops dist .empty docs).id).take c)
      ((firstNames docs (nearStops dist .empty docs).id).drop c) near far rest := by
  induction rest generalizing before c near far with
  | nil =>
    have hnil : (firstNames docs (nearStops dist .empty docs).id).drop c = [] := by
      refine List.eq_nil_iff_forall_not_mem.2 fun n hn => ?_
      obtain ⟨i, hci, hik, rfl⟩ := mem_drop_firstNames.1 hn
      obtain ⟨p, hp, hpi⟩ := h.listed i hik
      rw [List.append_nil] at hdocs
      exact hlate i hci hik p (hdocs ▸ hp) hpi.symm
    rw [hnil]
    exact .done _ _ _
  | cons doc rest ih =>
    have hdoc : doc ∈ docs := hdocs ▸ by simp
    have hdocs' : docs = (before ++ [doc]) ++ rest := by rw [hdocs, List.append_assoc]; rfl
    -- a slot behind those listed whose stop does not come now comes later
    have hlate' : ∀ {c'}, c ≤ c' → (∀ i : Fin 4, c' ≤ i → i < nameCount docs →
        (nearStops dist .empty docs).id i ≠ doc.name) →
        ∀ i : Fin 4, c' ≤ i → i < nameCount docs → ∀ p ∈ before ++ [doc],
          (nearStops dist .empty docs).id i ≠ p.name := fun hcc hno i hi hik p hp => by
      rcases List.mem_append.1 hp with hp | hp
      · exact hlate i (hcc.trans hi) hik p hp
      · exact List.mem_singleton.1 hp ▸ hno i hi hik
    by_cases hlisted : ∃ j : Fin 4, j < c ∧ j < nameCount docs ∧
        (nearStops dist .empty docs).id j = doc.name
    · refine .skip (mem_take_firstNames.2 hlisted) (ih hdocs' (hlate' le_rfl ?_) hnear hfar)
      obtain ⟨j, hjc, hjk, hj⟩ := hlisted
      intro i hi hik he
      have := h.distinct i j hik hjk (he.trans hj.symm)
      omega
    · have hnew : doc.name ∉ (firstNames docs (nearStops dist .empty docs).id).take c := fun hmem =>
        hlisted (mem_take_firstNames.1 hmem)
      have hnear' : ∀ d ∈ near, d ≤ dist doc := fun d hd => by
        obtain ⟨p, hp, rfl, i, hic, hik, hi⟩ := hnear d hd
        refine (dist_lt_of_fourNearest hnames hne hinj h hik hp hi hdoc fun j hj hjd => ?_).le
        exact hlisted ⟨j, lt_of_le_of_lt (Fin.le_def.1 hj) hic,
          lt_of_le_of_lt (Fin.le_def.1 hj) hik, hjd⟩
      by_cases htodo : ∃ i : Fin 4, c ≤ i ∧ i < nameCount docs ∧
          (nearStops dist .empty docs).id i = doc.name
      · obtain ⟨i, hci, hik, hi⟩ := htodo
        -- the stops of the slots in front have come before
        obtain rfl : c = i := by
          refine hci.eq_of_not_lt fun hlt => ?_
          have hck : c < nameCount docs := hlt.trans hik
          obtain ⟨p, hp, hpc, -⟩ := exists_before_of_fourNearest hnames hne hinj h hik hdocs hi
            (j := ⟨c, hlt.trans i.isLt⟩) (Fin.lt_def.2 hlt)
          exact hlate _ le_rfl hck p hp hpc
        have hsplit : (firstNames docs (nearStops dist .empty docs).id).drop i =
            doc.name :: (firstNames docs (nearStops dist .empty docs).id).drop (i + 1) := by
          rw [← hi, List.drop_eq_getElem_cons (by rw [length_firstNames]; omega),
            getElem_firstNames]
        have htake : (firstNames docs (nearStops dist .empty docs).id).take i ++ [doc.name] =
            (firstNames docs (nearStops dist .empty docs).id).take (i + 1) := by
          rw [List.take_add_one, getElem?_firstNames hik, hi]
          rfl
        rw [hsplit]
        refine .come hnew hnear' (fun d hd => ?_) (hzero i hik doc hdoc hi) (htake ▸ ih hdocs'
          (hlate' (Nat.le_succ _) fun j hj hjk he => ?_) (fun d hd => ?_) hfar)
        · obtain ⟨p, hp, rfl, hno⟩ := hfar d hd
          exact dist_lt_of_fourNearest hnames hne hinj h hik hdoc hi hp fun j hj =>
            hno j (lt_of_le_of_lt (Fin.le_def.1 hj) hik)
        · have := h.distinct j i hjk hik (he.trans hi.symm)
          omega
        · rcases List.mem_append.1 hd with hd | hd
          · obtain ⟨p, hp, hpd, j, hji, hj⟩ := hnear d hd
            exact ⟨p, hp, hpd, j, hji.trans (Nat.lt_succ_self _), hj⟩
          · exact ⟨doc, hdoc, (List.mem_singleton.1 hd).symm, i, Nat.lt_succ_self _, hik, hi⟩
      · have hno : ∀ i : Fin 4, c ≤ i → i < nameCount docs →
            (nearStops dist .empty docs).id i ≠ doc.name := fun i hi hik he =>
          htodo ⟨i, hi, hik, he⟩
        refine .pass hnew (fun hmem => htodo (mem_drop_firstNames.1 hmem)) hnear'
          (ih hdocs' (hlate' le_rfl hno) hnear fun d hd => ?_)
        rcases List.mem_cons.1 hd with rfl | hd
        · refine ⟨doc, hdoc, rfl, fun i hik he => ?_⟩
          rcases Nat.lt_or_ge i.val c with hic | hci
          · exact hlisted ⟨i, hic, hik, he⟩
          · exact hno i hci hik he
        · exact hfar d hd

/-- **Where no name and no distance occurs twice, the nearest names must come in order.** -/
theorem inOrder_of_fourNearest (hpos : ∀ doc ∈ docs, 0 ≤ dist doc) :
    nameCount docs ≤ 1 ∨ InOrder dist docs := by
  refine (Nat.lt_or_ge 1 (nameCount docs)).symm.imp id fun hk => ?_
  refine ⟨_, h.nodup, length_firstNames, ?_, h.pairwise⟩
  refine arriveInOrder_from hnames hne hinj h (fun i hi t ht hti h0 => ?_) (c := 0)
    (List.nil_append docs).symm nofun nofun nofun
  -- the stop of the second slot came later, so the nearest is not at distance zero
  have h1 : (1 : Fin 4).val < nameCount docs := hk
  obtain ⟨t1, ht1, ht1i⟩ := h.listed 1 h1
  obtain ⟨pre, post, hdocs⟩ := List.append_of_mem ht1
  obtain ⟨p, hp, hp0, hpz⟩ := exists_before_of_fourNearest hnames hne hinj h h1 hdocs ht1i.symm
    (show (0 : Fin 4) < 1 by decide)
  have hpdocs : p ∈ docs := hdocs ▸ List.mem_append_left _ hp
  by_cases hi0 : i = 0
  · subst hi0
    rw [List.inj_on_of_nodup_map hnames hpdocs ht (hp0.symm.trans hti)] at hpz
    exact hpz h0
  · have hlt := dist_lt_of_fourNearest hnames hne hinj h (i := 0) (by omega) hpdocs hp0 ht
      fun j hj he => ?_
    · exact absurd (h0 ▸ hlt) (not_lt_of_ge (hpos p hpdocs))
    · rw [Fin.le_zero_iff.1 hj] at he
      exact hi0 (h.distinct 0 i (by omega) hi (he.trans hti.symm)).symm

end Necessity

/-! ### The page -/

/-- Two stops north of the position (54.46, 17.03). -/
def dworzec : Przystanek := ⟨"1", 1, "Dworzec", 54.47, 17.03, []⟩

@[inherit_doc dworzec]
def ratusz : Przystanek := ⟨"2", 2, "Ratusz", 54.49, 17.03, []⟩

end MapaZimSlupsk
