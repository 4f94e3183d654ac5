import MapaZimSlupsk.Fold.LastWrite
import MapaZimSlupsk.NearStops.Insert
import Mathlib.Data.List.Dedup

/-!
# Names that are listed one after another

The insertion goes wrong where it writes a name over another one.  It does not where the names to be
listed come one after another, each farther than those listed and nearer than whatever else has
come.

* `ArriveInOrder` : a list of names comes in this order.
* `Settled`, `ArriveInOrder.settled` : **these names are listed**, each in its slot.
* `Fills` : the arrays hold the first of the names, and the others come in order.
* `OverwritesNone`, `arriveInOrder_of_overwritesNone` : **where no name is written over, the names
  listed have come in order**, unless there is one name only.
* `PutLast`, `id_nearStops_iff` : which name stands in a slot, in any case.
-/

namespace MapaZimSlupsk

variable {δ : Type*} [Zero δ] {docs : List Przystanek} {dist : Przystanek → δ}
  {listed todo names : List String} {near far : List δ} {l : NearList δ} {doc : Przystanek}
  {i j : Fin 4}

/-! ### Settled slots -/

/-- The names `listed` stand in the first slots with distances of `near`; the names `todo` stand
nowhere, and the other slots have distance zero or one of `far`. -/
structure Settled (listed todo : List String) (near far : List δ) (l : NearList δ) : Prop where
  length_le : listed.length + todo.length ≤ 4
  nodup : (listed ++ todo).Nodup
  id_eq : ∀ i : Fin 4, i < listed.length → listed[i.val]? = some (l.id i)
  od_mem : ∀ i : Fin 4, i < listed.length → l.od i ∈ near
  near_ne : ∀ d ∈ near, d ≠ 0
  free_id : ∀ j : Fin 4, listed.length ≤ j → l.id j ∉ todo
  free_od : ∀ j : Fin 4, listed.length ≤ j → l.od j = 0 ∨ l.od j ∈ far

namespace Settled

theorem empty (hnd : names.Nodup) (hlen : names.length ≤ 4) (hne : "" ∉ names) :
    Settled [] names [] [] (.empty : NearList δ) where
  length_le := by simpa using hlen
  nodup := hnd
  id_eq _ h := absurd h (Nat.not_lt_zero _)
  od_mem _ h := absurd h (Nat.not_lt_zero _)
  near_ne _ h := absurd h List.not_mem_nil
  free_id _ _ := hne
  free_od _ _ := .inl rfl

theorem id_of_lt (h : Settled listed todo near far l) (hi : i < listed.length) :
    l.id i = listed[i.val] := by
  have := h.id_eq i hi
  rw [List.getElem?_eq_getElem hi] at this
  exact (Option.some.inj this).symm

theorem contains (h : Settled listed todo near far l) {n : String} (hn : n ∈ listed) :
    l.Contains n := by
  obtain ⟨i, hi, rfl⟩ := List.mem_iff_getElem.1 hn
  exact ⟨⟨i, hi.trans_le ((Nat.le_add_right _ _).trans h.length_le)⟩, h.id_of_lt hi⟩

/-- A name that is to come stands in no slot. -/
theorem not_contains {n : String} (h : Settled listed (n :: todo) near far l) :
    ¬ l.Contains n := by
  rintro ⟨j, hj⟩
  by_cases hlt : j.val < listed.length
  · have hmem : n ∈ listed := by
      rw [← hj, h.id_of_lt hlt]
      exact List.getElem_mem hlt
    exact (List.nodup_append.1 h.nodup).2.2 _ hmem _ List.mem_cons_self rfl
  · exact h.free_id j (not_lt.1 hlt) (hj ▸ List.mem_cons_self)

/-! An insertion behind the settled slots leaves them as they are, and whatever else it moves. -/

section Insertion

variable {name : String} {d : δ} (h : Settled listed todo near far l) (hi : listed.length ≤ i)

include h hi

theorem id_insertAt (hj : j < listed.length) :
    listed[j.val]? = some ((l.insertAt i name d).id j) := by
  rw [NearList.insertAt_id_of_ne (Fin.ne_of_lt (hj.trans_le hi))]
  exact h.id_eq j hj

theorem od_insertAt (hj : j < listed.length) : (l.insertAt i name d).od j ∈ near := by
  rw [NearList.insertAt_od_of_lt (Fin.lt_def.2 (hj.trans_le hi))]
  exact h.od_mem j hj

theorem free_od_insertAt (hj : listed.length ≤ j) (hji : j ≠ i) :
    (l.insertAt i name d).od j = 0 ∨ (l.insertAt i name d).od j ∈ far := by
  rw [NearList.insertAt_od_of_ne hji]
  exact h.free_od _
    (Fin.le_def.1 (NearList.le_source (m := ⟨listed.length, hi.trans_lt i.isLt⟩) i j hi hj))

end Insertion

variable [LinearOrder δ]

/-- The settled slots do not take what is no nearer. -/
theorem not_takes (h : Settled listed todo near far l) {d : δ} (hnear : ∀ e ∈ near, e ≤ d)
    (hi : i < listed.length) : ¬ l.Takes d i := by
  rintro (hlt | h0)
  · exact absurd hlt (not_lt_of_ge (hnear _ (h.od_mem i hi)))
  · exact h.near_ne _ (h.od_mem i hi) h0

/-- A document that is not to be listed leaves the settled slots as they are. -/
theorem pass (h : Settled listed todo near far l) (htodo : doc.name ∉ todo)
    (hnear : ∀ d ∈ near, d ≤ dist doc) :
    Settled listed todo near (dist doc :: far) (l.nearStop doc.name (dist doc)) := by
  have h' : Settled listed todo near (dist doc :: far) l :=
    { h with free_od := fun j hj => (h.free_od j hj).imp_right (List.mem_cons_of_mem _) }
  refine NearList.nearStop_invariant h' fun i _ hs => ?_
  have hi : listed.length ≤ i := not_lt.1 fun hlt =>
    h.not_takes hnear hlt (NearList.slot_eq_some.1 hs).1
  refine ⟨h.length_le, h.nodup, fun j => h'.id_insertAt hi, fun j => h'.od_insertAt hi, h.near_ne,
    fun j hj => ?_, fun j hj => ?_⟩
  · by_cases hji : j = i
    · rwa [hji, NearList.insertAt_id_self]
    · rw [NearList.insertAt_id_of_ne hji]
      exact h.free_id j hj
  · by_cases hji : j = i
    · rw [hji, NearList.insertAt_od_self]
      exact .inr List.mem_cons_self
    · exact h'.free_od_insertAt hi hj hji

/-- The next name settles in the first slot that is not settled. -/
theorem come (h : Settled listed (doc.name :: todo) near far l) (hnear : ∀ d ∈ near, d ≤ dist doc)
    (hfar : ∀ d ∈ far, dist doc < d) (hzero : dist doc ≠ 0) :
    Settled (listed ++ [doc.name]) todo (near ++ [dist doc]) far
      (l.nearStop doc.name (dist doc)) := by
  have hle := h.length_le
  rw [List.length_cons] at hle
  have hlen : listed.length < 4 := by omega
  let c : Fin 4 := ⟨listed.length, hlen⟩
  have hs : l.slot (dist doc) = some c :=
    NearList.slot_eq_some.2 ⟨(h.free_od c le_rfl).symm.imp (hfar _) id,
      fun j hj => h.not_takes hnear (Fin.lt_def.1 hj)⟩
  rw [NearList.nearStop_of_slot h.not_contains hs]
  have hlen' : (listed ++ [doc.name]).length = listed.length + 1 := by simp
  -- a slot is settled already or the new one, or it is behind that
  have hcases : ∀ j : Fin 4, j < (listed ++ [doc.name]).length → j < listed.length ∨ j = c := by
    intro j hj
    rw [hlen'] at hj
    exact (Nat.lt_succ_iff_lt_or_eq.1 hj).imp_right Fin.ext
  have hbehind : ∀ j : Fin 4, (listed ++ [doc.name]).length ≤ j → listed.length ≤ j ∧ j ≠ c := by
    intro j hj
    rw [hlen'] at hj
    exact ⟨(Nat.le_succ _).trans hj, Fin.ne_of_gt hj⟩
  refine ⟨by omega, by rw [List.append_assoc]; exact h.nodup, fun j hj => ?_, fun j hj => ?_,
    fun d hd => ?_, fun j hj hmem => ?_, fun j hj => ?_⟩
  · rcases hcases j hj with hlt | rfl
    · rw [List.getElem?_append_left hlt]
      exact h.id_insertAt (i := c) le_rfl hlt
    · rw [NearList.insertAt_id_self]
      simp [c]
  · rcases hcases j hj with hlt | rfl
    · exact List.mem_append_left _ (h.od_insertAt (i := c) le_rfl hlt)
    · rw [NearList.insertAt_od_self]
      simp
  · rcases List.mem_append.1 hd with hd | hd
    · exact h.near_ne d hd
    · rwa [List.mem_singleton.1 hd]
  · obtain ⟨hj', hjc⟩ := hbehind j hj
    rw [NearList.insertAt_id_of_ne hjc] at hmem
    exact h.free_id j hj' (List.mem_cons_of_mem _ hmem)
  · obtain ⟨hj', hjc⟩ := hbehind j hj
    exact h.free_od_insertAt (i := c) le_rfl hj' hjc

end Settled

/-! ### Names that come in order -/

variable [LinearOrder δ]

/-- The names `todo` come one after another, while `listed` have come at the distances `near`, and
documents of no such name at the distances `far`.  A document with a name that is listed is passed
over.  Every other one is no nearer than those listed; one that is to be listed is not at distance
zero and nearer than the documents passed that are not listed. -/
inductive ArriveInOrder (dist : Przystanek → δ) :
    List String → List String → List δ → List δ → List Przystanek → Prop
  | done (listed : List String) (near far : List δ) : ArriveInOrder dist listed [] near far []
  | skip {listed todo : List String} {near far : List δ} {doc : Przystanek} {docs : List Przystanek}
      (hlisted : doc.name ∈ listed) (h : ArriveInOrder dist listed todo near far docs) :
      ArriveInOrder dist listed todo near far (doc :: docs)
  | come {listed todo : List String} {near far : List δ} {doc : Przystanek} {docs : List Przystanek}
      (hnew : doc.name ∉ listed) (hnear : ∀ d ∈ near, d ≤ dist doc) (hfar : ∀ d ∈ far, dist doc < d)
      (hzero : dist doc ≠ 0)
      (h : ArriveInOrder dist (listed ++ [doc.name]) todo (near ++ [dist doc]) far docs) :
      ArriveInOrder dist listed (doc.name :: todo) near far (doc :: docs)
  | pass {listed todo : List String} {near far : List δ} {doc : Przystanek} {docs : List Przystanek}
      (hnew : doc.name ∉ listed) (htodo : doc.name ∉ todo) (hnear : ∀ d ∈ near, d ≤ dist doc)
      (h : ArriveInOrder dist listed todo near (dist doc :: far) docs) :
      ArriveInOrder dist listed todo near far (doc :: docs)

namespace ArriveInOrder

theorem nil_iff : ArriveInOrder dist listed todo near far [] ↔ todo = [] :=
  ⟨fun h => by cases h; rfl, fun h => h ▸ .done _ _ _⟩

theorem cons_iff : ArriveInOrder dist listed todo near far (doc :: docs) ↔
    (doc.name ∈ listed ∧ ArriveInOrder dist listed todo near far docs) ∨
      (doc.name ∉ listed ∧ (∀ d ∈ near, d ≤ dist doc) ∧
        ((todo.head? = some doc.name ∧ (∀ d ∈ far, dist doc < d) ∧ dist doc ≠ 0 ∧
            ArriveInOrder dist (listed ++ [doc.name]) todo.tail (near ++ [dist doc]) far docs) ∨
          (doc.name ∉ todo ∧ ArriveInOrder dist listed todo near (dist doc :: far) docs))) := by
  constructor
  · intro h
    cases h with
    | skip hlisted h => exact .inl ⟨hlisted, h⟩
    | come hnew hnear hfar hzero h => exact .inr ⟨hnew, hnear, .inl ⟨rfl, hfar, hzero, h⟩⟩
    | pass hnew htodo hnear h => exact .inr ⟨hnew, hnear, .inr ⟨htodo, h⟩⟩
  · rintro (⟨hlisted, h⟩ | ⟨hnew, hnear, ⟨hhead, hfar, hzero, h⟩ | ⟨htodo, h⟩⟩)
    · exact .skip hlisted h
    · obtain ⟨todo', rfl⟩ := List.head?_eq_some_iff.1 hhead
      exact .come hnew hnear hfar hzero h
    · exact .pass hnew htodo hnear h

instance decidable (dist : Przystanek → δ) : ∀ listed todo near far docs,
    Decidable (ArriveInOrder dist listed todo near far docs)
  | _, _, _, _, [] => decidable_of_iff _ nil_iff.symm
  | listed, todo, near, far, doc :: docs =>
    have := decidable dist listed todo near far docs
    have := decidable dist (listed ++ [doc.name]) todo.tail (near ++ [dist doc]) far docs
    have := decidable dist listed todo near (dist doc :: far) docs
    decidable_of_iff _ cons_iff.symm

/-- What comes and is never listed is no nearer than what is listed. -/
theorem le_of_mem_near (h : ArriveInOrder dist listed todo near far docs) {d : δ} (hd : d ∈ near)
    {q : Przystanek} (hq : q ∈ docs) (hn : q.name ∉ listed ++ todo) : d ≤ dist q := by
  induction h with
  | done => exact absurd hq List.not_mem_nil
  | skip hlisted _ ih =>
    rcases List.mem_cons.1 hq with rfl | hq
    · exact absurd (List.mem_append_left _ hlisted) hn
    · exact ih hd hq hn
  | come _ hnear _ _ _ ih =>
    rcases List.mem_cons.1 hq with rfl | hq
    · exact hnear d hd
    · exact ih (List.mem_append_left _ hd) hq (by rwa [List.append_assoc])
  | pass _ _ hnear _ ih =>
    rcases List.mem_cons.1 hq with rfl | hq
    · exact hnear d hd
    · exact ih hd hq hn

/-- Each of the names comes at a distance no smaller than `near`, smaller than `far`, and no larger
than that of any document whose name is not listed. -/
theorem exists_arrival (h : ArriveInOrder dist listed todo near far docs) {n : String}
    (hn : n ∈ todo) : ∃ t ∈ docs, t.name = n ∧ (∀ d ∈ near, d ≤ dist t) ∧ (∀ d ∈ far, dist t < d) ∧
      ∀ q ∈ docs, q.name ∉ listed ++ todo → dist t ≤ dist q := by
  induction h with
  | done => exact absurd hn List.not_mem_nil
  | skip hlisted _ ih =>
    obtain ⟨t, ht, htn, hnear, hfar, hle⟩ := ih hn
    refine ⟨t, List.mem_cons_of_mem _ ht, htn, hnear, hfar, fun q hq hqn => ?_⟩
    rcases List.mem_cons.1 hq with rfl | hq
    · exact absurd (List.mem_append_left _ hlisted) hqn
    · exact hle q hq hqn
  | @come listed todo near far doc docs _ hnear hfar _ h ih =>
    have hsplit : ∀ {m : String}, m ∉ listed ++ doc.name :: todo →
        m ∉ listed ++ [doc.name] ++ todo := fun hm => by rwa [List.append_assoc]
    have hself : ∀ q : Przystanek, q = doc → q.name ∈ listed ++ doc.name :: todo := by
      rintro q rfl
      simp
    rcases List.mem_cons.1 hn with rfl | hn
    · refine ⟨doc, List.mem_cons_self, rfl, hnear, hfar, fun q hq hqn => ?_⟩
      rcases List.mem_cons.1 hq with hq | hq
      · exact absurd (hself q hq) hqn
      · exact h.le_of_mem_near (by simp) hq (hsplit hqn)
    · obtain ⟨t, ht, htn, hnear', hfar', hle⟩ := ih hn
      refine ⟨t, List.mem_cons_of_mem _ ht, htn,
        fun d hd => hnear' d (List.mem_append_left _ hd), hfar', fun q hq hqn => ?_⟩
      rcases List.mem_cons.1 hq with hq | hq
      · exact absurd (hself q hq) hqn
      · exact hle q hq (hsplit hqn)
  | pass _ _ hnear h ih =>
    obtain ⟨t, ht, htn, hnear', hfar', hle⟩ := ih hn
    refine ⟨t, List.mem_cons_of_mem _ ht, htn, hnear',
      fun d hd => hfar' d (List.mem_cons_of_mem _ hd), fun q hq hqn => ?_⟩
    rcases List.mem_cons.1 hq with rfl | hq
    · exact (hfar' _ List.mem_cons_self).le
    · exact hle q hq hqn

/-- **Names that come in order are listed**, each in its slot. -/
theorem settled (h : ArriveInOrder dist listed todo near far docs)
    (hs : Settled listed todo near far l) :
    ∃ near' far', Settled (listed ++ todo) [] near' far' (nearStops dist l docs) := by
  induction h generalizing l with
  | done listed near far => exact ⟨near, far, by rwa [List.append_nil]⟩
  | skip hlisted _ ih =>
    rw [nearStops_cons, NearList.nearStop_of_contains (hs.contains hlisted)]
    exact ih hs
  | @come listed todo near far doc docs _ hnear hfar hzero _ ih =>
    have := ih (hs.come hnear hfar hzero)
    rwa [List.append_assoc] at this
  | pass _ htodo hnear _ ih => exact ih (hs.pass htodo hnear)

end ArriveInOrder

/-- The number of different names of a snapshot. -/
def nameCount (docs : List Przystanek) : ℕ := (docs.map (·.name)).dedup.length

/-- As many different names as a snapshot has are all of its names. -/
theorem mem_of_length_eq_nameCount (hnd : names.Nodup) (hsub : ∀ n ∈ names, n ∈ docs.map (·.name))
    (hlen : names.length = nameCount docs) {n : String} (hn : n ∈ docs.map (·.name)) :
    n ∈ names := by
  have hsub' : names ⊆ (docs.map (·.name)).dedup := fun m hm => List.mem_dedup.2 (hsub m hm)
  have hperm := (hnd.subperm hsub').perm_of_length_le hlen.ge
  exact hperm.mem_iff.2 (List.mem_dedup.2 hn)

/-- The arrays hold the first of the names, and the others come in order. -/
def Fills (dist : Przystanek → δ) (l : NearList δ) (names : List String)
    (docs : List Przystanek) : Prop :=
  ∃ listed todo near far, names = listed ++ todo ∧ Settled listed todo near far l ∧
    ArriveInOrder dist listed todo near far docs

/-- From the arrays of a new page all of the names come. -/
theorem Fills.mem_of_empty (h : Fills dist .empty names docs) {n : String}
    (hn : n ∈ names) : n ∈ docs.map (·.name) := by
  obtain ⟨listed, todo, near, far, rfl, hs, harr⟩ := h
  cases listed with
  | nil =>
    obtain ⟨t, ht, rfl, -⟩ := harr.exists_arrival hn
    exact List.mem_map_of_mem ht
  | cons m listed => exact absurd rfl (hs.near_ne _ (hs.od_mem 0 (Nat.zero_lt_succ _)))

/-- **What is listed in the end**: these names and no other. -/
theorem Fills.id_eq (h : Fills dist l names docs) (hr : l.Rows (docs.map (·.name)))
    (hlen : names.length = min 4 (nameCount docs)) (hsub : ∀ n ∈ names, n ∈ docs.map (·.name))
    (i : Fin 4) : (nearStops dist l docs).id i = (names[i.val]?).getD "" := by
  obtain ⟨listed, todo, near, far, rfl, hs, harr⟩ := h
  obtain ⟨near', far', hs'⟩ := harr.settled hs
  by_cases hi : i.val < (listed ++ todo).length
  · rw [hs'.id_of_lt hi, List.getElem?_eq_getElem hi, Option.getD_some]
  · rw [List.getElem?_eq_none (not_lt.1 hi), Option.getD_none]
    refine (hr.nearStops fun doc hdoc => List.mem_map_of_mem hdoc).id_eq_empty (fun n hn => ?_)
      (not_lt.1 hi)
    -- fewer than four names are listed, so all are
    have hmem := mem_of_length_eq_nameCount hs.nodup hsub (by omega) hn
    obtain ⟨m, hm, rfl⟩ := List.mem_iff_getElem.1 hmem
    exact ⟨⟨m, by omega⟩, hm, hs'.id_of_lt hm⟩

/-! ### Snapshots that write over no name -/

/-- The document finds a slot with a name in it. -/
def NearList.Overwrites (l : NearList δ) (name : String) (odleglosc : δ) : Prop :=
  ∃ i, l.Finds name odleglosc i ∧ l.id i ≠ ""

instance (l : NearList δ) (name : String) (odleglosc : δ) :
    Decidable (l.Overwrites name odleglosc) := by
  unfold NearList.Overwrites; infer_instance

/-- No document of the snapshot finds a slot with a name in it. -/
def OverwritesNone (dist : Przystanek → δ) (l : NearList δ) (docs : List Przystanek) : Prop :=
  Fold.Never (fun l doc => l.nearStop doc.name (dist doc))
    (fun l doc => l.Overwrites doc.name (dist doc)) l docs

instance (dist : Przystanek → δ) (l : NearList δ) (docs : List Przystanek) :
    Decidable (OverwritesNone dist l docs) := Fold.Never.decidable _ _ _ _

theorem overwritesNone_cons : OverwritesNone dist l (doc :: docs) ↔
    ¬ l.Overwrites doc.name (dist doc) ∧
      OverwritesNone dist (l.nearStop doc.name (dist doc)) docs := Iff.rfl

/-- The arrays hold the names `listed` with the distances `near`, and nothing else. -/
structure Clean (listed : List String) (near : List δ) (l : NearList δ) : Prop where
  length_le : listed.length ≤ 4
  name_ne : "" ∉ listed
  id_eq : ∀ i, l.id i = (listed[i.val]?).getD ""
  od_mem : ∀ i : Fin 4, i < listed.length → l.od i ∈ near
  exists_od : ∀ d ∈ near, ∃ i, l.od i = d
  near_pos : ∀ d ∈ near, 0 < d
  free_od : ∀ j : Fin 4, listed.length ≤ j → l.od j = 0

namespace Clean

theorem empty : Clean [] [] (.empty : NearList δ) where
  length_le := Nat.zero_le _
  name_ne := List.not_mem_nil
  id_eq _ := rfl
  od_mem _ h := absurd h (Nat.not_lt_zero _)
  exists_od _ h := absurd h List.not_mem_nil
  near_pos _ h := absurd h List.not_mem_nil
  free_od _ _ := rfl

theorem id_of_lt (h : Clean listed near l) (hi : i < listed.length) : l.id i = listed[i.val] := by
  rw [h.id_eq, List.getElem?_eq_getElem hi, Option.getD_some]

theorem id_of_le (h : Clean listed near l) (hi : listed.length ≤ i) : l.id i = "" := by
  rw [h.id_eq, List.getElem?_eq_none hi, Option.getD_none]

theorem contains_iff (h : Clean listed near l) {n : String} (hn : n ≠ "") :
    l.Contains n ↔ n ∈ listed := by
  constructor
  · rintro ⟨i, hi⟩
    rcases Nat.lt_or_ge i.val listed.length with hlt | hge
    · rw [h.id_of_lt hlt] at hi
      exact hi ▸ List.getElem_mem hlt
    · exact absurd (hi.symm.trans (h.id_of_le hge)) hn
  · intro hmem
    obtain ⟨m, hm, he⟩ := List.mem_iff_getElem.1 hmem
    exact ⟨⟨m, hm.trans_le h.length_le⟩, (h.id_of_lt hm).trans he⟩

/-- A document that takes no slot in front of the free ones is no nearer than those listed. -/
theorem le_of_not_takes (h : Clean listed near l) {d : δ}
    (hnot : ∀ i : Fin 4, i < listed.length → ¬ l.Takes d i) : ∀ e ∈ near, e ≤ d := by
  intro e he
  obtain ⟨i, rfl⟩ := h.exists_od e he
  refine not_lt.1 fun hlt => hnot i (not_le.1 fun hle => ?_) (.inl hlt)
  exact (h.near_pos _ he).ne' (h.free_od i hle)

/-- Distances that are not positive are none. -/
theorem eq_nil (h : Clean listed near l) (hle : ∀ d ∈ near, d ≤ 0) : listed = [] := by
  cases listed with
  | nil => rfl
  | cons n listed =>
    have hod := h.od_mem 0 (Nat.zero_lt_succ _)
    exact absurd (hle _ hod) (not_le_of_gt (h.near_pos _ hod))

/-- What a document does that writes over no name: nothing if it is listed or all slots are taken,
or else it takes the first free slot. -/
theorem nearStop_cases (h : Clean listed near l) {n : String} {d : δ} (hn : n ≠ "")
    (hfree : ¬ l.Overwrites n d) :
    (n ∈ listed ∧ l.nearStop n d = l) ∨
      (n ∉ listed ∧ (∀ e ∈ near, e ≤ d) ∧
        ((listed.length = 4 ∧ l.nearStop n d = l) ∨
          ∃ i : Fin 4, i.val = listed.length ∧ l.nearStop n d = l.insertAt i n d)) := by
  by_cases hmem : n ∈ listed
  · exact .inl ⟨hmem, NearList.nearStop_of_contains ((h.contains_iff hn).2 hmem)⟩
  · refine .inr ⟨hmem, ?_⟩
    have hnew : ¬ l.Contains n := fun hcon => hmem ((h.contains_iff hn).1 hcon)
    have hfirst : ∀ hlt : listed.length < 4, l.Takes d ⟨listed.length, hlt⟩ := fun _ =>
      .inr (h.free_od _ le_rfl)
    cases hs : l.slot d with
    | none =>
      have hnot := NearList.not_takes_of_slot_eq_none hs
      refine ⟨h.le_of_not_takes fun i _ => hnot i, .inl ⟨?_, ?_⟩⟩
      · exact le_antisymm h.length_le (not_lt.1 fun hlt => hnot _ (hfirst hlt))
      · unfold NearList.nearStop
        rw [if_neg hnew, hs]
    | some i =>
      -- the slot holds no name, so it is free, and no free slot is in front of it
      have hid : l.id i = "" := by_contra fun hid => hfree ⟨i, ⟨hnew, hs⟩, hid⟩
      have hle : listed.length ≤ i := not_lt.1 fun hlt => by
        rw [h.id_of_lt hlt] at hid
        exact h.name_ne (hid ▸ List.getElem_mem hlt)
      have hi : i.val = listed.length := le_antisymm
        (not_lt.1 fun hlt => (NearList.slot_eq_some.1 hs).2 _ hlt (hfirst (hlt.trans i.isLt))) hle
      exact ⟨h.le_of_not_takes fun j hj => (NearList.slot_eq_some.1 hs).2 j (hj.trans_le hle),
        .inr ⟨i, hi, NearList.nearStop_of_slot hnew hs⟩⟩

/-- The next name is written behind those listed. -/
theorem insertAt (h : Clean listed near l) {n : String} {d : δ} (hn : n ≠ "") (hd : 0 < d)
    (hi : i.val = listed.length) : Clean (listed ++ [n]) (near ++ [d]) (l.insertAt i n d) := by
  have hlen : (listed ++ [n]).length = i.val + 1 := by simp [hi]
  have hcases : ∀ j : Fin 4, j < (listed ++ [n]).length → j < listed.length ∨ j = i := by
    intro j hj
    rw [hlen, hi] at hj
    exact (Nat.lt_succ_iff_lt_or_eq.1 hj).imp_right fun he => Fin.ext (he.trans hi.symm)
  have hod : ∀ j : Fin 4, j < listed.length → (l.insertAt i n d).od j = l.od j := fun j hj =>
    NearList.insertAt_od_of_lt (Fin.lt_def.2 (hi ▸ hj))
  refine ⟨by omega, ?_, fun j => ?_, fun j hj => ?_, fun e he => ?_, fun e he => ?_, fun j hj => ?_⟩
  · simpa using ⟨h.name_ne, hn⟩
  · by_cases hji : j = i
    · rw [hji, NearList.insertAt_id_self, hi]
      simp
    · rw [NearList.insertAt_id_of_ne hji, h.id_eq, List.getElem?_append]
      have hne : j.val ≠ i.val := fun he => hji (Fin.ext he)
      split_ifs with hlt
      · rfl
      · rw [List.getElem?_eq_none (not_lt.1 hlt), List.getElem?_eq_none]
        rw [List.length_singleton]
        omega
  · rcases hcases j hj with hlt | rfl
    · rw [hod j hlt]
      exact List.mem_append_left _ (h.od_mem j hlt)
    · rw [NearList.insertAt_od_self]
      simp
  · rcases List.mem_append.1 he with he | he
    · obtain ⟨j, rfl⟩ := h.exists_od e he
      refine ⟨j, hod j (not_le.1 fun hle => ?_)⟩
      exact (h.near_pos _ he).ne' (h.free_od j hle)
    · exact ⟨i, by rw [NearList.insertAt_od_self, List.mem_singleton.1 he]⟩
  · rcases List.mem_append.1 he with he | he
    · exact h.near_pos e he
    · rwa [List.mem_singleton.1 he]
  · have hij : i < j := Fin.lt_def.2 (by omega)
    rw [NearList.insertAt_od_of_ne hij.ne']
    refine h.free_od _ (hi ▸ Fin.le_def.1 (NearList.le_source i j le_rfl hij.le))

end Clean

/-- Where a single name is listed at distance zero, every other name is written over it. -/
theorem name_eq_of_overwritesNone {n : String} (hid : l.id = Function.update (fun _ => "") 0 n)
    (hne : ∀ doc ∈ docs, doc.name ≠ "") (hn : n ≠ "") (hod : l.od 0 = 0)
    (h : OverwritesNone dist l docs) : ∀ doc ∈ docs, doc.name = n := by
  induction docs with
  | nil => exact fun _ hdoc => absurd hdoc List.not_mem_nil
  | cons doc docs ih =>
    have hdoc : doc.name = n := by
      by_contra hdn
      refine h.1 ⟨0, ⟨?_, NearList.slot_eq_some.2 ⟨.inr hod, nofun⟩⟩, ?_⟩
      · rintro ⟨i, hi⟩
        rw [hid] at hi
        by_cases hi0 : i = 0
        · rw [hi0, Function.update_self] at hi
          exact hdn hi.symm
        · rw [Function.update_of_ne hi0] at hi
          exact hne doc List.mem_cons_self hi.symm
      · rwa [hid, Function.update_self]
    have hc : l.Contains doc.name := ⟨0, by rw [hid, Function.update_self, hdoc]⟩
    have htail := (overwritesNone_cons.1 h).2
    rw [NearList.nearStop_of_contains hc] at htail
    exact List.forall_mem_cons.2
      ⟨hdoc, ih (fun d hd => hne d (List.mem_cons_of_mem _ hd)) htail⟩

/-- Where no name is written over, the names that get listed come in order, or all documents bear
the same name. -/
theorem Clean.arriveInOrder (hc : Clean listed near l) (hne : ∀ doc ∈ docs, doc.name ≠ "")
    (hpos : ∀ doc ∈ docs, 0 ≤ dist doc) (h : OverwritesNone dist l docs)
    (hfar : listed.length < 4 → far = []) :
    (∃ todo near', Clean (listed ++ todo) near' (nearStops dist l docs) ∧
      ArriveInOrder dist listed todo near far docs) ∨
    (listed = [] ∧ ∃ n, ∀ doc ∈ docs, doc.name = n) := by
  induction docs generalizing listed near far l with
  | nil => exact .inl ⟨[], near, by rwa [List.append_nil], .done _ _ _⟩
  | cons doc docs ih =>
    obtain ⟨hdocne, hne⟩ := List.forall_mem_cons.1 hne
    obtain ⟨hd, hpos⟩ := List.forall_mem_cons.1 hpos
    obtain ⟨hfree, htail⟩ := overwritesNone_cons.1 h
    rw [nearStops_cons]
    obtain ⟨hmem, he⟩ | ⟨hmem, hnear, ⟨h4, he⟩ | ⟨i, hi, he⟩⟩ := hc.nearStop_cases hdocne hfree
    · rw [he] at htail ⊢
      rcases ih hc hne hpos htail hfar with ⟨todo, near', hc', harr⟩ | ⟨rfl, -⟩
      · exact .inl ⟨todo, near', hc', .skip hmem harr⟩
      · exact absurd hmem List.not_mem_nil
    · rw [he] at htail ⊢
      have hfar' : listed.length < 4 → dist doc :: far = [] := fun hlt => absurd hlt h4.not_lt
      rcases ih hc hne hpos htail hfar' with ⟨todo, near', hc', harr⟩ | ⟨rfl, -⟩
      · have hle := hc'.length_le
        rw [List.length_append] at hle
        obtain rfl : todo = [] := List.length_eq_zero_iff.1 (by omega)
        exact .inl ⟨[], near', hc', .pass hmem List.not_mem_nil hnear harr⟩
      · exact absurd h4 (by decide)
    · rw [he] at htail ⊢
      obtain rfl : far = [] := hfar (hi ▸ i.isLt)
      rcases hd.lt_or_eq with hd | hd
      · rcases ih (hc.insertAt hdocne hd hi) hne hpos htail (fun _ => rfl) with
          ⟨todo, near', hc', harr⟩ | ⟨hnil, -⟩
        · rw [List.append_assoc] at hc'
          exact .inl ⟨doc.name :: todo, near', hc',
            .come hmem hnear (fun _ he => absurd he List.not_mem_nil) hd.ne' harr⟩
        · simp at hnil
      · -- at distance zero it is the first, and no other name can come
        obtain rfl := hc.eq_nil fun e he => hd ▸ hnear e he
        obtain rfl : i = 0 := Fin.ext hi
        refine .inr ⟨rfl, doc.name, List.forall_mem_cons.2 ⟨rfl, ?_⟩⟩
        refine name_eq_of_overwritesNone (l := l.insertAt 0 doc.name (dist doc)) ?_ hne hdocne
          (by rw [NearList.insertAt_od_self, hd]) htail
        have hempty : l.id = fun _ => "" := funext fun j => hc.id_of_le (Nat.zero_le _)
        rw [NearList.insertAt, hempty]

/-- **Where no name is written over, the names listed have come in order**, unless all documents
bear the same name. -/
theorem arriveInOrder_of_overwritesNone (hne : ∀ doc ∈ docs, doc.name ≠ "")
    (hpos : ∀ doc ∈ docs, 0 ≤ dist doc) (h : OverwritesNone dist .empty docs) :
    (∃ names : List String, names.length ≤ 4 ∧ "" ∉ names ∧
      (∀ i, (nearStops dist .empty docs).id i = (names[i.val]?).getD "") ∧
      ArriveInOrder dist [] names [] [] docs) ∨ ∃ n, ∀ doc ∈ docs, doc.name = n := by
  rcases Clean.empty.arriveInOrder hne hpos h (fun _ => rfl) with ⟨names, near, hc, harr⟩ | ⟨-, h⟩
  · exact .inl ⟨names, hc.length_le, hc.name_ne, hc.id_eq, harr⟩
  · exact .inr h

/-! ### The last name written -/

/-- The last document that finds the slot `i` bears the name `n`. -/
def PutLast (dist : Przystanek → δ) (l : NearList δ) (docs : List Przystanek) (i : Fin 4)
    (n : String) : Prop :=
  ∃ t, t.name = n ∧ Fold.Last (fun l doc => l.nearStop doc.name (dist doc))
    (fun l doc => l.Finds doc.name (dist doc) i) l docs t

/-- No document finds the slot `i`. -/
def LeftAlone (dist : Przystanek → δ) (l : NearList δ) (docs : List Przystanek) (i : Fin 4) :
    Prop :=
  Fold.Never (fun l doc => l.nearStop doc.name (dist doc))
    (fun l doc => l.Finds doc.name (dist doc) i) l docs

/-- The name in a slot is that of the last document that finds it, or the old one. -/
theorem id_nearStops_iff {n : String} : (nearStops dist l docs).id i = n ↔
    PutLast dist l docs i n ∨ (l.id i = n ∧ LeftAlone dist l docs i) := by
  have hw : ∀ (l : NearList δ) (doc : Przystanek), l.Finds doc.name (dist doc) i →
      (l.nearStop doc.name (dist doc)).id i = doc.name := fun _ _ => NearList.id_nearStop_of_finds
  have hk : ∀ (l : NearList δ) (doc : Przystanek), ¬ l.Finds doc.name (dist doc) i →
      (l.nearStop doc.name (dist doc)).id i = l.id i := fun _ _ =>
    NearList.id_nearStop_of_not_finds
  exact Fold.foldl_eq_iff (g := fun l : NearList δ => l.id i) hw hk n

end MapaZimSlupsk
