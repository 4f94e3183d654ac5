import MapaZimSlupsk.Exact.Root
import MapaZimSlupsk.Firestore.Documents
import Mathlib.Tactic.FinCases
import Mathlib.Tactic.Ring

/-!
# The insertion into the list of nearest stops

`nearStops` keeps the names of four stops in `id` and four distances in `od`.  A document whose name
is not in `id` is inserted at the first slot that is free, which the code reads off the distance 0,
or farther away.  The name is written over the one in this slot; of the distances, the old one of
the slot goes to its end and the others behind it move up.

* `NearList.insertAt`, `NearList.nearStop`, `nearStops` : the loops of the code.
* `NearList.insertAt_od` : what becomes of `od`.
* `nearStops_id_congr` : **only the order of the distances matters**, and which are zero.
* `nearStops_id_euclid` : so exact roots show the names that real distances show.

Distances are compared with each other and with 0 and copied, so they may be of any linear order
with a zero; `odleglosc` gives them as exact roots.
-/

namespace MapaZimSlupsk

/-- `sqrt((dLat * dLat) + (dLng * dLng))`, the distance of a stop in degrees. -/
def odleglosc (sz dl : ℚ) (doc : Przystanek) : Root :=
  let dLat := |sz - doc.lat|
  let dLng := |dl - doc.lng|
  .sqrtSumSq dLat dLng

/-- The names and distances shown. -/
@[ext]
structure NearList (δ : Type*) where
  id : Fin 4 → String
  od : Fin 4 → δ
  deriving DecidableEq

namespace NearList

variable {δ : Type*}

/-- The arrays of a new page. -/
def empty [Zero δ] : NearList δ := ⟨fun _ => "", fun _ => 0⟩

/-! ### The loops -/

/-- One round of the loop over `i2`: exchange the distances at `i2 - 1` and `i2`. -/
def swapBack (od : Fin 4 → δ) (i2 : Fin 4) : Fin 4 → δ :=
  Function.update (Function.update od i2 (od (i2 - 1))) (i2 - 1) (od i2)

/-- The body of the loop over `i` at the slot that is taken. -/
def insertAt (l : NearList δ) (i : Fin 4) (name : String) (odleglosc : δ) : NearList δ :=
  let tmp := l.od i
  let od := Function.update l.od i odleglosc
  let od := if i ≠ 3 then Function.update od (i + 1) tmp else od
  { id := Function.update l.id i name
    od := ((List.finRange 4).filter fun i2 => i.val + 2 ≤ i2.val).foldl swapBack od }

variable [LinearOrder δ] [Zero δ]

/-- The slot `i` is taken for a stop at this distance if no earlier one is. -/
def Takes (l : NearList δ) (odleglosc : δ) (i : Fin 4) : Prop := odleglosc < l.od i ∨ l.od i = 0

instance (l : NearList δ) (odleglosc : δ) : DecidablePred (l.Takes odleglosc) := fun _ => by
  unfold Takes; infer_instance

/-- The slot at which the loop over `i` breaks. -/
def slot (l : NearList δ) (odleglosc : δ) : Option (Fin 4) :=
  (List.finRange 4).find? fun i => l.Takes odleglosc i

/-- `id.contains(name)`. -/
def Contains (l : NearList δ) (name : String) : Prop := ∃ i, l.id i = name

instance (l : NearList δ) : DecidablePred l.Contains := fun _ => by unfold Contains; infer_instance

/-- A document that is not listed finds the slot `i`. -/
def Finds (l : NearList δ) (name : String) (odleglosc : δ) (i : Fin 4) : Prop :=
  ¬ l.Contains name ∧ l.slot odleglosc = some i

instance (l : NearList δ) (name : String) (odleglosc : δ) :
    DecidablePred (l.Finds name odleglosc) := fun _ => by unfold Finds; infer_instance

/-- What a document does to the arrays. -/
def nearStop (l : NearList δ) (name : String) (odleglosc : δ) : NearList δ :=
  if l.Contains name then l
  else match l.slot odleglosc with
    | none => l
    | some i => l.insertAt i name odleglosc

end NearList

/-- What a snapshot does to the arrays. -/
def nearStops {δ : Type*} [LinearOrder δ] [Zero δ] (odleglosc : Przystanek → δ)
    (l : NearList δ) (docs : List Przystanek) : NearList δ :=
  docs.foldl (fun l doc => l.nearStop doc.name (odleglosc doc)) l

namespace NearList

variable {δ : Type*} {l : NearList δ} {i j : Fin 4} {name : String} {d : δ}

/-! ### What an insertion does -/

@[simp] theorem insertAt_id_self : (l.insertAt i name d).id i = name :=
  Function.update_self ..

theorem insertAt_id_of_ne (h : j ≠ i) : (l.insertAt i name d).id j = l.id j :=
  Function.update_of_ne h ..

/-- The slots in front keep their distances, those behind take over that of the next slot, and the
last one that of the slot taken. -/
theorem insertAt_od (l : NearList δ) (i : Fin 4) (name : String) (d : δ) (j : Fin 4) :
    (l.insertAt i name d).od j =
      if j = i then d else if j < i then l.od j else if j = 3 then l.od i else l.od (j + 1) := by
  fin_cases i <;> fin_cases j <;> rfl

@[simp] theorem insertAt_od_self : (l.insertAt i name d).od i = d := by
  rw [insertAt_od, if_pos rfl]

theorem insertAt_od_of_lt (h : j < i) : (l.insertAt i name d).od j = l.od j := by
  rw [insertAt_od, if_neg h.ne, if_pos h]

/-- Where the distance behind the slot `i` comes from that stands at `j` after an insertion. -/
def source (i j : Fin 4) : Fin 4 := if j < i then j else if j = 3 then i else j + 1

theorem insertAt_od_of_ne (h : j ≠ i) : (l.insertAt i name d).od j = l.od (source i j) := by
  rw [insertAt_od, if_neg h, source]
  split_ifs <;> rfl

/-- The slots in front of a slot feed themselves, those from it on each other. -/
theorem le_source {m : Fin 4} : ∀ i j : Fin 4, m ≤ i → m ≤ j → m ≤ source i j := by
  revert m
  decide

theorem source_injective : ∀ i j j' : Fin 4, j ≠ i → j' ≠ i →
    source i j = source i j' → j = j' := by
  decide

section Slots

variable [LinearOrder δ] [Zero δ]

theorem slot_eq_some : l.slot d = some i ↔ l.Takes d i ∧ ∀ j < i, ¬ l.Takes d j := by
  unfold slot
  rw [List.find?_eq_some_iff_getElem]
  constructor
  · rintro ⟨hp, k, hk, rfl, h⟩
    refine ⟨by simpa using hp, fun j hj => ?_⟩
    simpa using h j (by simpa [Fin.lt_def] using hj)
  · rintro ⟨hp, h⟩
    refine ⟨by simpa using hp, i, by simp, by simp, fun j hj => ?_⟩
    simpa using h ⟨j, by omega⟩ hj

theorem not_takes_of_slot_eq_none (h : l.slot d = none) (i : Fin 4) : ¬ l.Takes d i := by
  have := List.find?_eq_none.1 h i (List.mem_finRange i)
  simpa using this

/-- What a document does: nothing if its name is listed or no slot takes it. -/
theorem nearStop_cases (l : NearList δ) (name : String) (d : δ) :
    (l.nearStop name d = l ∧ (l.Contains name ∨ l.slot d = none)) ∨
      ∃ i, ¬ l.Contains name ∧ l.slot d = some i ∧ l.nearStop name d = l.insertAt i name d := by
  unfold nearStop
  split_ifs with hc
  · exact .inl ⟨rfl, .inl hc⟩
  · cases hs : l.slot d with
    | none => exact .inl ⟨rfl, .inr rfl⟩
    | some i => exact .inr ⟨i, hc, rfl, rfl⟩

/-- A property of the slots that an insertion keeps is kept by every document. -/
theorem nearStop_invariant {I : NearList δ → Prop} (h : I l)
    (hins : ∀ i, ¬ l.Contains name → l.slot d = some i → I (l.insertAt i name d)) :
    I (l.nearStop name d) := by
  rcases nearStop_cases l name d with ⟨he, -⟩ | ⟨i, hc, hs, he⟩
  · rwa [he]
  · rw [he]
    exact hins i hc hs

theorem nearStop_of_contains (hc : l.Contains name) : l.nearStop name d = l := by
  unfold nearStop
  rw [if_pos hc]

theorem nearStop_of_slot (hc : ¬ l.Contains name) (hs : l.slot d = some i) :
    l.nearStop name d = l.insertAt i name d := by
  unfold nearStop
  rw [if_neg hc, hs]

/-- A document writes its name into the slot it finds. -/
theorem id_nearStop_of_finds (h : l.Finds name d i) : (l.nearStop name d).id i = name := by
  rw [nearStop_of_slot h.1 h.2, insertAt_id_self]

/-- It leaves the names of the other slots. -/
theorem id_nearStop_of_not_finds (h : ¬ l.Finds name d i) : (l.nearStop name d).id i = l.id i := by
  rcases nearStop_cases l name d with ⟨he, -⟩ | ⟨j, hc, hs, he⟩
  · rw [he]
  · have hij : i ≠ j := fun hij => h ⟨hc, hij ▸ hs⟩
    rw [he, insertAt_id_of_ne hij]

/-- A document writes no name but its own. -/
theorem id_of_nearStop {n : String} (hn : name ≠ n) (h : (l.nearStop name d).id i = n) :
    l.id i = n := by
  rcases nearStop_cases l name d with ⟨he, -⟩ | ⟨j, -, -, he⟩
  · rwa [he] at h
  · rw [he] at h
    by_cases hij : i = j
    · subst hij
      rw [insertAt_id_self] at h
      exact absurd h hn
    · rwa [insertAt_id_of_ne hij] at h

end Slots

/-! ### The names shown -/

section Rows

variable {names : List String}

/-- The rows show different names, all of them among `names`. -/
structure Rows (names : List String) (l : NearList δ) : Prop where
  distinct : ∀ i j, l.id i ≠ "" → l.id i = l.id j → i = j
  known : ∀ i, l.id i ≠ "" → l.id i ∈ names

/-- With all of `names` in the first rows, the others are empty. -/
theorem Rows.id_eq_empty {m : ℕ} (h : l.Rows names)
    (hall : ∀ n ∈ names, ∃ j : Fin 4, j < m ∧ l.id j = n) (hi : m ≤ i) : l.id i = "" := by
  by_contra hne
  obtain ⟨j, hj, he⟩ := hall _ (h.known i hne)
  rw [h.distinct i j hne he.symm] at hi
  exact absurd hj (not_lt_of_ge hi)

variable [Zero δ]

theorem Rows.empty (names : List String) : Rows names (.empty : NearList δ) :=
  ⟨fun _ _ h => absurd rfl h, fun _ h => absurd rfl h⟩

variable [LinearOrder δ]

theorem Rows.nearStop (h : l.Rows names) (hname : name ∈ names) :
    (l.nearStop name d).Rows names := by
  refine nearStop_invariant h fun i hc _ => ⟨fun j k hj hjk => ?_, fun j hj => ?_⟩
  · by_cases hji : j = i
    · by_cases hki : k = i
      · rw [hji, hki]
      · rw [hji, insertAt_id_self, insertAt_id_of_ne hki] at hjk
        exact absurd ⟨k, hjk.symm⟩ hc
    · rw [insertAt_id_of_ne hji] at hj hjk
      by_cases hki : k = i
      · rw [hki, insertAt_id_self] at hjk
        exact absurd ⟨j, hjk⟩ hc
      · rw [insertAt_id_of_ne hki] at hjk
        exact h.distinct j k hj hjk
  · by_cases hji : j = i
    · rwa [hji, insertAt_id_self]
    · rw [insertAt_id_of_ne hji] at hj ⊢
      exact h.known j hj

end Rows

end NearList

/-! ### Snapshots -/

section Snapshots

variable {δ : Type*} [LinearOrder δ] [Zero δ] {dist : Przystanek → δ} {l : NearList δ}
  {docs : List Przystanek}

@[simp] theorem nearStops_nil : nearStops dist l [] = l := rfl

@[simp] theorem nearStops_cons {doc : Przystanek} : nearStops dist l (doc :: docs) =
    nearStops dist (l.nearStop doc.name (dist doc)) docs := rfl

theorem nearStops_append {docs' : List Przystanek} : nearStops dist l (docs ++ docs') =
    nearStops dist (nearStops dist l docs) docs' :=
  List.foldl_append

/-- A snapshot whose documents are all listed or find no slot changes nothing. -/
theorem nearStops_of_settled
    (h : ∀ doc ∈ docs, l.Contains doc.name ∨ l.slot (dist doc) = none) :
    nearStops dist l docs = l := by
  induction docs with
  | nil => rfl
  | cons doc docs ih =>
    have hdoc : l.nearStop doc.name (dist doc) = l := by
      rcases NearList.nearStop_cases l doc.name (dist doc) with ⟨he, -⟩ | ⟨i, hc, hs, -⟩
      · exact he
      · rcases h doc List.mem_cons_self with h | h
        · exact absurd h hc
        · simp [hs] at h
    rw [nearStops_cons, hdoc]
    exact ih fun d hd => h d (List.mem_cons_of_mem _ hd)

theorem NearList.Rows.nearStops {names : List String} (h : l.Rows names)
    (hdocs : ∀ doc ∈ docs, doc.name ∈ names) : (nearStops dist l docs).Rows names :=
  List.foldlRecOn docs _ h fun _ hl doc hdoc => hl.nearStop (hdocs doc hdoc)

/-- A snapshot of a single name leaves this name in the first slot. -/
theorem nearStops_id_of_one_name {doc : Przystanek} (h : ∀ p ∈ docs, p.name = doc.name) :
    (nearStops dist .empty (doc :: docs)).id = Function.update (fun _ => "") 0 doc.name := by
  by_cases hne : doc.name = ""
  · rw [nearStops_of_settled fun p hp => .inl ⟨0, ?_⟩, hne]
    · exact (Function.update_eq_self _ _).symm
    · rcases List.mem_cons.1 hp with rfl | hp
      · exact hne.symm
      · exact hne.symm.trans (h p hp).symm
  · have hc : ¬ (NearList.empty : NearList δ).Contains doc.name := fun ⟨_, hi⟩ => hne hi.symm
    have hs : (NearList.empty : NearList δ).slot (dist doc) = some 0 :=
      NearList.slot_eq_some.2 ⟨.inr rfl, fun j hj => absurd hj (Fin.not_lt_zero j)⟩
    rw [nearStops_cons, NearList.nearStop_of_slot hc hs,
      nearStops_of_settled fun p hp => .inl ⟨0, ?_⟩]
    · rfl
    · rw [NearList.insertAt_id_self, h p hp]

theorem id_of_nearStops {n : String} {i : Fin 4} (hn : ∀ doc ∈ docs, doc.name ≠ n)
    (h : (nearStops dist l docs).id i = n) : l.id i = n := by
  induction docs generalizing l with
  | nil => exact h
  | cons doc docs ih =>
    exact NearList.id_of_nearStop (hn doc List.mem_cons_self)
      (ih (fun d hd => hn d (List.mem_cons_of_mem _ hd)) h)

end Snapshots

/-! ### Only the order of the distances matters -/

section Rank

variable {δ ε : Type*} [LinearOrder δ] [Zero δ] [LinearOrder ε] [Zero ε]
  {docs : List Przystanek} {dist : Przystanek → δ} {dist' : Przystanek → ε}

/-- The distances of the documents are in the same order, and the same ones are zero. -/
structure SameRank (docs : List Przystanek) (dist : Przystanek → δ) (dist' : Przystanek → ε) :
    Prop where
  lt_iff : ∀ p ∈ docs, ∀ q ∈ docs, dist p < dist q ↔ dist' p < dist' q
  zero_iff : ∀ p ∈ docs, dist p = 0 ↔ dist' p = 0

theorem SameRank.symm (h : SameRank docs dist dist') : SameRank docs dist' dist :=
  ⟨fun p hp q hq => (h.lt_iff p hp q hq).symm, fun p hp => (h.zero_iff p hp).symm⟩

/-- The arrays hold the same names, and distances of the same documents. -/
structure Alike (docs : List Przystanek) (dist : Przystanek → δ) (dist' : Przystanek → ε)
    (l : NearList δ) (l' : NearList ε) : Prop where
  id_eq : l.id = l'.id
  od : ∀ i, (l.od i = 0 ∧ l'.od i = 0) ∨ ∃ p ∈ docs, l.od i = dist p ∧ l'.od i = dist' p

theorem Alike.nearStop (hr : SameRank docs dist dist') {l : NearList δ} {l' : NearList ε}
    (h : Alike docs dist dist' l l') {doc : Przystanek} (hdoc : doc ∈ docs) :
    Alike docs dist dist' (l.nearStop doc.name (dist doc)) (l'.nearStop doc.name (dist' doc)) := by
  have htakes : ∀ i, l.Takes (dist doc) i ↔ l'.Takes (dist' doc) i := fun i => by
    unfold NearList.Takes
    rcases h.od i with ⟨h0, h0'⟩ | ⟨p, hp, he, he'⟩
    · simp only [h0, h0', or_true]
    · rw [he, he', hr.lt_iff doc hdoc p hp, hr.zero_iff p hp]
  have hslot : l.slot (dist doc) = l'.slot (dist' doc) := by
    simp only [NearList.slot, htakes]
  have hcontains : l.Contains doc.name ↔ l'.Contains doc.name := by
    simp only [NearList.Contains, h.id_eq]
  unfold NearList.nearStop
  simp only [hslot, hcontains]
  split_ifs
  · exact h
  · cases l'.slot (dist' doc) with
    | none => exact h
    | some i =>
      refine ⟨by simp only [NearList.insertAt, h.id_eq], fun j => ?_⟩
      by_cases hj : j = i
      · subst hj
        exact .inr ⟨doc, hdoc, by simp, by simp⟩
      · rw [NearList.insertAt_od_of_ne hj, NearList.insertAt_od_of_ne hj]
        exact h.od _

theorem Alike.nearStops (hr : SameRank docs dist dist') {docs' : List Przystanek}
    (hsub : ∀ doc ∈ docs', doc ∈ docs) {l : NearList δ} {l' : NearList ε}
    (h : Alike docs dist dist' l l') :
    Alike docs dist dist' (nearStops dist l docs') (nearStops dist' l' docs') := by
  induction docs' generalizing l l' with
  | nil => exact h
  | cons doc docs' ih =>
    refine ih (fun d hd => hsub d (List.mem_cons_of_mem _ hd)) ?_
    exact h.nearStop hr (hsub doc List.mem_cons_self)

/-- **The names shown depend on the order of the distances only.** -/
theorem nearStops_id_congr (hr : SameRank docs dist dist') :
    (nearStops dist .empty docs).id = (nearStops dist' .empty docs).id :=
  (Alike.nearStops hr (fun _ => id) ⟨rfl, fun _ => .inl ⟨rfl, rfl⟩⟩).id_eq

/-- The distance as a real number. -/
noncomputable def euclid (sz dl : ℚ) (doc : Przystanek) : ℝ :=
  √((sz - doc.lat) ^ 2 + (dl - doc.lng) ^ 2 : ℝ)

theorem odleglosc_toReal (sz dl : ℚ) (doc : Przystanek) :
    (odleglosc sz dl doc).toReal = euclid sz dl doc := by
  unfold odleglosc Root.sqrtSumSq Root.toReal euclid
  simp only [abs_mul_abs_self]
  push_cast
  ring_nf

/-- Comparing exact roots is comparing distances. -/
theorem sameRank_euclid (sz dl : ℚ) (docs : List Przystanek) :
    SameRank docs (odleglosc sz dl) (euclid sz dl) := by
  refine ⟨fun p _ q _ => ?_, fun p _ => ?_⟩
  · rw [← odleglosc_toReal, ← odleglosc_toReal, Root.toReal_lt_toReal]
  · rw [← odleglosc_toReal, Root.toReal_eq_zero]

/-- **The exact roots show the names that the distances show.** -/
theorem nearStops_id_euclid (sz dl : ℚ) (docs : List Przystanek) :
    (nearStops (odleglosc sz dl) .empty docs).id = (nearStops (euclid sz dl) .empty docs).id :=
  nearStops_id_congr (sameRank_euclid sz dl docs)

end Rank

end MapaZimSlupsk
