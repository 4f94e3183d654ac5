import MapaZimSlupsk.Fold.LastWrite
import MapaZimSlupsk.NearStops.Geofence

/-!
# The name of the stop the user stands at

A callback of the geofence asks for the stop of the highest flag after every document, while the
flags of the documents to come are still those of an earlier position.  It writes "brak" at once;
the names are written when the answers come in, in any order.

* `NearStopsPage.Right` : the name of a stop whose box contains the position, "brak" if there is
  none.
* `NearStopsPage.Highest` : the highest flag after some documents of a snapshot, read off the
  position and the flags found.
* `NearStopsPage.NamesRight` : every stop whose flag is highest while its document is to come has a
  right name, and if no answer writes a name, what stands there is right.
* `NearStopsPage.right_iff_namesRight` : **main result**: the name is right in the end, whatever the
  order of the answers, exactly if `NamesRight` holds.
* `NearStopsPage.namesRight_of_clear` : it does where the callback finds no flag set.
-/

namespace MapaZimSlupsk

namespace NearStopsPage

variable {s t u : NearStopsPage} {e : Event} {ls : List Event} {docs pre : List Przystanek}
  {doc q : Przystanek} {p : ℚ × ℚ} {x : Fin 12 → ℕ} {n : Fin 12} {y : ℕ} {nazwa : String}
  {old rest : List ℕ}

/-! ### What should be written -/

/-- The documents have different numbers from 1 to 11. -/
structure Slots (docs : List Przystanek) : Prop where
  range : ∀ doc ∈ docs, ∃ n : ℤ, intParse doc.docId = some n ∧ 1 ≤ n ∧ n ≤ 11
  distinct : (docs.map fun doc => intParse doc.docId).Nodup

/-- The name is that of a stop whose box contains the position, or "brak" if there is none. -/
def Right (p : ℚ × ℚ) (docs : List Przystanek) (nazwa : String) : Prop :=
  (∃ doc ∈ docs, InBox p doc ∧ doc.name = nazwa) ∨ ((∀ doc ∈ docs, ¬ InBox p doc) ∧ nazwa = "brak")

instance : Decidable (Right p docs nazwa) := by unfold Right; infer_instance

/-- After the documents `pre` the flag `n` is set: by a document, or since before. -/
def Marked (p : ℚ × ℚ) (x : Fin 12 → ℕ) (pre : List Przystanek) (n : Fin 12) : Prop :=
  (∃ doc ∈ pre, intParse doc.docId = some (n.val : ℤ) ∧ InBox p doc) ∨
    (x n = 1 ∧ ∀ doc ∈ pre, intParse doc.docId ≠ some (n.val : ℤ))

/-- After the documents `pre` the flag `n` is the highest that is set. -/
def Highest (p : ℚ × ℚ) (x : Fin 12 → ℕ) (pre : List Przystanek) (n : Fin 12) : Prop :=
  n ≠ 0 ∧ Marked p x pre n ∧ ∀ m, n < m → ¬ Marked p x pre m

/-- The name is asked for: a flag is highest after some documents whose stop has the number as
document id, or an earlier callback has asked for it. -/
def Asked (p : ℚ × ℚ) (x : Fin 12 → ℕ) (old : List ℕ) (docs : List Przystanek) (q : Przystanek) :
    Prop :=
  (∃ pre n, pre ≠ [] ∧ pre <+: docs ∧ Highest p x pre n ∧ q.docId = toString n.val) ∨
    ∃ y ∈ old, q.docId = toString y

/-- What the callback finds makes it write right names only.  `old` are the documents asked for by
earlier callbacks whose answers are still to come. -/
structure NamesRight (p : ℚ × ℚ) (x : Fin 12 → ℕ) (nazwa : String) (old : List ℕ)
    (docs : List Przystanek) : Prop where
  /-- A stop whose flag is the highest while its document is to come. -/
  ahead : ∀ pre n, pre ≠ [] → pre <+: docs → Highest p x pre n →
    ∀ q ∈ docs, q ∉ pre → q.docId = toString n.val → Right p docs q.name
  /-- A stop asked for before. -/
  earlier : ∀ y ∈ old, ∀ q ∈ docs, q.docId = toString y → Right p docs q.name
  /-- No name is written, but "brak" is: at some document no flag is set. -/
  brak : (∀ q ∈ docs, ¬ Asked p x old docs q) →
    (∃ pre, pre ≠ [] ∧ pre <+: docs ∧ ∀ n, n ≠ 0 → ¬ Marked p x pre n) → Right p docs "brak"
  /-- Nothing is written at all. -/
  kept : (∀ q ∈ docs, ¬ Asked p x old docs q) →
    (∀ pre, pre ≠ [] → pre <+: docs → ∃ n, n ≠ 0 ∧ Marked p x pre n) → Right p docs nazwa

/-! ### The flags -/

theorem Slots.eq_of_number (h : Slots docs) (hdoc : doc ∈ docs) (hq : q ∈ docs)
    (he : intParse doc.docId = intParse q.docId) : doc = q :=
  List.inj_on_of_nodup_map h.distinct hdoc hq he

theorem Slots.flag_ok (h : Slots docs) (hdoc : doc ∈ docs) : ∃ i, flag doc.docId = .ok i := by
  obtain ⟨n, hn, h1, h11⟩ := h.range doc hdoc
  refine ⟨⟨n.toNat, by omega⟩, flag_eq_ok.2 ?_⟩
  rw [hn, Option.some.injEq]
  show n = (n.toNat : ℤ)
  omega

/-- The loop over `x` finds the highest flag that is set. -/
theorem lastFlag_cases (x : Fin 12 → ℕ) :
    (∃ n, n ≠ 0 ∧ x n = 1 ∧ (∀ m, n < m → x m ≠ 1) ∧ lastFlag x = n.val) ∨
      ((∀ n, n ≠ 0 → x n ≠ 1) ∧ lastFlag x = 0) := by
  have hw : ∀ (y : ℕ) (i : Fin 12), 1 ≤ i.val ∧ x i = 1 →
      (if 1 ≤ i.val ∧ x i = 1 then i.val else y) = i.val := fun _ _ h => if_pos h
  have hk : ∀ (y : ℕ) (i : Fin 12), ¬ (1 ≤ i.val ∧ x i = 1) →
      (if 1 ≤ i.val ∧ x i = 1 then i.val else y) = y := fun _ _ h => if_neg h
  rcases Fold.exists_last_or (fun i : Fin 12 => 1 ≤ i.val ∧ x i = 1) (List.finRange 12) with
    ⟨v, n, w, hl, ⟨hn, hx⟩, hlast⟩ | hno
  · refine .inl ⟨n, by rintro rfl; simp at hn, hx, fun m hm hxm => ?_, ?_⟩
    · -- the slots behind `n` come after it
      have hlt : ∀ i ∈ v, i < n := fun i hi => by
        have hsorted := List.pairwise_lt_finRange 12
        rw [hl, List.pairwise_append] at hsorted
        exact hsorted.2.2 i hi n List.mem_cons_self
      have hmem : m ∈ v ++ n :: w := hl ▸ List.mem_finRange m
      rcases List.mem_append.1 hmem with hmem | hmem
      · exact absurd hm (hlt m hmem).not_gt
      · rcases List.mem_cons.1 hmem with rfl | hmem
        · exact absurd hm (lt_irrefl _)
        · exact hlast m hmem ⟨hn.trans hm.le, hxm⟩
    · unfold lastFlag
      rw [hl]
      exact Fold.foldl_of_last (g := id) hw hk ⟨hn, hx⟩ hlast v 0
  · refine .inr ⟨fun n hn hx => hno n (List.mem_finRange n) ⟨?_, hx⟩, ?_⟩
    · exact Nat.one_le_iff_ne_zero.2 fun h0 => hn (Fin.ext h0)
    · exact Fold.foldl_of_forall_not (g := id) hk hno 0

/-- The flags after some documents of a snapshot. -/
theorem flagsAfter_eq_one (hdocs : Slots docs) (hpre : pre <+: docs) :
    flagsAfter p x pre n = 1 ↔ Marked p x pre n := by
  have hw : ∀ (x : Fin 12 → ℕ) (doc : Przystanek), intParse doc.docId = some (n.val : ℤ) →
      setFlag p x doc n = if InBox p doc then 1 else 0 := fun x doc h => by
    simp [setFlag, flag_eq_ok.2 h]
  have hk : ∀ (x : Fin 12 → ℕ) (doc : Przystanek), intParse doc.docId ≠ some (n.val : ℤ) →
      setFlag p x doc n = x n := fun x doc h => by
    cases hf : flag doc.docId with
    | ok i =>
      have hni : n ≠ i := fun hni => h (hni ▸ flag_eq_ok.1 hf)
      simp only [setFlag, hf, Function.update_of_ne hni]
    | error e => simp only [setFlag, hf]
  rcases Fold.foldl_last_write (g := fun x : Fin 12 → ℕ => x n) hw hk pre x with
    ⟨doc, hdoc, hn, he⟩ | ⟨hno, he⟩
  · have hone : flagsAfter p x pre n = 1 ↔ InBox p doc := by
      unfold flagsAfter
      rw [he]
      split_ifs with h <;> simp [h]
    rw [hone]
    constructor
    · exact fun h => .inl ⟨doc, hdoc, hn, h⟩
    · rintro (⟨d, hd, hdn, hbox⟩ | ⟨-, hall⟩)
      · rwa [hdocs.eq_of_number (hpre.subset hdoc) (hpre.subset hd) (hn.trans hdn.symm)]
      · exact absurd hn (hall doc hdoc)
  · unfold flagsAfter
    rw [he]
    constructor
    · exact fun h => .inr ⟨h, hno⟩
    · rintro (⟨d, hd, hdn, -⟩ | ⟨h, -⟩)
      · exact absurd hdn (hno d hd)
      · exact h

/-- The value of `y` after some documents of a snapshot. -/
theorem highest_cases (hdocs : Slots docs) (hpre : pre <+: docs) :
    (∃ n, Highest p x pre n ∧ lastFlag (flagsAfter p x pre) = n.val) ∨
      ((∀ n, n ≠ 0 → ¬ Marked p x pre n) ∧ lastFlag (flagsAfter p x pre) = 0) := by
  have h := lastFlag_cases (flagsAfter p x pre)
  simp only [ne_eq, flagsAfter_eq_one hdocs hpre] at h
  refine h.imp_left fun ⟨n, hn, hm, hlast, he⟩ => ⟨n, ⟨hn, hm, hlast⟩, he⟩

theorem Highest.eq {m : Fin 12} (h : Highest p x pre n) (h' : Highest p x pre m) : n = m := by
  rcases lt_trichotomy n m with hlt | he | hlt
  · exact absurd h'.2.1 (h.2.2 m hlt)
  · exact he
  · exact absurd h.2.1 (h'.2.2 n hlt)

theorem Highest.lastFlag_eq (h : Highest p x pre n) (hdocs : Slots docs) (hpre : pre <+: docs) :
    lastFlag (flagsAfter p x pre) = n.val := by
  rcases highest_cases (p := p) (x := x) hdocs hpre with ⟨m, hm, he⟩ | ⟨hno, -⟩
  · rw [he, h.eq hm]
  · exact absurd h.2.1 (hno n h.1)

/-- The documents that a callback asks for. -/
theorem mem_filter_ys (hdocs : Slots docs) : y ∈ (ys p x docs).filter (· ≠ 0) ↔
    ∃ pre n, pre ≠ [] ∧ pre <+: docs ∧ Highest p x pre n ∧ n.val = y := by
  rw [List.mem_filter, mem_ys, decide_eq_true_iff]
  constructor
  · rintro ⟨⟨pre, hne, hpre, rfl⟩, hy⟩
    rcases highest_cases (p := p) (x := x) hdocs hpre with ⟨n, hn, he⟩ | ⟨-, he⟩
    · exact ⟨pre, n, hne, hpre, hn, he.symm⟩
    · exact absurd he hy
  · rintro ⟨pre, n, hne, hpre, hn, rfl⟩
    exact ⟨⟨pre, hne, hpre, hn.lastFlag_eq hdocs hpre⟩, fun h0 => hn.1 (Fin.ext h0)⟩

/-- A callback writes "brak" when it finds no flag set. -/
theorem zero_mem_ys (hdocs : Slots docs) : 0 ∈ ys p x docs ↔
    ∃ pre, pre ≠ [] ∧ pre <+: docs ∧ ∀ n, n ≠ 0 → ¬ Marked p x pre n := by
  rw [mem_ys]
  refine exists_congr fun pre => and_congr_right fun _ => and_congr_right fun hpre => ?_
  rcases highest_cases (p := p) (x := x) hdocs hpre with ⟨n, hn, he⟩ | ⟨hno, he⟩
  · rw [he]
    refine ⟨fun h0 => absurd (Fin.ext h0) hn.1, fun hno => absurd hn.2.1 (hno n hn.1)⟩
  · exact ⟨fun _ => hno, fun _ => he⟩

/-! ### The answers -/

/-- The page over the snapshot `docs`, without a further callback of the geofence. -/
def quiet (docs : List Przystanek) : Lts NearStopsPage Event :=
  lts.guard fun _ e => Over docs e ∧ e ≠ .dispose ∧ ∀ docs', e ≠ .geo docs'

/-- The document that an event is the answer for. -/
def Event.asked : Event → Option ℕ
  | .doc y _ => some y
  | _ => none

/-- The name shown after the answer for the document `y`. -/
def shown (docs : List Przystanek) (nazwa : String) (y : ℕ) : String :=
  match docs.find? fun doc => doc.docId = toString y with
  | none => nazwa
  | some doc => doc.name

theorem onDoc_eq_shown (hd : s.disposed = false) (y : ℕ) (docs : List Przystanek) :
    ∃ dirty, s.onDoc y docs = { s with
      docReads := s.docReads.erase y, nazwa := shown docs s.nazwa y, dirty := dirty } := by
  unfold onDoc shown setState
  cases docs.find? fun doc => doc.docId = toString y with
  | none => exact ⟨s.dirty, rfl⟩
  | some doc =>
    refine ⟨true, ?_⟩
    simp only [hd, Bool.false_eq_true, ↓reduceIte, result]

/-- What a step does to the name and to the documents asked for. -/
theorem quiet_step (hd : s.disposed = false) (hst : (quiet docs).step s e t) :
    t.disposed = false ∧ (e.asked.toList ++ t.docReads).Perm s.docReads ∧
      t.nazwa = e.asked.toList.foldl (shown docs) s.nazwa := by
  obtain ⟨⟨hover, hdis, hgeo⟩, hst⟩ := hst
  have he := effect_of_step hst
  refine ⟨(he.disposed hdis).trans hd, ?_⟩
  cases he with
  | doc y docs' nazwa dirty late hy =>
    obtain rfl := hover docs' rfl
    obtain ⟨dirty', he'⟩ := s.onDoc_eq_shown hd y docs'
    obtain ⟨-, hst⟩ := Option.ite_none_right_eq_some.1 hst
    rw [he', Option.some.injEq] at hst
    rw [← hst]
    exact ⟨(List.perm_cons_erase hy).symm, rfl⟩
  | geo docs' => exact absurd rfl (hgeo docs')
  | dispose => exact absurd rfl hdis
  | build | position | near | tap | map => exact ⟨List.Perm.refl _, rfl⟩

/-- The documents that a run answers for. -/
def answered (ls : List Event) : List ℕ := ls.flatMap fun e => e.asked.toList

/-- The name after a run is that of its answers, in their order. -/
theorem quiet_run (hd : s.disposed = false) (h : (quiet docs).Run s ls u) :
    (answered ls ++ u.docReads).Perm s.docReads ∧
      u.nazwa = (answered ls).foldl (shown docs) s.nazwa := by
  refine (h.invariant_labels (I := fun ls u => u.disposed = false ∧
    (answered ls ++ u.docReads).Perm s.docReads ∧
      u.nazwa = (answered ls).foldl (shown docs) s.nazwa) ⟨hd, List.Perm.refl _, rfl⟩ ?_).2
  rintro ls e v v' ⟨hd, hp, hn⟩ hst
  obtain ⟨hd', hp', hn'⟩ := quiet_step hd hst
  have hans : answered (ls ++ [e]) = answered ls ++ e.asked.toList := by simp [answered]
  rw [hans]
  refine ⟨hd', ?_, ?_⟩
  · rw [List.append_assoc]
    exact (hp'.append_left _).trans hp
  · rw [List.foldl_append, ← hn, hn']

/-- The answers can come in any order. -/
theorem exists_quiet_run (docs : List Przystanek) (order : List ℕ) {rest : List ℕ}
    (hd : s.disposed = false) (hp : (order ++ rest).Perm s.docReads) :
    ∃ ls u, (quiet docs).Run s ls u ∧ answered ls = order := by
  induction order generalizing s with
  | nil => exact ⟨[], s, .nil, rfl⟩
  | cons y order ih =>
    have hy : y ∈ s.docReads := hp.subset (by simp)
    have hst : (quiet docs).step s (.doc y docs) (s.onDoc y docs) :=
      ⟨⟨fun docs' h => (Option.some.inj h).symm, nofun, nofun⟩, if_pos hy⟩
    obtain ⟨hd', hp', -⟩ := quiet_step hd hst
    obtain ⟨ls, u, hr, hans⟩ := ih hd' ((hp.trans hp'.symm).cons_inv)
    exact ⟨_, u, (Lts.Run.single hst).append hr, by simp [answered, Event.asked, ← hans]⟩

/-! ### The name in the end -/

/-- Which answers write a name, and which. -/
theorem shown_of_mem (hdocs : Slots docs) (hq : q ∈ docs) (hy : q.docId = toString y)
    (nazwa : String) : shown docs nazwa y = q.name := by
  unfold shown
  cases hf : docs.find? fun doc => doc.docId = toString y with
  | none => simpa [hy] using List.find?_eq_none.1 hf q hq
  | some doc =>
    have hdoc : doc.docId = toString y := by simpa using List.find?_some hf
    rw [hdocs.eq_of_number (List.mem_of_find?_eq_some hf) hq (by rw [hdoc, hy])]

theorem shown_of_forall_ne (hno : ∀ q ∈ docs, q.docId ≠ toString y) (nazwa : String) :
    shown docs nazwa y = nazwa := by
  unfold shown
  rw [List.find?_eq_none.2 fun q hq => by simpa using hno q hq]

/-- The name is right for every order of the answers exactly if every name written is, and the one
found is if none is written. -/
theorem forall_order_iff (hdocs : Slots docs) (R : String → Prop) (l : List ℕ) (nazwa : String) :
    (∀ order : List ℕ, order.Perm l → R (order.foldl (shown docs) nazwa)) ↔
      (∀ y ∈ l, ∀ q ∈ docs, q.docId = toString y → R q.name) ∧
        ((∀ y ∈ l, ∀ q ∈ docs, q.docId ≠ toString y) → R nazwa) := by
  have hw : ∀ (nazwa : String) (y : ℕ), (∃ q ∈ docs, q.docId = toString y) →
      shown docs nazwa y = shown docs "" y := fun nazwa y ⟨q, hq, hy⟩ => by
    rw [shown_of_mem hdocs hq hy, shown_of_mem hdocs hq hy]
  have hk : ∀ (nazwa : String) (y : ℕ), ¬ (∃ q ∈ docs, q.docId = toString y) →
      shown docs nazwa y = nazwa := fun nazwa y h =>
    shown_of_forall_ne (fun q hq hy => h ⟨q, hq, hy⟩) nazwa
  refine (Fold.forall_perm_foldl_iff (g := id) hw hk R l nazwa).trans (and_congr ?_ ?_)
  · refine forall_congr' fun y => forall_congr' fun _ => ?_
    constructor
    · exact fun h q hq hy => shown_of_mem hdocs hq hy "" ▸ h ⟨q, hq, hy⟩
    · rintro h ⟨q, hq, hy⟩
      exact (shown_of_mem hdocs hq hy "").symm ▸ h q hq hy
  · simp only [not_exists, not_and, id_eq, ne_eq]

/-- The number of a stop already handled is only highest if its box contains the position. -/
theorem inBox_of_highest (hdocs : Slots docs) (hpre : pre <+: docs) (hn : Highest p x pre n)
    (hq : q ∈ pre) (hy : q.docId = toString n.val) : InBox p q := by
  have hnum : intParse q.docId = some (n.val : ℤ) := by
    rw [hy, intParse_natCast (by omega)]
  rcases hn.2.1 with ⟨doc, hdoc, hd, hbox⟩ | ⟨-, hno⟩
  · rwa [hdocs.eq_of_number (hpre.subset hdoc) (hpre.subset hq) (hd.trans hnum.symm)] at hbox
  · exact absurd hnum (hno q hq)

/-- What the callback leaves to the answers. -/
theorem geo_step (hdocs : Slots docs) (hd : s.disposed = false) (hp : s.position = some p)
    (hst : lts.step s (.geo docs) t) :
    t.disposed = false ∧ t.docReads = s.docReads ++ (ys p s.x docs).filter (· ≠ 0) ∧
      t.nazwa = if 0 ∈ ys p s.x docs then "brak" else s.nazwa := by
  obtain ⟨-, hst⟩ := Option.ite_none_right_eq_some.1 hst
  obtain ⟨dirty, he⟩ := geofence_eq (s := { s with geoReads := s.geoReads - 1 }) hd hp
    fun doc hdoc => hdocs.flag_ok hdoc
  rw [← Option.some.inj hst, onGeo, he]
  exact ⟨hd, rfl, rfl⟩

/-- The runs after a callback and the orders of the answers they bring. -/
theorem forall_run_iff_forall_order {issued : List ℕ} (hd : t.disposed = false)
    (hreads : t.docReads = s.docReads ++ issued) (hold : s.docReads.Perm (old ++ rest))
    (R : String → Prop) :
    (∀ ls u, (quiet docs).Run t ls u → u.docReads.Perm rest → R u.nazwa) ↔
      ∀ order : List ℕ, order.Perm (old ++ issued) → R (order.foldl (shown docs) t.nazwa) := by
  have hsplit : t.docReads.Perm ((old ++ issued) ++ rest) := by
    rw [hreads, List.append_assoc]
    refine (hold.append_right issued).trans ?_
    rw [List.append_assoc]
    exact List.perm_append_comm.append_left old
  constructor
  · intro h order horder
    obtain ⟨ls, u, hr, rfl⟩ := exists_quiet_run docs order hd
      ((horder.append_right rest).trans hsplit.symm)
    obtain ⟨hp, hn⟩ := quiet_run hd hr
    refine hn ▸ h ls u hr ?_
    exact (List.perm_append_left_iff _).1
      (hp.trans (hsplit.trans (horder.symm.append_right rest)))
  · intro h ls u hr hrest
    obtain ⟨hp, hn⟩ := quiet_run hd hr
    refine hn ▸ h _ ((List.perm_append_right_iff u.docReads).1 ?_)
    exact hp.trans (hsplit.trans (hrest.symm.append_left _))

/-- No stop is asked for by the callback or by the reads left over. -/
theorem forall_not_asked_iff (hdocs : Slots docs) :
    (∀ q ∈ docs, ¬ Asked p x old docs q) ↔
      ∀ y ∈ old ++ (ys p x docs).filter (· ≠ 0), ∀ q ∈ docs, q.docId ≠ toString y := by
  constructor
  · intro h y hmem q hq hy
    rcases List.mem_append.1 hmem with hold | hmem
    · exact h q hq (.inr ⟨y, hold, hy⟩)
    · obtain ⟨pre, n, hne, hpre, hn, rfl⟩ := (mem_filter_ys hdocs).1 hmem
      exact h q hq (.inl ⟨pre, n, hne, hpre, hn, hy⟩)
  · rintro h q hq (⟨pre, n, hne, hpre, hn, hy⟩ | ⟨y, hold, hy⟩)
    · have hmem := (mem_filter_ys hdocs).2 ⟨pre, n, hne, hpre, hn, rfl⟩
      exact h _ (List.mem_append_right _ hmem) q hq hy
    · exact h y (List.mem_append_left _ hold) q hq hy

/-- The values of `y` and the reads left over ask for the stops that the condition names. -/
theorem namesRight_iff (hdocs : Slots docs) :
    NamesRight p x nazwa old docs ↔
      (∀ y ∈ old ++ (ys p x docs).filter (· ≠ 0), ∀ q ∈ docs, q.docId = toString y →
        Right p docs q.name) ∧
      ((∀ y ∈ old ++ (ys p x docs).filter (· ≠ 0), ∀ q ∈ docs, q.docId ≠ toString y) →
        Right p docs (if 0 ∈ ys p x docs then "brak" else nazwa)) := by
  rw [← forall_not_asked_iff hdocs]
  constructor
  · rintro ⟨hahead, hold, hbrak, hkept⟩
    refine ⟨fun y hmem q hq hy => ?_, fun hno => ?_⟩
    · rcases List.mem_append.1 hmem with hmem | hmem
      · exact hold y hmem q hq hy
      · obtain ⟨pre, n, hne, hpre, hn, rfl⟩ := (mem_filter_ys hdocs).1 hmem
        by_cases hqpre : q ∈ pre
        · exact .inl ⟨q, hq, inBox_of_highest hdocs hpre hn hqpre hy, rfl⟩
        · exact hahead pre n hne hpre hn q hq hqpre hy
    · split_ifs with h0
      · exact hbrak hno ((zero_mem_ys hdocs).1 h0)
      · refine hkept hno fun pre hne hpre => ?_
        by_contra hnone
        refine h0 ((zero_mem_ys hdocs).2 ⟨pre, hne, hpre, fun n hn hm => hnone ⟨n, hn, hm⟩⟩)
  · rintro ⟨hread, hnone⟩
    refine ⟨fun pre n hne hpre hn q hq _ hy => ?_, fun y hold q hq hy => ?_, fun hno hpre => ?_,
      fun hno hall => ?_⟩
    · have hmem := (mem_filter_ys hdocs).2 ⟨pre, n, hne, hpre, hn, rfl⟩
      exact hread _ (List.mem_append_right _ hmem) q hq hy
    · exact hread y (List.mem_append_left _ hold) q hq hy
    · have h := hnone hno
      rwa [if_pos ((zero_mem_ys hdocs).2 hpre)] at h
    · have h := hnone hno
      rwa [if_neg] at h
      intro h0
      obtain ⟨pre, hne, hpre, hzero⟩ := (zero_mem_ys hdocs).1 h0
      obtain ⟨n, hn, hm⟩ := hall pre hne hpre
      exact hzero n hn hm

/-- **The name of the stop the user stands at.**  After a callback at the position `p`, when the
documents it asked for are answered, together with those in `old` that earlier callbacks had asked
for, the name is right in every order of the answers exactly if `NamesRight` holds of what the
callback found. -/
theorem right_iff_namesRight (hdocs : Slots docs) (hd : s.disposed = false)
    (hp : s.position = some p) (hold : s.docReads.Perm (old ++ rest))
    (hst : lts.step s (.geo docs) t) :
    (∀ ls u, (quiet docs).Run t ls u → u.docReads.Perm rest → Right p docs u.nazwa) ↔
      NamesRight p s.x s.nazwa old docs := by
  obtain ⟨hd', hreads, hn⟩ := geo_step hdocs hd hp hst
  rw [forall_run_iff_forall_order hd' hreads hold, forall_order_iff hdocs, namesRight_iff hdocs,
    hn]

/-- With no flag set before, a flag is set by a document whose box contains the position. -/
theorem exists_of_marked (hx : ∀ n, n ≠ 0 → x n ≠ 1) (hn : n ≠ 0) (hm : Marked p x pre n) :
    ∃ doc ∈ pre, intParse doc.docId = some (n.val : ℤ) ∧ InBox p doc :=
  hm.resolve_right fun h => hx n hn h.1

/-- **A callback that finds no flag set writes the right name**, if the document ids are written
without leading zeros and there is a document at all. -/
theorem namesRight_of_clear (hdocs : Slots docs) (hne : docs ≠ [])
    (hids : ∀ doc ∈ docs, ∃ n : Fin 12, doc.docId = toString n.val)
    (hx : ∀ n, n ≠ 0 → x n ≠ 1) : NamesRight p x nazwa [] docs := by
  -- if no stop is asked for, none has the position in its box
  have hbox : (∀ q ∈ docs, ¬ Asked p x [] docs q) → ∀ doc ∈ docs, ¬ InBox p doc := by
    intro hno doc hdoc hin
    obtain ⟨m, hm⟩ := hids doc hdoc
    have hnum : intParse doc.docId = some (m.val : ℤ) := by
      rw [hm, intParse_natCast (by omega)]
    obtain ⟨k, hk, hk1, -⟩ := hdocs.range doc hdoc
    have hm0 : m ≠ 0 := by
      rintro rfl
      have : (0 : ℤ) = k := Option.some.inj (hnum.symm.trans hk)
      omega
    rcases highest_cases (p := p) (x := x) hdocs (List.prefix_refl docs) with ⟨n, hn, -⟩ | ⟨h0, -⟩
    · obtain ⟨d, hd, hdn, -⟩ := exists_of_marked hx hn.1 hn.2.1
      obtain ⟨i, hi⟩ := hids d hd
      rw [hi, intParse_natCast (by omega), Option.some.injEq, Int.natCast_inj] at hdn
      exact hno d hd (.inl ⟨docs, n, hne, List.prefix_refl docs, hn, hi.trans (by rw [hdn])⟩)
    · exact h0 m hm0 (.inl ⟨doc, hdoc, hnum, hin⟩)
  refine ⟨fun pre n _ hpre hn q hq hqpre hy => ?_, fun y hy => absurd hy List.not_mem_nil,
    fun hno _ => .inr ⟨hbox hno, rfl⟩, fun hno hall => ?_⟩
  · obtain ⟨d, hd, hdn, -⟩ := exists_of_marked hx hn.1 hn.2.1
    have hdq : d = q := hdocs.eq_of_number (hpre.subset hd) hq (by
      rw [hdn, hy, intParse_natCast (by omega)])
    exact absurd (hdq ▸ hd) hqpre
  · obtain ⟨n, hn, hm⟩ := hall docs hne (List.prefix_refl docs)
    obtain ⟨d, hd, -, hin⟩ := exists_of_marked hx hn hm
    exact absurd hin (hbox hno d hd)

theorem slots_dworzec_ratusz : Slots [dworzec, ratusz] := by
  refine ⟨fun doc hdoc => ?_, by decide⟩
  rcases List.mem_cons.1 hdoc with rfl | hdoc
  · exact ⟨1, by decide⟩
  · rw [List.mem_singleton.1 hdoc]
    exact ⟨2, by decide⟩

/-- The user comes to `Dworzec` from `Ratusz`, whose flag is set and whose read is not answered. -/
theorem right_dworzec :
    let docs := [dworzec, ratusz]
    let s := ((initial.build.build.onPosition (54.49, 17.03)).onGeo docs).onPosition (54.47, 17.03)
    s.x 2 = 1 ∧ ((∀ ls u, (quiet docs).Run (s.onGeo docs) ls u → u.docReads.Perm [] →
        Right (54.47, 17.03) docs u.nazwa) ↔
      NamesRight (54.47, 17.03) s.x s.nazwa [2] docs) := by
  intro docs s
  refine ⟨by decide +kernel, ?_⟩
  exact right_iff_namesRight slots_dworzec_ratusz (by decide +kernel) (by decide +kernel)
    (by decide +kernel) (if_pos (by decide +kernel))

/-- The user has walked away from `Ratusz`, but the callback asks for it while its flag is still
set, and the answer comes after "brak" is written. -/
theorem right_violated : ¬ ∀ docs, Slots docs → ∀ s p t, lts.Reachable initial s →
    s.disposed = false → s.position = some p → lts.step s (.geo docs) t →
      ∀ ls u, (quiet docs).Run t ls u → u.docReads.Perm s.docReads → Right p docs u.nazwa := by
  intro h
  let docs := [dworzec, ratusz]
  let away : ℚ × ℚ := (54.46, 17.03)
  let atRatusz : NearStopsPage := initial.build.build.onPosition (54.49, 17.03)
  let s := ((atRatusz.onGeo docs).onDoc 2 docs).onPosition away
  have hr : lts.Run initial [.build, .build, .position (54.49, 17.03), .geo docs, .doc 2 docs,
      .position away] s := Lts.ofFun_run (by decide +kernel)
  have hgeo : lts.step s (.geo docs) (s.onGeo docs) := if_pos (by decide +kernel)
  have hdoc : (quiet docs).Run (s.onGeo docs) [.doc 2 docs] ((s.onGeo docs).onDoc 2 docs) := by
    refine .single ⟨⟨fun docs' hdocs => (Option.some.inj hdocs).symm, nofun, nofun⟩, ?_⟩
    exact if_pos (by decide +kernel)
  have hright := h docs slots_dworzec_ratusz s away _ hr.reachable (by decide +kernel)
    (by decide +kernel) hgeo _ _ hdoc (by decide +kernel)
  exact absurd hright (by decide +kernel)

end NearStopsPage

end MapaZimSlupsk
