import MapaZimSlupsk.Home.Shown
import Mathlib.Data.List.ProdSigma

/-!
# How often a route is read

One run of `calculateLines` should read each direction of each common line once.  The flag
`zrobione` is set after the last wait of a closure, while the closures of all documents are started
before the first wait: every document behind the second selected stop starts a walk of its own.

* `linieOf` : the lines of a stop in a snapshot.
* `FetchesOnce` : in no order of the waits is a route read twice.
* `fetchesOnce_iff` : **this is so exactly if there is no common line or the last document of the
  snapshot is a selected stop**.
-/

namespace MapaZimSlupsk

/-- The collection that a read asks for: the line and the direction. -/
def RouteRead.path (r : RouteRead) : String × ℕ := (r.line, r.j)

/-- The lines of the stop `id`, none if it has no document. -/
def linieOf (docs : List Przystanek) (id : ℤ) : List String :=
  ((docs.find? fun doc => doc.id = id).map (·.linie)).getD []

theorem linieOf_eq {docs : List Przystanek} {p : Przystanek} (hnd : (docs.map (·.id)).Nodup)
    (hp : p ∈ docs) : linieOf docs p.id = p.linie := by
  unfold linieOf
  cases h : docs.find? fun doc => doc.id = p.id with
  | none =>
    have := List.find?_eq_none.1 h p hp
    simp at this
  | some q =>
    have hq := List.mem_of_find?_eq_some h
    have hid : q.id = p.id := by simpa using List.find?_some h
    rw [List.inj_on_of_nodup_map hnd hq hp hid]
    rfl

theorem linieOf_of_forall_ne {docs : List Przystanek} {id : ℤ} (h : ∀ p ∈ docs, p.id ≠ id) :
    linieOf docs id = [] := by
  unfold linieOf
  rw [List.find?_eq_none.2 fun p hp => by simpa using h p hp]
  rfl

theorem exists_of_linieOf_ne_nil {docs : List Przystanek} {id : ℤ} (h : linieOf docs id ≠ []) :
    ∃ p ∈ docs, p.id = id := by
  by_contra hno
  exact h (linieOf_of_forall_ne fun p hp hid => hno ⟨p, hp, hid⟩)

namespace Calculation

variable {c c' : Calculation} {id1 id2 : ℤ} {docs : List Przystanek} {doc : Przystanek} {k n : ℕ}
  {LA LB : List String}

/-- Whatever the order of the waits, the run reads no route twice, and when it has finished it has
issued two reads for each common line. -/
def FetchesOnce (id1 id2 : ℤ) (docs : List Przystanek) : Prop :=
  ∀ c, lts.Reachable (start id1 id2 docs) c →
    (c.issued.map RouteRead.path).Nodup ∧
    (c.Finished →
      c.issued.length = 2 * (common (linieOf docs id1) (linieOf docs id2)).length)

/-! ### A single walk over `C` -/

/-- The reads issued are those of the first `n` lines of `C`, and one closure is at it. -/
structure OneWalk (c : Calculation) (n : ℕ) : Prop where
  paths : c.issued.map RouteRead.path = c.C.take n ×ˢ [1, 2]
  cursors : (c.cursors = [] ∧ n = c.C.length) ∨
    ∃ i, c.cursors = [i] ∧ n = i + 1 ∧ i < c.C.length

theorem take_succ_product {C : List String} {i : ℕ} {line : String} (h : C[i]? = some line) :
    C.take (i + 1) ×ˢ [1, 2] = C.take i ×ˢ [1, 2] ++ [(line, 1), (line, 2)] := by
  rw [List.take_add_one, h]
  simp [SProd.sprod, List.product]

/-- A wait that expires makes the walk one line longer or ends it. -/
theorem OneWalk.resume (h : c.OneWalk n) (hr : c.resume k = some c') :
    c'.C = c.C ∧ ∃ n, c'.OneWalk n := by
  obtain ⟨i, hi, hcase⟩ := resume_cases hr
  obtain ⟨hnil, -⟩ | ⟨i', hcur, rfl, -⟩ := h.cursors
  · simp [hnil] at hi
  obtain ⟨rfl, rfl⟩ : k = 0 ∧ i' = i := by
    rw [hcur] at hi
    cases k with
    | zero => exact ⟨rfl, by simpa using hi⟩
    | succ k => simp at hi
  obtain ⟨line, hline, rfl⟩ | ⟨hline, rfl⟩ := hcase
  · refine ⟨rfl, i' + 2, ⟨?_, .inr ⟨i' + 1, by simp [hcur], rfl, ?_⟩⟩⟩
    · simp only [List.map_append, h.paths, take_succ_product hline]
      rfl
    · exact (List.getElem?_eq_some_iff.1 hline).1
  · refine ⟨rfl, c.C.length, ⟨?_, .inl ⟨by simp [hcur], rfl⟩⟩⟩
    rw [List.getElem?_eq_none_iff] at hline
    simp only [h.paths, List.take_of_length_le hline, List.take_length]

theorem OneWalk.nodup_paths (h : c.OneWalk n) (hC : c.C.Nodup) :
    (c.issued.map RouteRead.path).Nodup := by
  rw [h.paths]
  exact (hC.sublist (List.take_sublist n c.C)).product (by decide)

theorem OneWalk.issued_length (h : c.OneWalk n) (hf : c.Finished) :
    c.issued.length = 2 * c.C.length := by
  obtain ⟨-, rfl⟩ | ⟨i, hcur, -⟩ := h.cursors
  · rw [← List.length_map (f := RouteRead.path), h.paths, List.length_product, List.take_length]
    exact Nat.mul_comm _ _
  · simp [hf.2] at hcur

/-- From a single walk over `C` on, every order of the waits reads each route once. -/
theorem OneWalk.of_reachable (h : c.OneWalk n) (hr : lts.Reachable c c') :
    c'.C = c.C ∧ ∃ n, c'.OneWalk n := by
  refine hr.invariant (I := fun d => d.C = c.C ∧ ∃ n, d.OneWalk n) ⟨rfl, n, h⟩ ?_
  intro d k d' ⟨hC, m, hm⟩ hst
  obtain ⟨hC', hm'⟩ := hm.resume hst
  exact ⟨hC'.trans hC, hm'⟩

/-! ### Documents without a common line -/

theorem nodup_common (hA : LA.Nodup) (hB : LB.Nodup) : (common LA LB).Nodup := by
  refine List.nodup_flatMap.2 ⟨fun a _ => ?_, ?_⟩
  · refine hB.filterMap fun b b' x hx hx' => ?_
    simp only [Option.mem_def, Option.ite_none_right_eq_some] at hx hx'
    exact hx.1.symm.trans hx'.1
  · refine hA.imp fun hab => ?_
    intro x hx hx'
    simp only [List.mem_filterMap, Option.ite_none_right_eq_some, Option.some.injEq] at hx hx'
    obtain ⟨-, -, -, rfl⟩ := hx
    obtain ⟨-, -, -, rfl⟩ := hx'
    exact hab rfl

/-- `A` and `B` are empty or the lists `LA` and `LB`. -/
structure Sides (LA LB : List String) (c : Calculation) : Prop where
  A : c.A = [] ∨ c.A = LA
  B : c.B = [] ∨ c.B = LB

theorem Sides.assign (h : c.Sides LA LB) (h1 : doc.id = id1 → doc.linie = LA)
    (h2 : doc.id = id2 → doc.linie = LB) : (c.assign id1 id2 doc).Sides LA LB := by
  rw [assign_eq]
  constructor
  · dsimp only
    split_ifs with hid
    · exact .inr (h1 hid)
    · exact h.A
  · dsimp only
    split_ifs with hid
    · exact .inr (h2 hid)
    · exact h.B

theorem Sides.common_eq_nil (h : c.Sides LA LB) (hk : common LA LB = []) :
    common c.A c.B = [] := by
  rcases h.A with hA | hA
  · simp [hA, common]
  · rcases h.B with hB | hB
    · simp [hA, hB, common]
    · rw [hA, hB, hk]

/-- Nothing is collected and nothing is read. -/
structure Idle (c : Calculation) : Prop where
  C : c.C = []
  issued : c.issued = []
  cursors : c.cursors = []

theorem Idle.oneWalk (h : c.Idle) : c.OneWalk 0 :=
  ⟨by simp [h.C, h.issued], .inl ⟨h.cursors, by simp [h.C]⟩⟩

theorem idle_onPrzystanki (hk : common LA LB = [])
    (h1 : ∀ doc ∈ docs, doc.id = id1 → doc.linie = LA)
    (h2 : ∀ doc ∈ docs, doc.id = id2 → doc.linie = LB) :
    (start id1 id2 docs).Sides LA LB ∧ (start id1 id2 docs).Idle := by
  refine List.foldlRecOn (motive := fun c : Calculation => c.Sides LA LB ∧ c.Idle) docs _
    ⟨⟨.inl rfl, .inl rfl⟩, ⟨rfl, rfl, rfl⟩⟩ fun c ⟨hs, hi⟩ doc hdoc => ?_
  have hs' := hs.assign (h1 doc hdoc) (h2 doc hdoc)
  have hi' : (c.assign id1 id2 doc).Idle := by
    rw [assign_eq]
    exact ⟨hi.C, hi.issued, hi.cursors⟩
  unfold onPrzystanek
  dsimp only
  split_ifs
  · rcases enter_cases (c.assign id1 id2 doc) with ⟨line, hline, -⟩ | ⟨-, he⟩
    · simp [hi'.C, hs'.common_eq_nil hk] at hline
    · rw [he]
      exact ⟨⟨hs'.A, hs'.B⟩, ⟨rfl, hi'.issued, hi'.cursors⟩⟩
  · exact ⟨hs', hi'⟩

/-! ### A document behind the second stop -/

/-- Both stops seen, the first line of `C` has been asked for. -/
structure Asked (c : Calculation) : Prop where
  zrobione : c.zrobione = false
  first : c.A ≠ [] → c.B ≠ [] → ∃ line, c.C[0]? = some line ∧ ⟨0, 1, line⟩ ∈ c.issued

theorem asked_onPrzystanki (hk : common LA LB ≠ [])
    (h1 : ∀ doc ∈ docs, doc.id = id1 → doc.linie = LA)
    (h2 : ∀ doc ∈ docs, doc.id = id2 → doc.linie = LB) : (start id1 id2 docs).Asked := by
  suffices h : (start id1 id2 docs).Sides LA LB ∧ (start id1 id2 docs).Asked from h.2
  refine List.foldlRecOn (motive := fun c : Calculation => c.Sides LA LB ∧ c.Asked) docs _
    ⟨⟨.inl rfl, .inl rfl⟩, ⟨rfl, fun h => absurd rfl h⟩⟩ fun c ⟨hs, ha⟩ doc hdoc => ?_
  have hs' := hs.assign (h1 doc hdoc) (h2 doc hdoc)
  have hz : (c.assign id1 id2 doc).zrobione = false := by
    rw [assign_eq]
    exact ha.zrobione
  unfold onPrzystanek
  dsimp only
  split_ifs with hg
  · rcases enter_cases (c.assign id1 id2 doc) with ⟨line, hline, he⟩ | ⟨hnil, -⟩
    · rw [he]
      exact ⟨⟨hs'.A, hs'.B⟩, ⟨hz, fun _ _ => ⟨line, hline, by simp⟩⟩⟩
    · -- the guard holds, so both sides are set and have a line in common
      have hA := hs'.A.resolve_left fun h => hg.1 (by rw [h]; rfl)
      have hB := hs'.B.resolve_left fun h => hg.2.1 (by rw [h]; rfl)
      rw [List.append_eq_nil_iff, hA, hB] at hnil
      exact absurd hnil.2 hk
  · refine ⟨hs', hz, fun hA hB => absurd ⟨?_, ?_, hz⟩ hg⟩
    · simpa using hA
    · simpa using hB

/-- A closure that passes the guard when the first line of `C` has been asked for asks again. -/
theorem Asked.not_nodup_enter (h : c.Asked) (hg : c.Guard) :
    ¬ (c.enter.issued.map RouteRead.path).Nodup := by
  obtain ⟨line, hC, hmem⟩ := h.first (by simpa using hg.1) (by simpa using hg.2.1)
  rcases enter_cases c with ⟨line', hline', he⟩ | ⟨hnil, -⟩
  · obtain rfl : line = line' := by
      rw [List.getElem?_append_left (List.getElem?_eq_some_iff.1 hC).1, hC] at hline'
      exact Option.some.inj hline'
    rw [he, List.map_append, List.nodup_append]
    intro ⟨_, _, hne⟩
    exact hne _ (List.mem_map_of_mem hmem) _ (by simp [RouteRead.path]) rfl
  · simp [(List.append_eq_nil_iff.1 hnil).1] at hC

/-! ### The count -/

theorem start_snoc : start id1 id2 (docs ++ [doc]) = (start id1 id2 docs).onPrzystanek id1 id2 doc :=
  onPrzystanki_snoc

theorem fresh_empty : Fresh {} := ⟨rfl, rfl, rfl, rfl, rfl, rfl, rfl⟩

/-- With a common line, the closure of the last document passes the guard unless an earlier one has
set the flag. -/
theorem guard_last (hnd : ((docs ++ [doc]).map (·.id)).Nodup)
    (hk : common (linieOf (docs ++ [doc]) id1) (linieOf (docs ++ [doc]) id2) ≠ [])
    (hz : (start id1 id2 docs).zrobione = false) :
    ((start id1 id2 docs).assign id1 id2 doc).Guard ∧
      ((start id1 id2 docs).assign id1 id2 doc).A = linieOf (docs ++ [doc]) id1 ∧
      ((start id1 id2 docs).assign id1 id2 doc).B = linieOf (docs ++ [doc]) id2 := by
  have hA : linieOf (docs ++ [doc]) id1 ≠ [] := fun h => hk (by simp [h, common])
  have hB : linieOf (docs ++ [doc]) id2 ≠ [] := fun h => hk (by simp [h, common])
  obtain ⟨p, hp, rfl⟩ := exists_of_linieOf_ne_nil hA
  obtain ⟨q, hq, rfl⟩ := exists_of_linieOf_ne_nil hB
  obtain ⟨hA', hB'⟩ := AB_onPrzystanki {} hnd hp hq
  rw [onPrzystanki_snoc, (onPrzystanek_AB _ _).1] at hA'
  rw [onPrzystanki_snoc, (onPrzystanek_AB _ _).2] at hB'
  rw [← linieOf_eq hnd hp] at hA'
  rw [← linieOf_eq hnd hq] at hB'
  refine ⟨⟨?_, ?_, ?_⟩, hA', hB'⟩
  · exact hA' ▸ fun h => hA (List.length_eq_zero_iff.1 h)
  · exact hB' ▸ fun h => hB (List.length_eq_zero_iff.1 h)
  · rw [assign_eq]
    exact hz

/-- While one of the stops has no document, nothing is collected. -/
theorem idle_of_unseen (hnd : (docs.map (·.id)).Nodup)
    (hside : (∀ p ∈ docs, p.id ≠ id1) ∨ ∀ p ∈ docs, p.id ≠ id2) :
    (start id1 id2 docs).zrobione = false ∧ (start id1 id2 docs).Idle := by
  constructor
  · cases hz : (start id1 id2 docs).zrobione with
    | false => rfl
    | true =>
      obtain ⟨⟨p, hp, hpid⟩, q, hq, hqid⟩ := seen_of_zrobione fresh_empty docs hz
      rcases hside with hside | hside
      · exact absurd hpid (hside p hp)
      · exact absurd hqid (hside q hq)
  · have hk : common (linieOf docs id1) (linieOf docs id2) = [] := by
      rcases hside with hside | hside <;> simp [linieOf_of_forall_ne hside, common]
    refine (idle_onPrzystanki hk ?_ ?_).2
    · rintro doc hdoc rfl
      exact (linieOf_eq hnd hdoc).symm
    · rintro doc hdoc rfl
      exact (linieOf_eq hnd hdoc).symm

/-- Under the condition the closures of all documents start one walk over `C` at most. -/
theorem oneWalk_start (hnd : (docs.map (·.id)).Nodup)
    (hlast : common (linieOf docs id1) (linieOf docs id2) = [] ∨
      ∃ last, docs.getLast? = some last ∧ (last.id = id1 ∨ last.id = id2)) :
    (start id1 id2 docs).C = common (linieOf docs id1) (linieOf docs id2) ∧
      ∃ n, (start id1 id2 docs).OneWalk n := by
  have lines : ∀ {id : ℤ}, ∀ doc ∈ docs, doc.id = id → doc.linie = linieOf docs id := by
    rintro id doc hdoc rfl
    exact (linieOf_eq hnd hdoc).symm
  by_cases hk : common (linieOf docs id1) (linieOf docs id2) = []
  · have hi := (idle_onPrzystanki hk lines lines).2
    exact ⟨hi.C.trans hk.symm, 0, hi.oneWalk⟩
  obtain ⟨last, hget, hid⟩ := hlast.resolve_left hk
  obtain ⟨pre, rfl⟩ := List.getLast?_eq_some_iff.1 hget
  have hnew : ∀ p ∈ pre, p.id ≠ last.id := fun p hp he => by
    rw [List.map_append, List.nodup_append] at hnd
    exact hnd.2.2 _ (List.mem_map_of_mem hp) _ (by simp) he
  -- before the last document one of the sides is missing
  obtain ⟨hz, hi⟩ : (start id1 id2 pre).zrobione = false ∧ (start id1 id2 pre).Idle := by
    refine idle_of_unseen (hnd.sublist ((List.sublist_append_left _ _).map _)) ?_
    rcases hid with h | h
    · exact .inl (h ▸ hnew)
    · exact .inr (h ▸ hnew)
  obtain ⟨hg, hA, hB⟩ := guard_last hnd hk hz
  have hC : ((start id1 id2 pre).assign id1 id2 last).C = [] := by
    rw [assign_eq]
    exact hi.C
  rw [start_snoc, onPrzystanek, if_pos hg]
  rcases enter_cases ((start id1 id2 pre).assign id1 id2 last) with ⟨line, hline, he⟩ | ⟨hnil, -⟩
  · rw [hC, List.nil_append, hA, hB] at hline he
    rw [he]
    refine ⟨rfl, 1, ⟨?_, .inr ⟨0, ?_, rfl, ?_⟩⟩⟩
    · rw [take_succ_product hline]
      simp [assign_eq, hi.issued, RouteRead.path]
    · simp [assign_eq, hi.cursors]
    · exact (List.getElem?_eq_some_iff.1 hline).1
  · rw [hC, List.nil_append, hA, hB] at hnil
    exact absurd hnil hk

/-- **Each route is read once, in every order of the waits, exactly if the stops have no line in
common or one of them is the last document of the snapshot.**  Otherwise the closures of the
documents behind the later stop read everything again. -/
theorem fetchesOnce_iff (docs : List Przystanek) (id1 id2 : ℤ) (hnd : (docs.map (·.id)).Nodup)
    (hlinie : ∀ doc ∈ docs, doc.linie.Nodup) :
    FetchesOnce id1 id2 docs ↔ common (linieOf docs id1) (linieOf docs id2) = [] ∨
      ∃ last, docs.getLast? = some last ∧ (last.id = id1 ∨ last.id = id2) := by
  constructor
  · intro h
    by_contra hcon
    obtain ⟨hk, hlast⟩ := not_or.1 hcon
    cases docs using List.reverseRecOn with
    | nil => exact hk rfl
    | append_singleton pre last =>
      have hid : last.id ≠ id1 ∧ last.id ≠ id2 := by
        simpa using hlast
      have hask : (start id1 id2 pre).Asked := by
        refine asked_onPrzystanki hk ?_ ?_
        · rintro doc hdoc rfl
          exact (linieOf_eq hnd (List.mem_append_left _ hdoc)).symm
        · rintro doc hdoc rfl
          exact (linieOf_eq hnd (List.mem_append_left _ hdoc)).symm
      have hassign : (start id1 id2 pre).assign id1 id2 last = start id1 id2 pre := by
        rw [assign_eq, if_neg hid.1, if_neg hid.2]
      obtain ⟨hg, -, -⟩ := guard_last hnd hk hask.zrobione
      refine absurd (h _ (.refl _)).1 ?_
      rw [start_snoc, onPrzystanek, if_pos hg, hassign]
      exact hask.not_nodup_enter (hassign ▸ hg)
  · intro hlast c hr
    obtain ⟨hC, n, hw⟩ := oneWalk_start hnd hlast
    obtain ⟨hC', m, hw'⟩ := hw.of_reachable hr
    refine ⟨hw'.nodup_paths ?_, fun hf => ?_⟩
    · rw [hC', hC]
      have nodup : ∀ id, (linieOf docs id).Nodup := fun id => by
        by_cases hnil : linieOf docs id = []
        · rw [hnil]
          exact .nil
        · obtain ⟨p, hp, rfl⟩ := exists_of_linieOf_ne_nil hnil
          rw [linieOf_eq hnd hp]
          exact hlinie p hp
      exact nodup_common (nodup id1) (nodup id2)
    · rw [hw'.issued_length hf, hC', hC]

/-- With the second stop at the end of the snapshot no route is read twice. -/
theorem fetchesOnce_at_end : FetchesOnce 10 20
    [⟨"3", 30, "Park", 1, 1, []⟩, ⟨"1", 10, "Dworzec", 0, 0, ["1"]⟩,
      ⟨"2", 20, "Ratusz", 0, 1, ["1"]⟩] :=
  (fetchesOnce_iff _ 10 20 (by decide) (by decide)).2 (.inr ⟨_, rfl, .inr rfl⟩)

/-- A third stop behind the two selected ones has the reads of their line issued twice. -/
theorem fetchesOnce_violated : ¬ ∀ (docs : List Przystanek) (id1 id2 : ℤ),
    (docs.map (·.id)).Nodup → (∀ doc ∈ docs, doc.linie.Nodup) → FetchesOnce id1 id2 docs := by
  intro h
  have := h [⟨"1", 10, "Dworzec", 0, 0, ["1"]⟩, ⟨"2", 20, "Ratusz", 0, 1, ["1"]⟩,
    ⟨"3", 30, "Park", 1, 1, []⟩] 10 20 (by decide) (by decide) _ (.refl _)
  exact absurd this.1 (by decide)

/-! ### The runs of the page -/

/-- The runs have issued the same reads and stand at the same places of `C`; the answers that came
in, and the index variables, may differ. -/
def SameWalk (c c' : Calculation) : Prop :=
  { c with vars := {}, pending := [] } = { c' with vars := {}, pending := [] }

variable {d : Calculation}

theorem SameWalk.exists_eq (h : c.SameWalk d) :
    ∃ vars pending, d = { c with vars := vars, pending := pending } := by
  refine ⟨d.vars, d.pending, ?_⟩
  simp only [SameWalk, mk.injEq, true_and, and_true] at h
  obtain ⟨hA, hB, hC, hz, hw, hcur, hi⟩ := h
  rw [hA, hB, hC, hz, hw, hcur, hi]

theorem SameWalk.resume (h : c.SameWalk d) (hr : c.resume k = some c') :
    ∃ e, d.resume k = some e ∧ c'.SameWalk e := by
  obtain ⟨vars, pending, rfl⟩ := h.exists_eq
  obtain ⟨i, hi, ⟨line, hline, rfl⟩ | ⟨hline, rfl⟩⟩ := resume_cases hr
  · exact ⟨_, resume_of_some hi hline, rfl⟩
  · exact ⟨_, resume_of_none hi hline, rfl⟩

theorem SameWalk.enter (h : c.SameWalk d) : c.enter.SameWalk d.enter := by
  obtain ⟨vars, pending, rfl⟩ := h.exists_eq
  unfold Calculation.enter
  cases hC : (c.C ++ common c.A c.B)[0]? with
  | some line => simp only [SameWalk, iterate, hC, issue, List.foldl_cons, List.foldl_nil]
  | none => simp only [SameWalk, iterate, hC]

theorem SameWalk.onPrzystanek (h : c.SameWalk d) :
    (c.onPrzystanek id1 id2 doc).SameWalk (d.onPrzystanek id1 id2 doc) := by
  obtain ⟨vars, pending, rfl⟩ := h.exists_eq
  have ha : (c.assign id1 id2 doc).SameWalk
      (assign id1 id2 { c with vars := vars, pending := pending } doc) := by
    rw [assign_eq, assign_eq]
    rfl
  have hg : Guard (assign id1 id2 { c with vars := vars, pending := pending } doc) ↔
      (c.assign id1 id2 doc).Guard := by
    rw [assign_eq, assign_eq]
    rfl
  unfold Calculation.onPrzystanek
  dsimp only
  by_cases h' : (c.assign id1 id2 doc).Guard
  · rw [if_pos h', if_pos (hg.2 h')]
    exact ha.enter
  · rw [if_neg h', if_neg (hg.not.2 h')]
    exact ha

theorem SameWalk.onPrzystanki (h : c.SameWalk d) (docs : List Przystanek) :
    (c.onPrzystanki id1 id2 docs).SameWalk (d.onPrzystanki id1 id2 docs) := by
  induction docs generalizing c d with
  | nil => exact h
  | cons doc docs ih => exact ih h.onPrzystanek

theorem Fresh.sameWalk (h : c.Fresh) : SameWalk { c with waiting := false } {} := by
  simp only [SameWalk, h.A, h.B, h.C, h.zrobione, h.cursors, h.issued]

/-- The run has not read any document, or it is a run of `lts` from the answer to its read of
`Przystanki` on. -/
def Walks (db : Firestore) (c : Calculation) : Prop :=
  c.Fresh ∨ ∃ id1 id2 docs d, docs.Perm db.przystanki ∧
    lts.Reachable (start id1 id2 docs) d ∧ c.SameWalk d

variable {db : Firestore}

theorem Walks.resume (h : c.Walks db) (hr : c.resume k = some c') : c'.Walks db := by
  rcases h with hf | ⟨id1, id2, docs, d, hdocs, hreach, hs⟩
  · obtain ⟨i, hi, -⟩ := resume_cases hr
    simp [hf.cursors] at hi
  · obtain ⟨d', hd', hs'⟩ := hs.resume hr
    exact .inr ⟨id1, id2, docs, d', hdocs, hreach.tail hd', hs'⟩

theorem Walks.answer {r : RouteRead} (h : c.Walks db) (hr : r ∈ c.pending) (vars : IndexVars) :
    Walks db { c with pending := c.pending.erase r, vars := vars } := by
  rcases h with hf | ⟨id1, id2, docs, d, hdocs, hreach, hs⟩
  · simp [hf.pending] at hr
  · exact .inr ⟨id1, id2, docs, d, hdocs, hreach, hs⟩

theorem Walks.effect (h : c.Walks db) (hok : c.Ok) (he : c.Effect db c') : c'.Walks db := by
  cases he with
  | stops id1 id2 docs hw hdocs =>
    exact .inr ⟨id1, id2, docs, _, hdocs, .refl _, (hok.fresh hw).sameWalk.onPrzystanki docs⟩
  | stopsUnset hw => exact .inl (hok.fresh hw).answered
  | wait m c' hr => exact h.resume hr
  | answer r vars hr => exact h.answer hr vars

end Calculation

namespace HomePage

variable {db : Firestore} {s t : HomePage} {e : Event}

/-- **Every run of the page is one of those counted**: what it issues, and where its closures stand,
is that of a run of `Calculation.lts`. -/
theorem walks_of_reachable (h : (lts db).Reachable initial s) :
    ∀ c ∈ s.calculations, c.Walks db := by
  refine (h.invariant (I := fun s => s.Inv ∧ ∀ c ∈ s.calculations, c.Walks db)
    ⟨inv_initial, fun c hc => ?_⟩ ?_).2
  · exact List.mem_singleton.1 hc ▸ .inl (Calculation.fresh_new _)
  · intro t e t' ⟨hinv, ht⟩ hst
    refine ⟨inv_step hinv hst, (effect_of_step hinv.mounted hst).forall_calculations ht ?_ ?_⟩
    · exact fun _ => .inl (Calculation.fresh_new _)
    · exact fun c hc c' hc' => (ht c hc).effect (hinv.ok c hc) hc'

end HomePage

end MapaZimSlupsk
