import MapaZimSlupsk.Fold.LastSeen
import MapaZimSlupsk.Home.Route
import Mathlib.Data.Finset.Max

/-!
# Routes that visit a stop more than once

On a loop line an answer may hold several documents of one stop, in no fixed order.  The handler
remembers only the last place it saw of each stop and makes its test after every document.

* `NoticedPair` : two documents in the right order of their places between which, in the order of
  the answer, no further document of the earlier one's stop stands.
* `passes_reset_iff` : from cleared index variables the test succeeds at some document exactly if
  there is a noticed pair.
* `mem_handleRoute_iff_goes` : **main result**: a new line is listed exactly if the route goes
  from the first stop to the second, provided there is a noticed pair or the route does not.
* `missed_pair` : a route with a pair in the right order that no test notices.
* `mem_handleRoute_every_order_iff` : the line is listed whatever the order of the answer exactly if
  every visit of the first stop is followed by one of the second, and every visit of the second
  preceded by one of the first.
-/

namespace MapaZimSlupsk

open IndexVars

variable {id1 id2 : ℤ} {j : ℕ} {v : IndexVars} {docs : List RouteStop}

/-- A document of each stop, the places in the right order, such that the document that the answer
lists first is the last one of its stop up to the other: the handler still remembers it there. -/
def NoticedPair (docs : List RouteStop) (id1 id2 : ℤ) : Prop :=
  ∃ pre a mid b post, docs = pre ++ a :: (mid ++ b :: post) ∧ (∀ d ∈ mid ++ [b], d.id ≠ a.id) ∧
    (a.id = toString id1 ∧ b.id = toString id2 ∧ a.l < b.l ∨
      a.id = toString id2 ∧ b.id = toString id1 ∧ b.l < a.l)

theorem NoticedPair.goes (h : NoticedPair docs id1 id2) : Goes docs id1 id2 := by
  obtain ⟨pre, a, mid, b, post, rfl, -, ⟨ha, hb, hlt⟩ | ⟨ha, hb, hlt⟩⟩ := h
  · exact ⟨a, by simp, b, by simp, ha, hb, hlt⟩
  · exact ⟨b, by simp, a, by simp, hb, ha, hlt⟩

/-- Cleared index variables that match hold places of the documents handled. -/
theorem exists_last_of_matches {part : List RouteStop}
    (hm : (v.reset.recordAll id1 id2 j part).Matches) :
    (∃ u a w, part = u ++ a :: w ∧ a.id = toString id1 ∧ (∀ d ∈ w, d.id ≠ toString id1) ∧
      (v.reset.recordAll id1 id2 j part).first = (a.l, j)) ∧
    ∃ u b w, part = u ++ b :: w ∧ b.id = toString id2 ∧ (∀ d ∈ w, d.id ≠ toString id2) ∧
      (v.reset.recordAll id1 id2 j part).second = (b.l, j) := by
  obtain ⟨-, h1, h2, -⟩ := hm
  constructor
  · rcases Fold.exists_last_or (fun d : RouteStop => d.id = toString id1) part with
      ⟨u, a, w, rfl, ha, hw⟩ | hno
    · exact ⟨u, a, w, rfl, ha, hw, first_of_last ha hw u v.reset⟩
    · exact absurd (congrArg Prod.fst (first_of_forall_ne hno v.reset)) h1
  · rcases Fold.exists_last_or (fun d : RouteStop => d.id = toString id2) part with
      ⟨u, b, w, rfl, hb, hw⟩ | hno
    · exact ⟨u, b, w, rfl, hb, hw, second_of_last hb hw u v.reset⟩
    · exact absurd (congrArg Prod.fst (second_of_forall_ne hno v.reset)) h2

/-- A successful test notices a pair. -/
theorem noticedPair_of_passes (h : Passes id1 id2 j v.reset docs) : NoticedPair docs id1 id2 := by
  obtain ⟨pre, doc, rest, rfl, hm⟩ := passes_iff.1 h
  obtain ⟨⟨u, a, w, hu, ha, hw, h1⟩, u', b, w', hu', hb, hw', h2⟩ := exists_last_of_matches hm
  have hlt : a.l < b.l := by
    simp only [first, second, Prod.mk.injEq] at h1 h2
    rw [← h1.1, ← h2.1]
    exact hm.1
  rw [List.append_cons]
  -- which of the two documents the answer lists first
  rcases Fold.append_cons_cases (hu.symm.trans hu') with
    ⟨rfl, -⟩ | ⟨mid, rfl, -⟩ | ⟨mid, rfl, -⟩
  · exact absurd hlt (lt_irrefl _)
  · refine ⟨u, a, mid, b, w' ++ rest, by simp [hu], ?_, .inl ⟨ha, hb, hlt⟩⟩
    intro d hd
    exact ha ▸ hw d (by simpa [or_assoc] using List.mem_append_left w' hd)
  · refine ⟨u', b, mid, a, w ++ rest, by simp [hu'], ?_, .inr ⟨hb, ha, hlt⟩⟩
    intro d hd
    exact hb ▸ hw' d (by simpa [or_assoc] using List.mem_append_left w hd)

/-- A noticed pair passes the test at its later document. -/
theorem passes_of_noticedPair (hl : ∀ p ∈ docs, 1 ≤ p.l) (hj : j ≠ 0)
    (h : NoticedPair docs id1 id2) : Passes id1 id2 j v docs := by
  obtain ⟨pre, a, mid, b, post, rfl, hno, hab⟩ := h
  have hla := hl a (by simp)
  have hlb := hl b (by simp)
  refine passes_iff.2 ⟨pre ++ a :: mid, b, post, by simp, ?_⟩
  have hpart : (pre ++ a :: mid) ++ [b] = pre ++ a :: (mid ++ [b]) := by simp
  rcases hab with ⟨ha, hb, hlt⟩ | ⟨ha, hb, hlt⟩
  · have h1 : (v.recordAll id1 id2 j (pre ++ a :: mid ++ [b])).first = (a.l, j) := by
      rw [hpart]
      exact first_of_last ha (fun d hd => ha ▸ hno d hd) pre v
    have h2 : (v.recordAll id1 id2 j (pre ++ a :: mid ++ [b])).second = (b.l, j) :=
      second_of_last hb (List.forall_mem_nil _) (pre ++ a :: mid) v
    simp only [first, second, Prod.mk.injEq] at h1 h2
    exact ⟨by omega, by omega, by omega, by omega, by omega, by omega⟩
  · have h1 : (v.recordAll id1 id2 j (pre ++ a :: mid ++ [b])).first = (b.l, j) :=
      first_of_last hb (List.forall_mem_nil _) (pre ++ a :: mid) v
    have h2 : (v.recordAll id1 id2 j (pre ++ a :: mid ++ [b])).second = (a.l, j) := by
      rw [hpart]
      exact second_of_last ha (fun d hd => ha ▸ hno d hd) pre v
    simp only [first, second, Prod.mk.injEq] at h1 h2
    exact ⟨by omega, by omega, by omega, by omega, by omega, by omega⟩

/-- **What the handler notices** of an answer handled from cleared index variables. -/
theorem passes_reset_iff (hl : ∀ p ∈ docs, 1 ≤ p.l) (hj : j ≠ 0) :
    Passes id1 id2 j v.reset docs ↔ NoticedPair docs id1 id2 :=
  ⟨noticedPair_of_passes, passes_of_noticedPair hl hj⟩

/-- An answer lists a new line exactly if its test succeeds at some document. -/
theorem mem_handleRoute_iff_passes {line : String} {n : ℤ} (hn : intParse line = some n)
    {h : HandlerState} (hD : n ∉ h.D) :
    n ∈ (handleRoute true id1 id2 j line h docs).D ↔ Passes id1 id2 j h.vars docs := by
  constructor
  · intro hmem
    rcases handleRoute_D_cases hn id1 id2 j docs h with he | ⟨-, hp, -⟩
    · exact absurd (he ▸ hmem) hD
    · exact hp
  · exact mem_handleRoute_of_passes hn

/-- **Loop lines.**  An answer handled from cleared index variables lists its line exactly if the
route goes from the first stop to the second, unless it does but no pair of its documents in the
right order is a noticed one. -/
theorem mem_handleRoute_iff_goes {line : String} {n : ℤ} (hn : intParse line = some n)
    (hj : j = 1 ∨ j = 2) (hl : ∀ p ∈ docs, 1 ≤ p.l) (id1 id2 : ℤ) (v : IndexVars) (D : List ℤ)
    (late : ℕ) (hD : n ∉ D) :
    (n ∈ (handleRoute true id1 id2 j line ⟨v.reset, D, late⟩ docs).D ↔ Goes docs id1 id2) ↔
      NoticedPair docs id1 id2 ∨ ¬ Goes docs id1 id2 := by
  rw [mem_handleRoute_iff_passes hn hD, passes_reset_iff hl (by omega)]
  constructor
  · intro h
    by_cases hg : Goes docs id1 id2
    · exact .inl (h.2 hg)
    · exact .inr hg
  · rintro (hp | hg)
    · exact ⟨fun _ => hp.goes, fun _ => hp⟩
    · exact ⟨fun hp => hp.goes, fun hg' => absurd hg' hg⟩

/-- The stop 10 is passed twice, on both sides of the stop 20. -/
def loopLine : List RouteStop :=
  [⟨"10", 1, "Dworzec"⟩, ⟨"20", 2, "Ratusz"⟩, ⟨"10", 3, "Dworzec"⟩]

/-- In the order of the places the pair is noticed. -/
theorem mem_handleRoute_loopLine :
    (5 ∈ (handleRoute true 10 20 1 "5" ⟨IndexVars.reset {}, [], 0⟩ loopLine).D ↔
        Goes loopLine 10 20) ↔
      NoticedPair loopLine 10 20 ∨ ¬ Goes loopLine 10 20 :=
  mem_handleRoute_iff_goes (by decide) (.inl rfl) (by decide) 10 20 {} [] 0 (by decide)

/-- **A missed pair**: the second document of the stop 10 hides the first one before the stop 20
is seen. -/
theorem missed_pair :
    let docs : List RouteStop :=
      [⟨"10", 1, "Dworzec"⟩, ⟨"10", 3, "Dworzec"⟩, ⟨"20", 2, "Ratusz"⟩]
    ¬ (5 ∈ (handleRoute true 10 20 1 "5" ⟨IndexVars.reset {}, [], 0⟩ docs).D ↔
        Goes docs 10 20) := by
  intro docs h
  have hg : Goes docs 10 20 :=
    ⟨⟨"10", 1, "Dworzec"⟩, by simp [docs], ⟨"20", 2, "Ratusz"⟩, by simp [docs], rfl, rfl,
      by decide⟩
  exact absurd (h.2 hg) (by decide)

/-! ### Answers in any order -/

theorem NoticedPair.ne (h : NoticedPair docs id1 id2) : toString id1 ≠ toString id2 := by
  obtain ⟨pre, a, mid, b, post, -, hno, ⟨ha, hb, -⟩ | ⟨ha, hb, -⟩⟩ := h
  · exact fun he => hno b (by simp) (by rw [hb, ha, he])
  · exact fun he => hno b (by simp) (by rw [hb, ha, he])

/-- The noticed pairs are those of a loop that remembers the last document of each stop. -/
theorem noticedPair_iff_seen (hne : toString id1 ≠ toString id2) : NoticedPair docs id1 id2 ↔
    Fold.Seen (fun d : RouteStop => d.id = toString id1) (fun d => d.id = toString id2)
        (fun a b => a.l < b.l) docs ∨
      Fold.Seen (fun d : RouteStop => d.id = toString id2) (fun d => d.id = toString id1)
        (fun a b => b.l < a.l) docs := by
  constructor
  · rintro ⟨pre, a, mid, b, post, rfl, hno, ⟨ha, hb, hlt⟩ | ⟨ha, hb, hlt⟩⟩
    · exact .inl ⟨pre, a, mid, b, post, rfl, ha, hb,
        fun d hd => ha ▸ hno d (List.mem_append_left _ hd), hlt⟩
    · exact .inr ⟨pre, a, mid, b, post, rfl, ha, hb,
        fun d hd => ha ▸ hno d (List.mem_append_left _ hd), hlt⟩
  · rintro (⟨pre, a, mid, b, post, rfl, ha, hb, hno, hlt⟩ |
      ⟨pre, a, mid, b, post, rfl, ha, hb, hno, hlt⟩)
    · refine ⟨pre, a, mid, b, post, rfl, fun d hd => ?_, .inl ⟨ha, hb, hlt⟩⟩
      rcases List.mem_append.1 hd with hd | hd
      · exact ha.symm ▸ hno d hd
      · rw [List.mem_singleton.1 hd, ha, hb]
        exact hne.symm
    · refine ⟨pre, a, mid, b, post, rfl, fun d hd => ?_, .inr ⟨ha, hb, hlt⟩⟩
      rcases List.mem_append.1 hd with hd | hd
      · exact ha.symm ▸ hno d hd
      · rw [List.mem_singleton.1 hd, ha, hb]
        exact hne

/-- Every visit of the first stop is followed by one of the second, and every visit of the second
preceded by one of the first. -/
structure Brackets (docs : List RouteStop) (id1 id2 : ℤ) : Prop where
  visited : ∃ p ∈ docs, p.id = toString id1
  followed : ∀ p ∈ docs, p.id = toString id1 → ∃ q ∈ docs, q.id = toString id2 ∧ p.l < q.l
  preceded : ∀ q ∈ docs, q.id = toString id2 → ∃ p ∈ docs, p.id = toString id1 ∧ p.l < q.l

/-- The last visit of all is one of the second stop. -/
theorem Brackets.exists_last (h : Brackets docs id1 id2) :
    ∃ q ∈ docs, q.id = toString id2 ∧ ∀ p ∈ docs, p.id = toString id1 → p.l < q.l := by
  obtain ⟨p₀, hp₀, hid₀⟩ := h.visited
  obtain ⟨p, hp, hmax⟩ := (docs.toFinset.filter (·.id = toString id1)).exists_max_image
    (·.l) ⟨p₀, by simp [hp₀, hid₀]⟩
  simp only [Finset.mem_filter, List.mem_toFinset] at hp hmax
  obtain ⟨q, hq, hqid, hlt⟩ := h.followed p hp.1 hp.2
  exact ⟨q, hq, hqid, fun p' hp' hid => (hmax p' ⟨hp', hid⟩).trans_lt hlt⟩

/-- The first visit of all is one of the first stop. -/
theorem Brackets.exists_first (h : Brackets docs id1 id2) :
    ∃ p ∈ docs, p.id = toString id1 ∧ ∀ q ∈ docs, q.id = toString id2 → p.l < q.l := by
  obtain ⟨p₀, hp₀, hid₀⟩ := h.visited
  obtain ⟨q₀, hq₀, hqid₀, -⟩ := h.followed p₀ hp₀ hid₀
  obtain ⟨q, hq, hmin⟩ := (docs.toFinset.filter (·.id = toString id2)).exists_min_image
    (·.l) ⟨q₀, by simp [hq₀, hqid₀]⟩
  simp only [Finset.mem_filter, List.mem_toFinset] at hq hmin
  obtain ⟨p, hp, hpid, hlt⟩ := h.preceded q hq.1 hq.2
  exact ⟨p, hp, hpid, fun q' hq' hid => hlt.trans_le (hmin q' ⟨hq', hid⟩)⟩

theorem Brackets.perm {docs' : List RouteStop} (h : Brackets docs id1 id2)
    (hp : docs'.Perm docs) : Brackets docs' id1 id2 := by
  obtain ⟨hv, hf, hpr⟩ := h
  simp only [← hp.mem_iff] at hv hf hpr
  exact ⟨hv, hf, hpr⟩

/-- A route that starts at the first stop and ends at the second is noticed. -/
theorem Brackets.noticedPair (h : Brackets docs id1 id2) : NoticedPair docs id1 id2 := by
  obtain ⟨q, hq, hqid, hlast⟩ := h.exists_last
  obtain ⟨p, hp, hpid, hfirst⟩ := h.exists_first
  have hne : toString id1 ≠ toString id2 := fun he =>
    lt_irrefl _ (hlast q hq (hqid.trans he.symm))
  rw [noticedPair_iff_seen hne]
  obtain ⟨u, w, rfl⟩ := List.append_of_mem hq
  rcases List.mem_append.1 hp with hpu | hpw
  · refine .inl (Fold.seen_of_forall_rel hqid ⟨p, hpu, hpid⟩ fun a ha => ?_)
    exact hlast a (List.mem_append_left _ ha)
  · rcases List.mem_cons.1 hpw with rfl | hpw
    · exact absurd (hpid.symm.trans hqid) hne
    · obtain ⟨w₁, w₂, rfl⟩ := List.append_of_mem hpw
      have hsplit : u ++ q :: (w₁ ++ p :: w₂) = (u ++ q :: w₁) ++ p :: w₂ := by simp
      rw [hsplit] at hfirst ⊢
      refine .inr (Fold.seen_of_forall_rel hpid ⟨q, by simp, hqid⟩ fun a ha => ?_)
      exact hfirst a (List.mem_append_left _ ha)

/-- **Routes noticed in every order.** -/
theorem forall_perm_noticedPair_iff :
    (∀ docs' : List RouteStop, docs'.Perm docs → NoticedPair docs' id1 id2) ↔
      Brackets docs id1 id2 := by
  constructor
  · intro h
    have hself := h docs (List.Perm.refl docs)
    have hne := hself.ne
    have hseen := fun docs' hp => (noticedPair_iff_seen hne).1 (h docs' hp)
    obtain ⟨p₀, hp₀, -, -, hid₀, -⟩ := hself.goes
    refine ⟨⟨p₀, hp₀, hid₀⟩, fun p hp hid => ?_, fun q hq hid => ?_⟩
    · exact Fold.exists_rel_of_forall_perm (fun d h1 h2 => hne (h1.symm.trans h2)) hseen hp hid
    · exact Fold.exists_rel_of_forall_perm (fun d h2 h1 => hne (h1.symm.trans h2))
        (fun docs' hp => (hseen docs' hp).symm) hq hid
  · exact fun h docs' hp => (h.perm hp).noticedPair

/-- **The line is listed in whatever order the answer comes** exactly if every visit of the first
stop is followed by one of the second and every visit of the second preceded by one of the
first. -/
theorem mem_handleRoute_every_order_iff {line : String} {n : ℤ} (hn : intParse line = some n)
    (hj : j = 1 ∨ j = 2) (hl : ∀ p ∈ docs, 1 ≤ p.l) (id1 id2 : ℤ) (v : IndexVars) (D : List ℤ)
    (late : ℕ) (hD : n ∉ D) :
    (∀ docs' : List RouteStop, docs'.Perm docs →
        n ∈ (handleRoute true id1 id2 j line ⟨v.reset, D, late⟩ docs').D) ↔
      Brackets docs id1 id2 := by
  rw [← forall_perm_noticedPair_iff]
  refine forall_congr' fun docs' => forall_congr' fun hp => ?_
  rw [mem_handleRoute_iff_passes hn hD]
  exact passes_reset_iff (fun d hd => hl d (hp.subset hd)) (by omega)

theorem mem_handleRoute_every_order_loopLine :
    (∀ docs' : List RouteStop, docs'.Perm loopLine →
        5 ∈ (handleRoute true 10 20 1 "5" ⟨IndexVars.reset {}, [], 0⟩ docs').D) ↔
      Brackets loopLine 10 20 :=
  mem_handleRoute_every_order_iff (by decide) (.inl rfl) (by decide) 10 20 {} [] 0 (by decide)

end MapaZimSlupsk
