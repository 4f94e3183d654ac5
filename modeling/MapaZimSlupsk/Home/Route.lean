import MapaZimSlupsk.Fold.LastWrite
import MapaZimSlupsk.Home.Handler

/-!
# What one answer can match

An index variable holds either the place of a stop in the answer being handled or a value left
over from an earlier answer.  This file separates the two:

* `goes_or_leftover_of_passes` : the test holds after some document only if the route itself goes
  from the first stop to the second (`Goes`), or a left-over index takes part (`Leftover`).
* `passes_of_goes` : a route that goes from the first stop to the second is never missed, whatever
  is left over, when no stop occurs twice on it.
* `lineShown_iff` : **direction isolation**: the answers for the two directions of one line never
  combine, although nothing is reset between them.
-/

namespace MapaZimSlupsk

open IndexVars

variable {id1 id2 : ℤ} {j : ℕ} {v : IndexVars} {docs : List RouteStop}

/-! ### Left-over indices -/

/-- An index left over from an earlier answer takes part in a successful test: both do, before
any document of either stop; or the one of the first stop does, together with a document of the
second; or the other way round. -/
def Leftover (id1 id2 : ℤ) (j : ℕ) (v : IndexVars) (docs : List RouteStop) : Prop :=
  (∃ doc rest, docs = doc :: rest ∧ doc.id ≠ toString id1 ∧ doc.id ≠ toString id2 ∧ v.Matches) ∨
  (∃ pre doc rest, docs = pre ++ doc :: rest ∧ (∀ p ∈ pre ++ [doc], p.id ≠ toString id1) ∧
    doc.id = toString id2 ∧ (v.record id1 id2 j doc).Matches) ∨
  (∃ pre doc rest, docs = pre ++ doc :: rest ∧ (∀ p ∈ pre ++ [doc], p.id ≠ toString id2) ∧
    doc.id = toString id1 ∧ (v.record id1 id2 j doc).Matches)

/-- The test holds at some document exactly if it holds after some non-empty part of the answer. -/
theorem passes_iff : Passes id1 id2 j v docs ↔
    ∃ pre doc rest, docs = pre ++ doc :: rest ∧ (v.recordAll id1 id2 j (pre ++ [doc])).Matches := by
  constructor
  · intro h
    induction docs generalizing v with
    | nil => exact h.elim
    | cons d docs ih =>
      rcases h with h | h
      · exact ⟨[], d, docs, rfl, h⟩
      · obtain ⟨pre, doc, rest, rfl, hm⟩ := ih h
        exact ⟨d :: pre, doc, rest, rfl, hm⟩
  · rintro ⟨pre, doc, rest, rfl, hm⟩
    induction pre generalizing v with
    | nil => exact .inl hm
    | cons d pre ih => exact .inr (ih hm)

/-- The place of the first stop is that of its last document. -/
theorem first_of_last {a : RouteStop} (ha : a.id = toString id1) {w : List RouteStop}
    (hw : ∀ d ∈ w, d.id ≠ toString id1) (u : List RouteStop) (v : IndexVars) :
    (v.recordAll id1 id2 j (u ++ a :: w)).first = (a.l, j) :=
  Fold.foldl_of_last first_record_of_eq first_record_of_ne ha hw u v

/-- The place of the second stop is that of its last document. -/
theorem second_of_last {b : RouteStop} (hb : b.id = toString id2) {w : List RouteStop}
    (hw : ∀ d ∈ w, d.id ≠ toString id2) (u : List RouteStop) (v : IndexVars) :
    (v.recordAll id1 id2 j (u ++ b :: w)).second = (b.l, j) :=
  Fold.foldl_of_last second_record_of_eq second_record_of_ne hb hw u v

/-- Without a document of the first stop its place stays. -/
theorem first_of_forall_ne (h : ∀ d ∈ docs, d.id ≠ toString id1) (v : IndexVars) :
    (v.recordAll id1 id2 j docs).first = v.first :=
  Fold.foldl_of_forall_not first_record_of_ne h v

/-- Without a document of the second stop its place stays. -/
theorem second_of_forall_ne (h : ∀ d ∈ docs, d.id ≠ toString id2) (v : IndexVars) :
    (v.recordAll id1 id2 j docs).second = v.second :=
  Fold.foldl_of_forall_not second_record_of_ne h v

/-- Where the place of the first stop comes from. -/
theorem first_recordAll (id1 id2 : ℤ) (j : ℕ) (docs : List RouteStop) (v : IndexVars) :
    (∃ p ∈ docs, p.id = toString id1 ∧ (v.recordAll id1 id2 j docs).first = (p.l, j)) ∨
      ((∀ p ∈ docs, p.id ≠ toString id1) ∧ (v.recordAll id1 id2 j docs).first = v.first) :=
  Fold.foldl_last_write first_record_of_eq first_record_of_ne docs v

/-- Where the place of the second stop comes from. -/
theorem second_recordAll (id1 id2 : ℤ) (j : ℕ) (docs : List RouteStop) (v : IndexVars) :
    (∃ q ∈ docs, q.id = toString id2 ∧ (v.recordAll id1 id2 j docs).second = (q.l, j)) ∨
      ((∀ q ∈ docs, q.id ≠ toString id2) ∧ (v.recordAll id1 id2 j docs).second = v.second) :=
  Fold.foldl_last_write second_record_of_eq second_record_of_ne docs v

/-- **A match comes from the route itself or from a left-over index.** -/
theorem goes_or_leftover_of_passes (h : Passes id1 id2 j v docs) :
    Goes docs id1 id2 ∨ Leftover id1 id2 j v docs := by
  obtain ⟨pre, doc, rest, rfl, hm⟩ := passes_iff.1 h
  have hsub : ∀ p ∈ pre ++ [doc], p ∈ pre ++ doc :: rest := fun p hp => by
    rw [List.append_cons]
    exact List.mem_append_left _ hp
  rcases first_recordAll id1 id2 j (pre ++ [doc]) v with
    ⟨p, hp, hpid, h1⟩ | ⟨hno1, h1⟩ <;>
  rcases second_recordAll id1 id2 j (pre ++ [doc]) v with
    ⟨q, hq, hqid, h2⟩ | ⟨hno2, h2⟩
  · -- both places are of this answer
    refine .inl ⟨p, hsub p hp, q, hsub q hq, hpid, hqid, ?_⟩
    simp only [first, second, Prod.mk.injEq] at h1 h2
    rw [← h1.1, ← h2.1]
    exact hm.1
  · -- the place of the second stop is left over
    obtain ⟨u, w, huw⟩ := List.append_of_mem hp
    refine .inr (.inr (.inr ⟨u, p, w ++ rest, ?_, ?_, hpid, ?_⟩))
    · rw [List.append_cons pre doc rest, huw]
      simp
    · intro x hx
      refine hno2 x (huw ▸ ?_)
      rw [List.append_cons]
      exact List.mem_append_left _ hx
    · refine (matches_congr ?_ ?_).1 hm
      · rw [h1, first_record_of_eq v p hpid]
      · rw [h2, second_record_of_ne v p (hno2 p hp)]
  · -- the place of the first stop is left over
    obtain ⟨u, w, huw⟩ := List.append_of_mem hq
    refine .inr (.inr (.inl ⟨u, q, w ++ rest, ?_, ?_, hqid, ?_⟩))
    · rw [List.append_cons pre doc rest, huw]
      simp
    · intro x hx
      refine hno1 x (huw ▸ ?_)
      rw [List.append_cons]
      exact List.mem_append_left _ hx
    · refine (matches_congr ?_ ?_).1 hm
      · rw [h1, first_record_of_ne v q (hno1 q hq)]
      · rw [h2, second_record_of_eq v q hqid]
  · -- both are: the answer starts with a document of neither stop
    have hm' := (matches_congr h1 h2).1 hm
    cases pre with
    | nil => exact .inr (.inl ⟨doc, rest, rfl, hno1 doc (by simp), hno2 doc (by simp), hm'⟩)
    | cons d pre =>
      exact .inr (.inl ⟨d, pre ++ doc :: rest, rfl, hno1 d (by simp), hno2 d (by simp), hm'⟩)

/-- A left-over index that takes part in a successful test does make the test hold. -/
theorem passes_of_leftover (h : Leftover id1 id2 j v docs) : Passes id1 id2 j v docs := by
  rcases h with ⟨doc, rest, rfl, h1, h2, hm⟩ | ⟨pre, doc, rest, rfl, hno, hid, hm⟩ |
    ⟨pre, doc, rest, rfl, hno, hid, hm⟩
  · refine .inl ((matches_congr ?_ ?_).2 hm)
    · exact first_record_of_ne v doc h1
    · exact second_record_of_ne v doc h2
  · refine passes_iff.2 ⟨pre, doc, rest, rfl, (matches_congr ?_ ?_).2 hm⟩
    · rw [first_of_forall_ne hno, first_record_of_ne v doc (hno doc (by simp))]
    · rw [second_of_last hid (List.forall_mem_nil _), second_record_of_eq v doc hid]
  · refine passes_iff.2 ⟨pre, doc, rest, rfl, (matches_congr ?_ ?_).2 hm⟩
    · rw [first_of_last hid (List.forall_mem_nil _), first_record_of_eq v doc hid]
    · rw [second_of_forall_ne hno, second_record_of_ne v doc (hno doc (by simp))]

/-! ### Routes that visit every stop once -/

/-- **A route that goes from the first stop to the second is never missed**, whatever is left
over, if no stop occurs twice on it and its places count from one. -/
theorem passes_of_goes (hnd : (docs.map (·.id)).Nodup) (hl : ∀ p ∈ docs, 1 ≤ p.l) (hj : j ≠ 0)
    (h : Goes docs id1 id2) : Passes id1 id2 j v docs := by
  obtain ⟨p, hp, q, hq, hpid, hqid, hlt⟩ := h
  have hinj : ∀ a ∈ docs, ∀ b ∈ docs, a.id = b.id → a = b := fun a ha b hb =>
    List.inj_on_of_nodup_map hnd ha hb
  -- at the end of the answer both places are those of the route
  have h1 : (v.recordAll id1 id2 j docs).first = (p.l, j) :=
    Fold.foldl_unique_write first_record_of_eq first_record_of_ne hp hpid
      (fun b hb hbid => hinj b hb p hp (hbid.trans hpid.symm)) v
  have h2 : (v.recordAll id1 id2 j docs).second = (q.l, j) :=
    Fold.foldl_unique_write second_record_of_eq second_record_of_ne hq hqid
      (fun b hb hbid => hinj b hb q hq (hbid.trans hqid.symm)) v
  obtain ⟨pre, doc, hdoc⟩ : ∃ pre doc, docs = pre ++ [doc] :=
    ⟨_, _, (List.dropLast_append_getLast (List.ne_nil_of_mem hp)).symm⟩
  refine passes_iff.2 ⟨pre, doc, [], hdoc, ?_⟩
  rw [← hdoc]
  simp only [first, second, Prod.mk.injEq] at h1 h2
  have hp1 := hl p hp
  have hq1 := hl q hq
  exact ⟨by omega, by omega, by omega, by omega, by omega, by omega⟩

theorem Goes.perm {docs' : List RouteStop} (hp : docs.Perm docs') (h : Goes docs id1 id2) :
    Goes docs' id1 id2 := by
  obtain ⟨p, hp', q, hq', h⟩ := h
  exact ⟨p, hp.mem_iff.1 hp', q, hp.mem_iff.1 hq', h⟩

/-! ### The two directions of a line -/

/-- What happens to the variables of a run while the answers for one line come in. -/
inductive LineStep where
  /-- The answer for the direction `j`. -/
  | answer (j : ℕ) (docs : List RouteStop)
  /-- The assignments after a read has been issued. -/
  | reset

/-- The effect of a step on the variables of the run and on `D`. -/
def LineStep.apply (id1 id2 : ℤ) (line : String) (h : HandlerState) : LineStep → HandlerState
  | .answer j docs => handleRoute true id1 id2 j line h docs
  | .reset => { h with vars := h.vars.reset }

section Directions

variable (trasa : ℕ → List RouteStop) (answered : ℕ → Prop)

/-- A remembered place of the stop `id` is one on an answered direction. -/
def Traced (id : ℤ) (place : ℤ × ℕ) : Prop :=
  place.2 ≠ 0 →
    answered place.2 ∧ ∃ p ∈ trasa place.2, p.id = toString id ∧ p.l = place.1

variable {trasa answered}

/-- The documents handled of an answer keep both places traced. -/
theorem traced_recordAll (docs : List RouteStop) (hj : answered j)
    (hdocs : ∀ p ∈ docs, p ∈ trasa j)
    (h1 : Traced trasa answered id1 v.first) (h2 : Traced trasa answered id2 v.second) :
    Traced trasa answered id1 (v.recordAll id1 id2 j docs).first ∧
      Traced trasa answered id2 (v.recordAll id1 id2 j docs).second := by
  constructor
  · rcases first_recordAll id1 id2 j docs v with ⟨p, hp, hpid, he⟩ | ⟨-, he⟩
    · rw [he]
      exact fun _ => ⟨hj, p, hdocs p hp, hpid, rfl⟩
    · rwa [he]
  · rcases second_recordAll id1 id2 j docs v with ⟨q, hq, hqid, he⟩ | ⟨-, he⟩
    · rw [he]
      exact fun _ => ⟨hj, q, hdocs q hq, hqid, rfl⟩
    · rwa [he]

/-- Traced places that match lie on one answered direction, in the right order. -/
theorem goes_of_matches (h1 : Traced trasa answered id1 v.first)
    (h2 : Traced trasa answered id2 v.second) (hm : v.Matches) :
    ∃ j, answered j ∧ Goes (trasa j) id1 id2 := by
  obtain ⟨hlt, -, -, hk, hk1, hk2⟩ := hm
  obtain ⟨ha, p, hp, hpid, hpl⟩ := h1 hk1
  obtain ⟨-, q, hq, hqid, hql⟩ := h2 hk2
  refine ⟨v.kierunek1, ha, p, hp, q, ?_, hpid, hqid, ?_⟩
  · simpa only [first, second, hk] using hq
  · rw [hpl, hql]
    exact hlt

variable {line : String} {n : ℤ} {D : List ℤ}

/-- The line is only listed if it was or if an answered direction goes the right way; the
remembered places are traced. -/
structure LineInv (trasa : ℕ → List RouteStop) (answered : ℕ → Prop) (id1 id2 n : ℤ) (D : List ℤ)
    (h : HandlerState) : Prop where
  traced1 : Traced trasa answered id1 h.vars.first
  traced2 : Traced trasa answered id2 h.vars.second
  sound : n ∈ h.D → n ∈ D ∨ ∃ j, answered j ∧ Goes (trasa j) id1 id2

/-- An answer changes `D` by the insertion of its line at most. -/
theorem handleRoute_D_cases (hn : intParse line = some n) (id1 id2 : ℤ) (j : ℕ)
    (docs : List RouteStop) (h : HandlerState) :
    (handleRoute true id1 id2 j line h docs).D = h.D ∨
      n ∉ h.D ∧ Passes id1 id2 j h.vars docs ∧
        (handleRoute true id1 id2 j line h docs).D = Bubble.sort (h.D ++ [n]) := by
  by_cases hp : n ∉ h.D ∧ Passes id1 id2 j h.vars docs
  · refine .inr ⟨hp.1, hp.2, ?_⟩
    rw [handleRoute_of_passes hn hp.1 hp.2]
  · refine .inl ?_
    rw [handleRoute_of_not_passes fun m hm => ?_]
    rw [hn, Option.some.injEq] at hm
    subst hm
    by_cases hD : n ∈ h.D
    · exact .inl hD
    · exact .inr fun hps => hp ⟨hD, hps⟩

/-- An answer removes no line from `D`. -/
theorem mem_handleRoute_of_mem {h : HandlerState} {m : ℤ} (hm : m ∈ h.D) :
    m ∈ (handleRoute true id1 id2 j line h docs).D := by
  cases hn : intParse line with
  | none =>
    rw [handleRoute_of_not_passes fun n hn' => by simp [hn] at hn']
    exact hm
  | some n =>
    rcases handleRoute_D_cases hn id1 id2 j docs h with he | ⟨-, -, he⟩ <;> rw [he]
    · exact hm
    · simp [hm]

/-- After an answer with a match its line is listed. -/
theorem mem_handleRoute_of_passes (hn : intParse line = some n) {h : HandlerState}
    (hp : Passes id1 id2 j h.vars docs) : n ∈ (handleRoute true id1 id2 j line h docs).D := by
  by_cases hD : n ∈ h.D
  · rcases handleRoute_D_cases hn id1 id2 j docs h with he | ⟨hD', -⟩
    · exact he.symm ▸ hD
    · exact absurd hD hD'
  · rw [handleRoute_of_passes hn hD hp]
    simp

theorem lineInv_step (hn : intParse line = some n) {h : HandlerState} {step : LineStep}
    (hstep : ∀ j docs, step = .answer j docs → answered j ∧ docs.Perm (trasa j))
    (hinv : LineInv trasa answered id1 id2 n D h) :
    LineInv trasa answered id1 id2 n D (step.apply id1 id2 line h) := by
  cases step with
  | reset =>
    exact ⟨fun h0 => absurd rfl h0, fun h0 => absurd rfl h0, hinv.sound⟩
  | answer j docs =>
    obtain ⟨hj, hperm⟩ := hstep j docs rfl
    have hdocs : ∀ p ∈ docs, p ∈ trasa j := fun p hp => hperm.mem_iff.1 hp
    obtain ⟨h1, h2⟩ := traced_recordAll docs hj hdocs hinv.traced1 hinv.traced2
    refine ⟨?_, ?_, fun hmem => ?_⟩
    · simpa only [LineStep.apply, handleRoute_vars] using h1
    · simpa only [LineStep.apply, handleRoute_vars] using h2
    · rcases handleRoute_D_cases hn id1 id2 j docs h with he | ⟨-, hp, -⟩
      · simp only [LineStep.apply, he] at hmem
        exact hinv.sound hmem
      · obtain ⟨pre, doc, rest, rfl, hm⟩ := passes_iff.1 hp
        obtain ⟨h1', h2'⟩ := traced_recordAll (pre ++ [doc]) hj
          (fun p hp => hdocs p (by rw [List.append_cons]; exact List.mem_append_left _ hp))
          hinv.traced1 hinv.traced2
        exact .inr (goes_of_matches h1' h2' hm)

theorem mem_apply_of_mem (hn : intParse line = some n) {h : HandlerState} (step : LineStep)
    (hmem : n ∈ h.D) : n ∈ (step.apply id1 id2 line h).D := by
  cases step with
  | reset => exact hmem
  | answer j docs =>
    rcases handleRoute_D_cases hn id1 id2 j docs h with he | ⟨hD, -⟩
    · exact he.symm ▸ hmem
    · exact absurd hmem hD

end Directions

/-- **Direction isolation.**  Whatever the order and the number of the answers for the two
directions of a line, and of the resets between them, the line ends up in `D` exactly if it was
there or an answered direction goes from the first stop to the second. -/
theorem lineShown_iff (db : Firestore) {line : String} {n : ℤ} (hn : intParse line = some n)
    (hnd : ∀ j, j = 1 ∨ j = 2 → ((db.trasa line j).map (·.id)).Nodup)
    (hl : ∀ j, j = 1 ∨ j = 2 → ∀ p ∈ db.trasa line j, 1 ≤ p.l) (id1 id2 : ℤ)
    (steps : List LineStep)
    (hsteps : ∀ j docs, .answer j docs ∈ steps → (j = 1 ∨ j = 2) ∧ docs.Perm (db.trasa line j))
    (v : IndexVars) (D : List ℤ) :
    n ∈ (steps.foldl (LineStep.apply id1 id2 line) ⟨v.reset, D, 0⟩).D ↔
      n ∈ D ∨ ∃ j docs, .answer j docs ∈ steps ∧ Goes (db.trasa line j) id1 id2 := by
  constructor
  · intro hmem
    have hinv : LineInv (db.trasa line) (fun j => ∃ docs, .answer j docs ∈ steps) id1 id2 n D
        (steps.foldl (LineStep.apply id1 id2 line) ⟨v.reset, D, 0⟩) := by
      refine List.foldlRecOn steps _ ?_ fun h hinv step hmem => ?_
      · exact ⟨fun h0 => absurd rfl h0, fun h0 => absurd rfl h0, .inl⟩
      · refine lineInv_step hn (fun j docs he => ?_) hinv
        subst he
        exact ⟨⟨docs, hmem⟩, (hsteps j docs hmem).2⟩
    rcases hinv.sound hmem with h | ⟨j, ⟨docs, hdocs⟩, hg⟩
    · exact .inl h
    · exact .inr ⟨j, docs, hdocs, hg⟩
  · have keep : ∀ (steps : List LineStep) (h : HandlerState), n ∈ h.D →
        n ∈ (steps.foldl (LineStep.apply id1 id2 line) h).D := fun steps h hmem =>
      List.foldlRecOn (motive := fun h : HandlerState => n ∈ h.D) steps _ hmem fun _ hmem step _ =>
        mem_apply_of_mem hn step hmem
    rintro (hmem | ⟨j, docs, hdocs, hg⟩)
    · exact keep steps _ hmem
    · obtain ⟨before, after, rfl⟩ := List.append_of_mem hdocs
      obtain ⟨hj, hperm⟩ := hsteps j docs hdocs
      rw [List.foldl_append, List.foldl_cons]
      refine keep after _ ?_
      have hpass : Passes id1 id2 j
          (before.foldl (LineStep.apply id1 id2 line) ⟨v.reset, D, 0⟩).vars docs := by
        refine passes_of_goes ?_ (fun p hp => hl j hj p (hperm.mem_iff.1 hp)) (by omega)
          (hg.perm hperm.symm)
        exact (hperm.map _).nodup_iff.2 (hnd j hj)
      exact mem_handleRoute_of_passes hn hpass

/-- Line 5 goes from the stop 10 to the stop 20, and back in its other direction. -/
def oneLine : Firestore where
  przystanki := [⟨"1", 10, "Dworzec", 0, 0, ["5"]⟩, ⟨"2", 20, "Ratusz", 0, 1, ["5"]⟩]
  trasa
    | "5", 1 => [⟨"10", 1, "Dworzec"⟩, ⟨"20", 2, "Ratusz"⟩]
    | "5", 2 => [⟨"20", 1, "Ratusz"⟩, ⟨"10", 2, "Dworzec"⟩]
    | _, _ => []

/-- The way back is answered twice, then the way there, its documents the other way round. -/
theorem lineShown_oneLine :
    let steps : List LineStep := [.answer 2 (oneLine.trasa "5" 2), .reset,
      .answer 2 (oneLine.trasa "5" 2), .answer 1 (oneLine.trasa "5" 1).reverse]
    5 ∈ (steps.foldl (LineStep.apply 10 20 "5") ⟨IndexVars.reset {}, [], 0⟩).D ↔
      (5 : ℤ) ∈ ([] : List ℤ) ∨
        ∃ j docs, .answer j docs ∈ steps ∧ Goes (oneLine.trasa "5" j) 10 20 := by
  intro steps
  refine lineShown_iff oneLine (by decide) ?_ ?_ 10 20 steps ?_ {} []
  · rintro j (rfl | rfl) <;> decide
  · rintro j (rfl | rfl) <;> decide
  · intro j docs h
    simp only [steps, List.mem_cons, LineStep.answer.injEq, reduceCtorEq, List.not_mem_nil,
      or_false, false_or] at h
    obtain ⟨rfl, rfl⟩ | ⟨rfl, rfl⟩ | ⟨rfl, rfl⟩ := h <;> decide

end MapaZimSlupsk
