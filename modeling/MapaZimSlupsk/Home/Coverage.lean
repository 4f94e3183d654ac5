import MapaZimSlupsk.Fold.LastWrite
import MapaZimSlupsk.Home.CalculateLines

/-!
# Coverage of the common lines

Two facts about one run of `calculateLines`, whatever the order of the waits:

* `mem_C_onPrzystanki` : after the answer to its read of `Przystanki`, every line that serves both
  stops is in `C`.
* `Calculation.Covered` : every line of `C` has been asked for in both directions, or a suspended
  closure has yet to come to it.  When no closure is left, all of `C` has been asked for
  (`Covered.issued_of_finished`).

`Calculation.ReadsOk` ties the pending reads to `C`, which only grows.
-/

namespace MapaZimSlupsk

namespace Calculation

variable {c c' : Calculation} {id1 id2 : ℤ} {doc : Przystanek} {docs : List Przystanek} {k : ℕ}
  {line : String}

/-! ### Covered places of `C` -/

/-- Every place of `C` has been asked for in both directions, or lies ahead of a suspended
closure. -/
def Covered (c : Calculation) : Prop :=
  ∀ i line, c.C[i]? = some line →
    (⟨i, 1, line⟩ ∈ c.issued ∧ ⟨i, 2, line⟩ ∈ c.issued) ∨ ∃ cursor ∈ c.cursors, cursor < i

theorem Covered.issued_of_finished (hc : c.Covered) (hf : c.Finished) {j : ℕ} (hj : j = 1 ∨ j = 2)
    (hline : line ∈ c.C) : ∃ i, ⟨i, j, line⟩ ∈ c.issued := by
  obtain ⟨i, hi⟩ := List.mem_iff_getElem?.1 hline
  rcases hc i line hi with ⟨h1, h2⟩ | ⟨_, hcur, -⟩
  · rcases hj with rfl | rfl
    · exact ⟨i, h1⟩
    · exact ⟨i, h2⟩
  · simp [hf.2] at hcur

/-- A closure that has just entered the loop is at its start: all of `C` lies ahead of it. -/
theorem covered_enter (c : Calculation) : c.enter.Covered := by
  rcases enter_cases c with ⟨line₀, h₀, he⟩ | ⟨hnil, he⟩
  · rw [he]
    intro i line hi
    cases i with
    | zero =>
      obtain rfl : line₀ = line := by simpa [h₀] using hi
      exact .inl ⟨by simp, by simp⟩
    | succ i => exact .inr ⟨0, by simp, Nat.succ_pos i⟩
  · rw [he]
    intro i line hi
    simp at hi

theorem covered_onPrzystanek (h : c.Covered) : (c.onPrzystanek id1 id2 doc).Covered := by
  have ha : (c.assign id1 id2 doc).Covered := by
    rw [assign_eq]
    exact h
  unfold onPrzystanek
  dsimp only
  split_ifs
  · exact covered_enter _
  · exact ha

theorem covered_onPrzystanki (h : c.Covered) : (c.onPrzystanki id1 id2 docs).Covered :=
  List.foldlRecOn (motive := Covered) docs _ h fun _ h _ _ => covered_onPrzystanek h

theorem mem_eraseIdx_or {l : List ℕ} {i x : ℕ} (hi : l[k]? = some i) (hx : x ∈ l) :
    x = i ∨ x ∈ l.eraseIdx k := by
  obtain ⟨m, hm⟩ := List.mem_iff_getElem?.1 hx
  by_cases hmk : m = k
  · subst hmk
    rw [hi, Option.some.injEq] at hm
    exact .inl hm.symm
  · exact .inr (List.mem_eraseIdx_iff_getElem?.2 ⟨m, hmk, hm⟩)

theorem covered_resume (h : c.Covered) (hr : c.resume k = some c') : c'.Covered := by
  obtain ⟨i₀, hi₀, ⟨line₀, h₀, rfl⟩ | ⟨h₀, rfl⟩⟩ := resume_cases hr
  · intro i line hi
    rcases h i line hi with ⟨h1, h2⟩ | ⟨cursor, hcur, hlt⟩
    · exact .inl ⟨by simp [h1], by simp [h2]⟩
    · rcases mem_eraseIdx_or hi₀ hcur with rfl | hcur
      · -- the place was ahead of the resumed closure
        rcases Nat.lt_or_eq_of_le (Nat.succ_le_of_lt hlt) with hlt' | rfl
        · exact .inr ⟨cursor + 1, by simp, hlt'⟩
        · obtain rfl : line₀ = line := by simpa [h₀] using hi
          exact .inl ⟨by simp, by simp⟩
      · exact .inr ⟨cursor, by simp [hcur], hlt⟩
  · intro i line hi
    rcases h i line hi with h | ⟨cursor, hcur, hlt⟩
    · exact .inl h
    · rcases mem_eraseIdx_or hi₀ hcur with rfl | hcur
      · -- the closure has left the loop: nothing lies ahead of it
        rw [List.getElem?_eq_none_iff] at h₀
        have hlt' : i < c.C.length := (List.getElem?_eq_some_iff.1 hi).1
        omega
      · exact .inr ⟨cursor, hcur, hlt⟩

/-! ### Reads and `C` -/

/-- The pending reads are of issued reads, for a direction of the line of `C` they were issued
for. -/
structure ReadsOk (c : Calculation) : Prop where
  pending_sub : ∀ r ∈ c.pending, r ∈ c.issued
  direction : ∀ r ∈ c.issued, r.j = 1 ∨ r.j = 2
  line_eq : ∀ r ∈ c.issued, c.C[r.i]? = some r.line

theorem ReadsOk.issue_both {i : ℕ} {C : List String} {vars : IndexVars} {cursors : List ℕ}
    (h : c.ReadsOk)
    (hC : ∀ (i : ℕ) (line : String), c.C[i]? = some line → C[i]? = some line)
    (hi : C[i]? = some line) :
    ReadsOk { c with
      C := C
      issued := c.issued ++ [⟨i, 1, line⟩, ⟨i, 2, line⟩]
      pending := c.pending ++ [⟨i, 1, line⟩, ⟨i, 2, line⟩]
      vars := vars
      cursors := cursors } := by
  refine ⟨fun r hr => ?_, fun r hr => ?_, fun r hr => ?_⟩
  · rcases List.mem_append.1 hr with hr | hr
    · exact List.mem_append_left _ (h.pending_sub r hr)
    · exact List.mem_append_right _ hr
  · rcases List.mem_append.1 hr with hr | hr
    · exact h.direction r hr
    · simp only [List.mem_cons, List.not_mem_nil, or_false] at hr
      rcases hr with rfl | rfl <;> simp
  · rcases List.mem_append.1 hr with hr | hr
    · exact hC _ _ (h.line_eq r hr)
    · simp only [List.mem_cons, List.not_mem_nil, or_false] at hr
      rcases hr with rfl | rfl <;> exact hi

theorem readsOk_onPrzystanek (h : c.ReadsOk) : (c.onPrzystanek id1 id2 doc).ReadsOk := by
  have ha : (c.assign id1 id2 doc).ReadsOk := by
    rw [assign_eq]
    exact ⟨h.pending_sub, h.direction, h.line_eq⟩
  unfold onPrzystanek
  dsimp only
  split_ifs
  · rcases enter_cases (c.assign id1 id2 doc) with ⟨line₀, h₀, he⟩ | ⟨hnil, he⟩
    · rw [he]
      exact ha.issue_both (fun i line hi => List.getElem?_append_left
        (List.getElem?_eq_some_iff.1 hi).1 ▸ hi) h₀
    · rw [he]
      have hC : (c.assign id1 id2 doc).C = [] := (List.append_eq_nil_iff.1 hnil).1
      exact ⟨ha.pending_sub, ha.direction, fun r hr => hC ▸ ha.line_eq r hr⟩
  · exact ha

theorem readsOk_onPrzystanki (h : c.ReadsOk) : (c.onPrzystanki id1 id2 docs).ReadsOk :=
  List.foldlRecOn (motive := ReadsOk) docs _ h fun _ h _ _ => readsOk_onPrzystanek h

theorem readsOk_resume (h : c.ReadsOk) (hr : c.resume k = some c') : c'.ReadsOk := by
  obtain ⟨i, -, ⟨line, hline, rfl⟩ | ⟨-, rfl⟩⟩ := resume_cases hr
  · exact h.issue_both (fun _ _ => id) hline
  · exact ⟨h.pending_sub, h.direction, h.line_eq⟩

/-! ### The lines collected -/

theorem enter_A (c : Calculation) : c.enter.A = c.A := by
  rcases enter_cases c with ⟨_, -, he⟩ | ⟨-, he⟩ <;> rw [he]

theorem enter_B (c : Calculation) : c.enter.B = c.B := by
  rcases enter_cases c with ⟨_, -, he⟩ | ⟨-, he⟩ <;> rw [he]

theorem enter_C (c : Calculation) : c.enter.C = c.C ++ common c.A c.B := by
  rcases enter_cases c with ⟨_, -, he⟩ | ⟨hnil, he⟩ <;> rw [he]
  exact hnil.symm

/-- The guarded block leaves `A` and `B` as the document set them. -/
theorem onPrzystanek_AB (c : Calculation) (doc : Przystanek) :
    (c.onPrzystanek id1 id2 doc).A = (c.assign id1 id2 doc).A ∧
      (c.onPrzystanek id1 id2 doc).B = (c.assign id1 id2 doc).B := by
  unfold onPrzystanek
  dsimp only
  split_ifs
  · exact ⟨enter_A _, enter_B _⟩
  · exact ⟨rfl, rfl⟩

theorem onPrzystanek_A (c : Calculation) (doc : Przystanek) :
    (c.onPrzystanek id1 id2 doc).A = if doc.id = id1 then doc.linie else c.A := by
  rw [(onPrzystanek_AB c doc).1, assign_eq]

theorem onPrzystanek_B (c : Calculation) (doc : Przystanek) :
    (c.onPrzystanek id1 id2 doc).B = if doc.id = id2 then doc.linie else c.B := by
  rw [(onPrzystanek_AB c doc).2, assign_eq]

theorem onPrzystanki_append {docs' : List Przystanek} :
    c.onPrzystanki id1 id2 (docs ++ docs') =
      (c.onPrzystanki id1 id2 docs).onPrzystanki id1 id2 docs' :=
  List.foldl_append

/-- `C` only grows. -/
theorem mem_C_onPrzystanki_of_mem (h : line ∈ c.C) : line ∈ (c.onPrzystanki id1 id2 docs).C := by
  refine List.foldlRecOn (motive := fun c : Calculation => line ∈ c.C) docs _ h ?_
  intro c h doc _
  unfold onPrzystanek
  dsimp only
  split_ifs
  · rw [enter_C, assign_eq]
    exact List.mem_append_left _ h
  · rw [assign_eq]
    exact h

/-- The call has not read any document yet. -/
structure Fresh (c : Calculation) : Prop where
  A : c.A = []
  B : c.B = []
  C : c.C = []
  zrobione : c.zrobione = false
  cursors : c.cursors = []
  issued : c.issued = []
  pending : c.pending = []

theorem Fresh.covered (h : c.Fresh) : c.Covered := fun i line hi => by simp [h.C] at hi

theorem Fresh.readsOk (h : c.Fresh) : c.ReadsOk :=
  ⟨by simp [h.pending], by simp [h.issued], by simp [h.issued]⟩

theorem A_onPrzystanki (hc : c.Fresh) (docs : List Przystanek) :
    (∃ p ∈ docs, p.id = id1 ∧ (c.onPrzystanki id1 id2 docs).A = p.linie) ∨
      ((∀ p ∈ docs, p.id ≠ id1) ∧ (c.onPrzystanki id1 id2 docs).A = []) := by
  have := Fold.foldl_last_write (f := onPrzystanek id1 id2) (W := fun p => p.id = id1)
    (fun c p h => (onPrzystanek_A c p).trans (if_pos h))
    (fun c p h => (onPrzystanek_A c p).trans (if_neg h)) docs c
  rwa [hc.A] at this

theorem B_onPrzystanki (hc : c.Fresh) (docs : List Przystanek) :
    (∃ q ∈ docs, q.id = id2 ∧ (c.onPrzystanki id1 id2 docs).B = q.linie) ∨
      ((∀ q ∈ docs, q.id ≠ id2) ∧ (c.onPrzystanki id1 id2 docs).B = []) := by
  have := Fold.foldl_last_write (f := onPrzystanek id1 id2) (W := fun q => q.id = id2)
    (fun c q h => (onPrzystanek_B c q).trans (if_pos h))
    (fun c q h => (onPrzystanek_B c q).trans (if_neg h)) docs c
  rwa [hc.B] at this

/-- When the stops have one document each, `A` and `B` hold their lines once they are seen. -/
theorem AB_onPrzystanki {p q : Przystanek} (c : Calculation) (hnd : (docs.map (·.id)).Nodup)
    (hp : p ∈ docs) (hq : q ∈ docs) :
    (c.onPrzystanki p.id q.id docs).A = p.linie ∧ (c.onPrzystanki p.id q.id docs).B = q.linie := by
  have hinj : ∀ x ∈ docs, ∀ y ∈ docs, x.id = y.id → x = y := fun x hx y hy =>
    List.inj_on_of_nodup_map hnd hx hy
  constructor
  · exact Fold.foldl_unique_write (f := onPrzystanek p.id q.id) (W := fun d => d.id = p.id)
      (fun c d h => (onPrzystanek_A c d).trans (if_pos h))
      (fun c d h => (onPrzystanek_A c d).trans (if_neg h)) hp rfl
      (fun d hd h => hinj d hd p hp h) c
  · exact Fold.foldl_unique_write (f := onPrzystanek p.id q.id) (W := fun d => d.id = q.id)
      (fun c d h => (onPrzystanek_B c d).trans (if_pos h))
      (fun c d h => (onPrzystanek_B c d).trans (if_neg h)) hq rfl
      (fun d hd h => hinj d hd q hq h) c

theorem onPrzystanki_snoc :
    c.onPrzystanki id1 id2 (docs ++ [doc]) = (c.onPrzystanki id1 id2 docs).onPrzystanek id1 id2 doc :=
  onPrzystanki_append

/-- The flag is only set once both stops have been seen. -/
theorem seen_of_zrobione (hc : c.Fresh) (docs : List Przystanek)
    (hz : (c.onPrzystanki id1 id2 docs).zrobione = true) :
    (∃ p ∈ docs, p.id = id1) ∧ ∃ q ∈ docs, q.id = id2 := by
  induction docs using List.reverseRecOn with
  | nil => simp [onPrzystanki, hc.zrobione] at hz
  | append_singleton docs doc ih =>
    by_cases hg : ((c.onPrzystanki id1 id2 docs).assign id1 id2 doc).Guard
    · -- the guard looks at `A` and `B`, which the documents seen have set
      have hA : (c.onPrzystanki id1 id2 (docs ++ [doc])).A.length ≠ 0 := by
        rw [onPrzystanki_snoc, (onPrzystanek_AB _ _).1]
        exact hg.1
      have hB : (c.onPrzystanki id1 id2 (docs ++ [doc])).B.length ≠ 0 := by
        rw [onPrzystanki_snoc, (onPrzystanek_AB _ _).2]
        exact hg.2.1
      constructor
      · rcases A_onPrzystanki hc (docs ++ [doc]) with ⟨p, hp, hpid, -⟩ | ⟨-, he⟩
        · exact ⟨p, hp, hpid⟩
        · exact absurd (congrArg List.length he) hA
      · rcases B_onPrzystanki hc (docs ++ [doc]) with ⟨q, hq, hqid, -⟩ | ⟨-, he⟩
        · exact ⟨q, hq, hqid⟩
        · exact absurd (congrArg List.length he) hB
    · rw [onPrzystanki_snoc, onPrzystanek, if_neg hg, assign_eq] at hz
      obtain ⟨⟨p, hp, hpid⟩, q, hq, hqid⟩ := ih hz
      exact ⟨⟨p, by simp [hp], hpid⟩, q, by simp [hq], hqid⟩

/-- The closure of the later of the two stops collects their common lines. -/
theorem mem_C_of_last {p q d : Przystanek} (hc : c.Fresh)
    (hnd : ((docs ++ [d]).map (·.id)).Nodup) (hp : p ∈ docs ++ [d]) (hq : q ∈ docs ++ [d])
    (hd : d = p ∨ d = q) (h1 : line ∈ p.linie) (h2 : line ∈ q.linie) :
    line ∈ (c.onPrzystanki p.id q.id (docs ++ [d])).C := by
  have hdnew : ∀ x ∈ docs, x.id ≠ d.id := fun x hx he => by
    rw [List.map_append, List.nodup_append] at hnd
    exact hnd.2.2 _ (List.mem_map_of_mem hx) _ (by simp) he
  have hz : (c.onPrzystanki p.id q.id docs).zrobione = false := by
    cases hz : (c.onPrzystanki p.id q.id docs).zrobione with
    | false => rfl
    | true =>
      obtain ⟨⟨x, hx, hxid⟩, y, hy, hyid⟩ := seen_of_zrobione hc docs hz
      rcases hd with rfl | rfl
      · exact absurd hxid (hdnew x hx)
      · exact absurd hyid (hdnew y hy)
  obtain ⟨hA, hB⟩ := AB_onPrzystanki c hnd hp hq
  rw [onPrzystanki_snoc, (onPrzystanek_AB _ _).1] at hA
  rw [onPrzystanki_snoc, (onPrzystanek_AB _ _).2] at hB
  have hg : ((c.onPrzystanki p.id q.id docs).assign p.id q.id d).Guard := by
    refine ⟨?_, ?_, ?_⟩
    · rw [hA]
      exact (List.length_pos_of_mem h1).ne'
    · rw [hB]
      exact (List.length_pos_of_mem h2).ne'
    · rw [assign_eq]
      exact hz
  rw [onPrzystanki_snoc, onPrzystanek, if_pos hg, enter_C, hA, hB]
  exact List.mem_append_right _ (mem_common.2 ⟨h1, h2⟩)

/-- **Every line that serves both stops is collected.** -/
theorem mem_C_onPrzystanki {p q : Przystanek} (hc : c.Fresh) (hnd : (docs.map (·.id)).Nodup)
    (hp : p ∈ docs) (hq : q ∈ docs) (h1 : line ∈ p.linie) (h2 : line ∈ q.linie) :
    line ∈ (c.onPrzystanki p.id q.id docs).C := by
  -- `docs` up to the later of the two documents
  obtain ⟨pre, d, post, rfl, hp', hq', hd⟩ : ∃ pre d post, docs = (pre ++ [d]) ++ post ∧
      p ∈ pre ++ [d] ∧ q ∈ pre ++ [d] ∧ (d = p ∨ d = q) := by
    obtain ⟨u, w, rfl⟩ := List.append_of_mem hp
    rcases List.mem_append.1 hq with hqu | hqw
    · exact ⟨u, p, w, by simp, by simp, by simp [hqu], .inl rfl⟩
    · rcases List.mem_cons.1 hqw with rfl | hqw
      · exact ⟨u, q, w, by simp, by simp, by simp, .inl rfl⟩
      · obtain ⟨w₁, w₂, rfl⟩ := List.append_of_mem hqw
        exact ⟨u ++ p :: w₁, q, w₂, by simp, by simp, by simp, .inr rfl⟩
  rw [onPrzystanki_append]
  refine mem_C_onPrzystanki_of_mem (mem_C_of_last hc ?_ hp' hq' hd h1 h2)
  exact hnd.sublist ((List.sublist_append_left _ _).map _)

end Calculation

end MapaZimSlupsk
