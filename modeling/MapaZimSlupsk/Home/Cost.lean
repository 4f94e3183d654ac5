import MapaZimSlupsk.Home.ReadCount
import MapaZimSlupsk.Lts.Simulation
import MapaZimSlupsk.Walkers.Basic
import Mathlib.Algebra.Group.Action.Defs
import Mathlib.Data.Multiset.Bind

/-!
# What a run of `calculateLines` costs

Every document of the snapshot from the later of the two selected stops on starts a closure, and
every closure appends the common lines to `C` once more.  With `k` such documents the closures are
`k` walkers over `k` copies of the common lines.

* `Flooded` : what the closures of the documents have done when `forEach` returns.
* `paths_of_finished` : **a finished run has read both directions of every common line `k * k`
  times**, after as many waits as there are lines in all walks, whatever the order of the waits.
-/

namespace MapaZimSlupsk

namespace Calculation

variable {c c' : Calculation} {id1 id2 : ℤ} {pre post docs : List Przystanek}
  {p q d doc : Przystanek} {k n : ℕ} {line : String} {lines : List String}

/-! ### The closures as walkers -/

/-- The closures stand where the walkers do, and have asked for both directions of the lines
done. -/
structure Follows (c : Calculation) (w : Walkers String) : Prop where
  jobs : w.jobs = c.C
  cursors : w.cursors = c.cursors
  issued : c.issued.map RouteRead.path = w.done ×ˢ [1, 2]

theorem product_snoc (lines : List String) (line : String) :
    (lines ++ [line]) ×ˢ [1, 2] = lines ×ˢ [1, 2] ++ [(line, 1), (line, 2)] := by
  simp [SProd.sprod, List.product]

/-- A wait that expires is a move of a walker. -/
theorem Follows.resume {w : Walkers String} (h : c.Follows w) (hr : c.resume k = some c') :
    ∃ w', w.advance k = some w' ∧ c'.Follows w' := by
  obtain ⟨hjobs, hcursors, hissued⟩ := h
  obtain ⟨i, hi, ⟨line, hline, rfl⟩ | ⟨hnone, rfl⟩⟩ := resume_cases hr
  · refine ⟨{ w with done := w.done ++ [line], cursors := w.cursors.eraseIdx k ++ [i + 1] }, ?_,
      hjobs, by simp only [hcursors], ?_⟩
    · simp only [Walkers.advance, hcursors, hi, hjobs, hline, Option.map_some]
    · simp only [List.map_append, hissued, product_snoc]
      rfl
  · refine ⟨{ w with cursors := w.cursors.eraseIdx k }, ?_, hjobs, by simp only [hcursors], hissued⟩
    simp only [Walkers.advance, hcursors, hi, hjobs, hnone, Option.map_some]

/-! ### The closures that are started -/

/-- `n` closures have been started, each of which has appended `line :: lines` to `C` and asked for
its first line. -/
structure Flooded (n : ℕ) (line : String) (lines : List String) (c : Calculation) : Prop where
  zrobione : c.zrobione = false
  C : c.C = (List.replicate n (line :: lines)).flatten
  cursors : c.cursors = List.replicate n 0
  issued : c.issued.map RouteRead.path = List.replicate n line ×ˢ [1, 2]

/-- One more closure. -/
theorem Flooded.enter (h : c.Flooded n line lines) (hcommon : common c.A c.B = line :: lines) :
    c.enter.Flooded (n + 1) line lines := by
  have hhead : (c.C ++ common c.A c.B)[0]? = some line := by
    cases n with
    | zero => simp [h.C, hcommon]
    | succ n => simp [h.C, List.replicate_succ]
  rcases enter_cases c with ⟨line', hline', he⟩ | ⟨hnil, -⟩
  · obtain rfl : line = line' := Option.some.inj (hhead.symm.trans hline')
    rw [he]
    constructor
    · exact h.zrobione
    · simp only [h.C, hcommon, List.replicate_succ', List.flatten_append, List.flatten_singleton]
    · simp only [h.cursors, List.replicate_succ']
    · simp only [List.map_append, h.issued, List.replicate_succ', product_snoc]
      rfl
  · simp [hnil] at hhead

/-- The documents from the later of the two stops on start one closure each. -/
theorem flooded_start (hnd : ((pre ++ d :: post).map (·.id)).Nodup) (hp : p ∈ pre ++ [d])
    (hq : q ∈ pre ++ [d]) (hd : d = p ∨ d = q)
    (hcommon : common p.linie q.linie = line :: lines) :
    (start p.id q.id (pre ++ d :: post)).Flooded (post.length + 1) line lines := by
  -- every prefix that ends behind the later stop lets its last document through
  have guard : ∀ docs doc, ((docs ++ [doc]).map (·.id)).Nodup → p ∈ docs ++ [doc] →
      q ∈ docs ++ [doc] → (start p.id q.id docs).zrobione = false →
      start p.id q.id (docs ++ [doc]) = ((start p.id q.id docs).assign p.id q.id doc).enter ∧
        common ((start p.id q.id docs).assign p.id q.id doc).A
          ((start p.id q.id docs).assign p.id q.id doc).B = line :: lines := by
    intro docs doc hnd hp hq hz
    have hk : common (linieOf (docs ++ [doc]) p.id) (linieOf (docs ++ [doc]) q.id) ≠ [] := by
      rw [linieOf_eq hnd hp, linieOf_eq hnd hq, hcommon]
      exact List.cons_ne_nil _ _
    obtain ⟨hg, hA, hB⟩ := guard_last hnd hk hz
    rw [start_snoc, onPrzystanek, if_pos hg, hA, hB, linieOf_eq hnd hp, linieOf_eq hnd hq, hcommon]
    exact ⟨rfl, rfl⟩
  induction post using List.reverseRecOn with
  | nil =>
    have hnew : ∀ x ∈ pre, x.id ≠ d.id := fun x hx he => by
      rw [List.map_append, List.nodup_append] at hnd
      exact hnd.2.2 _ (List.mem_map_of_mem hx) _ (by simp) he
    obtain ⟨hz, hi⟩ : (start p.id q.id pre).zrobione = false ∧ (start p.id q.id pre).Idle := by
      refine idle_of_unseen (hnd.sublist ((List.sublist_append_left _ _).map _)) ?_
      obtain rfl | rfl := hd
      · exact .inl hnew
      · exact .inr hnew
    obtain ⟨he, hc⟩ := guard pre d hnd hp hq hz
    rw [he]
    have hflood : ((start p.id q.id pre).assign p.id q.id d).Flooded 0 line lines := by
      rw [assign_eq]
      exact ⟨hz, hi.C, hi.cursors, by simp [hi.issued]⟩
    exact hflood.enter hc
  | append_singleton post x ih =>
    have hsplit : pre ++ d :: (post ++ [x]) = (pre ++ d :: post) ++ [x] := by simp
    rw [hsplit] at hnd ⊢
    have hflood := ih (hnd.sublist ((List.sublist_append_left _ _).map _))
    have hmem : ∀ y ∈ pre ++ [d], y ∈ (pre ++ d :: post) ++ [x] := fun y hy => by
      rw [← hsplit, List.append_cons]
      exact List.mem_append_left _ hy
    obtain ⟨he, hc⟩ := guard _ x hnd (hmem p hp) (hmem q hq) hflood.zrobione
    have hflood' : ((start p.id q.id (pre ++ d :: post)).assign p.id q.id x).Flooded
        (post.length + 1) line lines := by
      rw [assign_eq]
      exact ⟨hflood.zrobione, hflood.C, hflood.cursors, hflood.issued⟩
    rw [he, List.length_append, List.length_singleton]
    exact hflood'.enter hc

/-! ### The cost -/

theorem nsmul_product {α β : Type*} (n : ℕ) (s : Multiset α) (t : Multiset β) :
    (n • s) ×ˢ t = n • s ×ˢ t := by
  induction n with
  | zero => simp
  | succ n ih => rw [succ_nsmul, Multiset.add_product, ih, succ_nsmul]

theorem coe_flatten_replicate {α : Type*} (n : ℕ) (l : List α) :
    (↑(List.replicate n l).flatten : Multiset α) = n • (l : Multiset α) := by
  induction n with
  | zero => simp
  | succ n ih =>
    rw [List.replicate_succ, List.flatten_cons, ← Multiset.coe_add, ih, succ_nsmul, add_comm]

/-- A run without closures takes no step. -/
theorem Idle.eq_of_run {ls : List ℕ} (h : c.Idle) (hr : lts.Run c ls c') : ls = [] ∧ c' = c := by
  refine hr.invariant_labels (I := fun ls d => ls = [] ∧ d = c) ⟨rfl, rfl⟩ ?_
  rintro ls k _ c'' ⟨rfl, rfl⟩ hst
  obtain ⟨i, hi, -⟩ := resume_cases hst
  simp [h.cursors] at hi

/-- **A finished run has read both directions of every common line once for each pair of closures.**
With `k` the number of documents from the later stop on, it takes `k * k` waits for each common
line, in whatever order they expire. -/
theorem paths_of_finished (hnd : ((pre ++ d :: post).map (·.id)).Nodup) (hp : p ∈ pre ++ [d])
    (hq : q ∈ pre ++ [d]) (hd : d = p ∨ d = q) {ls : List ℕ}
    (hr : lts.Run (start p.id q.id (pre ++ d :: post)) ls c) (hf : c.Finished) :
    let k := post.length + 1
    (↑(c.issued.map RouteRead.path) : Multiset (String × ℕ)) =
        (k * k) • ↑(common p.linie q.linie ×ˢ [1, 2]) ∧
      ls.length = k * k * (common p.linie q.linie).length := by
  intro k
  have hmem : ∀ x ∈ pre ++ [d], x ∈ pre ++ d :: post := fun x hx => by
    rw [List.append_cons]
    exact List.mem_append_left _ hx
  cases hcommon : common p.linie q.linie with
  | nil =>
    have hidle := (idle_onPrzystanki hcommon
      (fun x hx he => congrArg _ (List.inj_on_of_nodup_map hnd hx (hmem p hp) he))
      (fun x hx he => congrArg _ (List.inj_on_of_nodup_map hnd hx (hmem q hq) he))).2
    obtain ⟨rfl, rfl⟩ := hidle.eq_of_run hr
    simp [hidle.issued]
  | cons line lines =>
    have hflood := flooded_start hnd hp hq hd hcommon
    -- the `k` walkers have `k` copies of the common lines before them
    have hjobs : line :: (lines ++ (List.replicate post.length (line :: lines)).flatten) =
        (List.replicate k (line :: lines)).flatten := by
      rw [List.replicate_succ, List.flatten_cons, List.cons_append]
    have hfollows : (start p.id q.id (pre ++ d :: post)).Follows
        (.begin k line (lines ++ (List.replicate post.length (line :: lines)).flatten)) :=
      ⟨hjobs.trans hflood.C.symm, hflood.cursors.symm, hflood.issued⟩
    obtain ⟨w, hw, -, hcursors, hissued⟩ := hr.follow (B := Walkers.lts) hfollows
      fun _ _ _ _ h hst => h.resume hst
    obtain ⟨hdone, hlen⟩ := Walkers.done_of_begin hw (hcursors.trans hf.2)
    rw [hjobs, coe_flatten_replicate, ← mul_nsmul] at hdone
    rw [hjobs, List.length_flatten, List.map_replicate, List.sum_replicate, smul_eq_mul,
      ← mul_assoc] at hlen
    refine ⟨?_, hlen⟩
    rw [hissued, ← Multiset.coe_product, hdone, nsmul_product, Multiset.coe_product]

/-- A third document after the two selected stops makes two closures, and four reads of the one
common line in each direction. -/
theorem paths_of_finished_park :
    let p : Przystanek := ⟨"1", 10, "Dworzec", 54, 17, ["1", "2"]⟩
    let q : Przystanek := ⟨"2", 20, "Ratusz", 54, 17, ["1"]⟩
    ∃ c, lts.Run (start 10 20 [p, q, ⟨"3", 30, "Park", 54, 17, []⟩]) [0, 0, 0, 0] c ∧
      (↑(c.issued.map RouteRead.path) : Multiset (String × ℕ)) =
        (2 * 2) • ↑(common p.linie q.linie ×ˢ [1, 2]) := by
  intro p q
  let post : List Przystanek := [⟨"3", 30, "Park", 54, 17, []⟩]
  obtain ⟨c, hrun, hfin⟩ := Lts.exists_run_of_any resume (start p.id q.id ([p] ++ q :: post))
    [0, 0, 0, 0] (fun c => decide c.Finished) (by decide)
  exact ⟨c, hrun, (paths_of_finished (by decide) (by simp) (by simp) (.inr rfl) hrun
    (of_decide_eq_true hfin)).1⟩

end Calculation

end MapaZimSlupsk
