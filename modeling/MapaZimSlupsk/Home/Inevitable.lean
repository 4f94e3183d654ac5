import MapaZimSlupsk.Home.Prompt
import MapaZimSlupsk.Home.Termination
import MapaZimSlupsk.Lts.Inevitable
import Mathlib.Algebra.Order.Monoid.Prod

/-!
# The page comes to rest

Once both ends are chosen, and as long as they stay as they are, only the answers and the waits of
the runs that have been started are left to happen:

* `HomePage.measure_lt` : each of them decreases the sum of the measures of all runs.
* `HomePage.AtRest` : none of them is left.
* `HomePage.inevitably_shown` : **the page cannot but come to rest, and then shows exactly the lines
  that serve the pair**, in whatever order the answers come in, provided that they keep pace.
-/

namespace MapaZimSlupsk

/-- Putting something smaller in one place makes a sum smaller. -/
theorem sum_map_set_lt {α M : Type*} [AddCommMonoid M] [PartialOrder M]
    [IsOrderedCancelAddMonoid M] {f : α → M} {l : List α} {k : ℕ} {a b : α}
    (hk : l[k]? = some a) (hlt : f b < f a) : ((l.set k b).map f).sum < (l.map f).sum := by
  obtain ⟨hk', rfl⟩ := List.getElem?_eq_some_iff.1 hk
  have hb := ((List.set_perm_cons_eraseIdx hk' b).map f).sum_eq
  have ha := ((List.getElem_cons_eraseIdx_perm hk').map f).sum_eq
  rw [hb, ← ha, List.map_cons, List.map_cons, List.sum_cons, List.sum_cons]
  exact add_lt_add_left hlt _

namespace HomePage

open Calculation

variable {db : Firestore} {s t : HomePage} {e : Event} {id1 id2 : ℤ} {k : ℕ} {c : Calculation}

/-! ### Every step brings the end closer -/

/-- What decreases while no end is chosen: what is left to be done in all runs, and the read of
`getText`. -/
def measure (s : HomePage) : (ℕ ×ₗ ℕ) ×ₗ ℕ :=
  toLex ((s.calculations.map Calculation.measure).sum, s.textRead.toNat)

/-- An event that chooses no end answers the read of `getText` or is a step of one run. -/
theorem Effect.set_cases (he : Effect db s e t) (hsel : ¬ e.IsSelect) :
    (∃ x, e = .text x ∧ t.calculations = s.calculations) ∨
      ∃ k c c', s.calculations[k]? = some c ∧ c.Effect db c' ∧
        t.calculations = s.calculations.set k c' := by
  cases he with
  | select1 name id => exact absurd ⟨name, id, .inl rfl⟩ hsel
  | select2 name id => exact absurd ⟨name, id, .inr rfl⟩ hsel
  | text x => exact .inl ⟨x, rfl, rfl⟩
  | stops k docs c id1 id2 hk hw hdocs =>
    exact .inr ⟨k, c, _, hk, .stops id1 id2 docs hw hdocs, rfl⟩
  | stopsUnset k docs c hk hw => exact .inr ⟨k, c, _, hk, .stopsUnset hw, rfl⟩
  | wait k m c c' hk hr => exact .inr ⟨k, c, c', hk, .wait m c' hr, rfl⟩
  | route k r docs c id1 id2 h hk hr => exact .inr ⟨k, c, _, hk, .answer r h.vars hr, rfl⟩
  | routeUnset k r docs c hk hr => exact .inr ⟨k, c, _, hk, .answer r c.vars hr, rfl⟩

theorem onText_textRead (s : HomePage) (x : Option String) : (s.onText x).textRead = false := by
  unfold onText
  cases x with
  | none => rfl
  | some x =>
    dsimp only
    split_ifs <;> rfl

/-- **Every step but the choice of an end decreases the measure.** -/
theorem measure_lt (hm : s.mounted = true) (hst : (lts db).step s e t) (hsel : ¬ e.IsSelect) :
    t.measure < s.measure := by
  unfold measure
  rw [Prod.Lex.toLex_lt_toLex]
  obtain ⟨x, rfl, hc⟩ | ⟨k, c, c', hk, hcc, hc⟩ := (effect_of_step hm hst).set_cases hsel
  · obtain ⟨hread, hst⟩ := Option.ite_none_right_eq_some.1 hst
    refine .inr ⟨by rw [hc], ?_⟩
    rw [← Option.some.inj hst, onText_textRead, hread]
    exact Nat.zero_lt_one
  · refine .inl ?_
    rw [hc]
    exact sum_map_set_lt hk hcc.measure_lt

/-! ### Rest -/

/-- Nothing happens any more unless an end is chosen. -/
def AtRest (db : Firestore) (s : HomePage) : Prop := ∀ e t, (lts db).step s e t → e.IsSelect

/-- The event overtakes no answer and leaves the ends as they are. -/
def Undisturbed (s : HomePage) (e : Event) : Prop := s.Prompt e ∧ ¬ e.IsSelect

theorem Event.not_isSelect (h : e.calculation = some k) : ¬ e.IsSelect := by
  rintro ⟨_, _, rfl | rfl⟩ <;> cases h

theorem step_stops (hk : s.calculations[k]? = some c) (hw : c.waiting = true) :
    (lts db).step s (.stops k db.przystanki) (s.onStops k c db.przystanki) := by
  simp [lts, Lts.ofFun, step, hk, hw]

theorem step_route {r : RouteRead} (hk : s.calculations[k]? = some c) (hr : r ∈ c.pending) :
    (lts db).step s (.route k r (db.trasa r.line r.j))
      (s.onRoute k c r (db.trasa r.line r.j)) := by
  simp [lts, Lts.ofFun, step, hk, hr]

theorem step_wait {m : ℕ} {c' : Calculation} (hk : s.calculations[k]? = some c)
    (hr : c.resume m = some c') : (lts db).step s (.wait k m)
      { s with calculations := s.calculations.set k c' } := by
  simp [lts, Lts.ofFun, step, hk, hr]

/-- A page at rest has no run that waits, and no read that is not answered. -/
theorem AtRest.over (h : s.AtRest db) (hc : c ∈ s.calculations) : c.Finished ∧ c.pending = [] := by
  obtain ⟨k, hk⟩ := List.mem_iff_getElem?.1 hc
  refine ⟨finished_iff.2 ⟨?_, fun m => ?_⟩, ?_⟩
  · by_contra hw
    exact Event.not_isSelect rfl (h _ _ (step_stops hk (Bool.not_eq_false _ ▸ hw)))
  · cases hr : c.resume m with
    | none => rfl
    | some c' => exact (Event.not_isSelect rfl (h _ _ (step_wait hk hr))).elim
  · refine List.eq_nil_iff_forall_not_mem.2 fun r hr => ?_
    exact Event.not_isSelect rfl (h _ _ (step_route hk hr))

/-- Where no undisturbed step is left, the page is at rest. -/
theorem atRest_of_no_step (h : ∀ e t, ¬ ((lts db).guard Undisturbed).step s e t) : s.AtRest db := by
  intro e t hst
  by_contra hsel
  refine h e t ⟨⟨?_, hsel⟩, hst⟩
  cases e with
  | select1 name id => exact absurd ⟨name, id, .inl rfl⟩ hsel
  | select2 name id => exact absurd ⟨name, id, .inr rfl⟩ hsel
  | text x => trivial
  | stops k docs => trivial
  | route k r docs => trivial
  | wait k m =>
    -- the answers overtaken could come in first
    intro c hk i _ line _ r hr
    refine absurd ⟨⟨?_, Event.not_isSelect rfl⟩, step_route hk hr⟩ (h _ _)
    trivial

theorem calculations_ne_nil (h : (lts db).Reachable initial s) : s.calculations ≠ [] := by
  refine (h.invariant (I := fun s => s.Inv ∧ s.calculations ≠ [])
    ⟨inv_initial, List.cons_ne_nil _ _⟩ ?_).2
  rintro s e t ⟨hinv, hne⟩ hst
  refine ⟨inv_step hinv hst, ?_⟩
  cases effect_of_step hinv.mounted hst <;> simp [hne]

theorem AtRest.done (h : s.AtRest db) (hr : (lts db).Reachable initial s) : s.Done := by
  have hlast := List.getLast?_eq_getLast_of_ne_nil (calculations_ne_nil hr)
  obtain ⟨hfin, hpending⟩ := h.over (List.getLast_mem (calculations_ne_nil hr))
  exact ⟨_, hlast, hfin, hpending⟩

/-! ### What the page comes to -/

/-- The ends stay as they are. -/
theorem Chosen.step (h : s.Chosen id1 id2) (hm : s.mounted = true) (hst : (lts db).step s e t)
    (hsel : ¬ e.IsSelect) : t.Chosen id1 id2 := by
  cases effect_of_step hm hst with
  | select1 name id => exact absurd ⟨name, id, .inl rfl⟩ hsel
  | select2 name id => exact absurd ⟨name, id, .inr rfl⟩ hsel
  | _ => exact ⟨h.both, h.id1_eq, h.id2_eq⟩

/-- **Once both ends are chosen, the page cannot but come to rest with exactly the lines that serve
them**, in ascending order: as long as the ends stay as they are and the answers keep pace, no order
of answers and waits goes on forever or stops before. -/
theorem inevitably_shown (hdb : db.Regular) (hlisted : db.Listed)
    (h : ((lts db).guard Prompt).Reachable initial s) (hch : s.Chosen id1 id2)
    (hp : ∃ p ∈ db.przystanki, p.id = id1) (hq : ∃ q ∈ db.przystanki, q.id = id2) :
    ((lts db).guard Undisturbed).Inevitable (fun t => t.AtRest db ∧ t.Chosen id1 id2 ∧
      t.D.Pairwise (· < ·) ∧ ∀ n, n ∈ t.D ↔ LineServes db n id1 id2) s := by
  have hmounted : ∀ {t : HomePage}, ((lts db).guard Prompt).Reachable initial t →
      t.mounted = true := fun h => (inv_of_reachable h.of_guard).mounted
  refine Lts.inevitable_of_measure
    (J := fun t => ((lts db).guard Prompt).Reachable initial t ∧ t.Chosen id1 id2)
    measure ?_ ?_ ?_ ⟨h, hch⟩
  · rintro t e u ⟨ht, hch⟩ ⟨⟨hprompt, hsel⟩, hst⟩
    exact ⟨ht.tail ⟨hprompt, hst⟩, hch.step (hmounted ht) hst hsel⟩
  · rintro t e u ⟨ht, -⟩ ⟨⟨-, hsel⟩, hst⟩
    exact measure_lt (hmounted ht) hst hsel
  · rintro t ⟨ht, hch⟩ hstuck
    have hrest := atRest_of_no_step hstuck
    exact ⟨hrest, hch, sorted_of_reachable ht.of_guard, fun n =>
      mem_D_iff hdb hlisted ht hch (hrest.done ht.of_guard) hp hq⟩

/-- Both ends have just been chosen, and nothing is shown yet. -/
theorem inevitably_shown_oneLine : ∃ s : HomePage, s.D = [] ∧
    ((lts oneLine).guard Undisturbed).Inevitable (fun t => t.AtRest oneLine ∧ t.Chosen 10 20 ∧
      t.D.Pairwise (· < ·) ∧ ∀ n, n ∈ t.D ↔ LineServes oneLine n 10 20) s := by
  obtain ⟨s, hs, hch, hD⟩ : ∃ s, ([.select1 "Dworzec" 10, .select2 "Ratusz" 20] :
      List Event).foldlM (Lts.guarded Prompt (step oneLine)) initial = some s ∧
      s.Chosen 10 20 ∧ s.D = [] := ⟨_, rfl, ⟨by decide, rfl, rfl⟩, rfl⟩
  exact ⟨s, hD, inevitably_shown wellFormed_oneLine.toRegular listed_oneLine
    (Lts.guard_run_of_foldlM hs).reachable hch ⟨_, List.mem_cons_self, rfl⟩
    ⟨_, List.mem_cons_of_mem _ List.mem_cons_self, rfl⟩⟩

end HomePage

end MapaZimSlupsk
