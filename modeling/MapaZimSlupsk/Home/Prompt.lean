import MapaZimSlupsk.Home.Soundness
import MapaZimSlupsk.Lts.Simulation
import MapaZimSlupsk.Search.Basic

/-!
# Answers that keep pace

A run of `calculateLines` waits between two lines, which gives the answers for one line the time to
come in before the index variables are reset for the next one.  When the answers keep pace, and the
ends are not changed under way, the page is the search it is meant to be:

* `Prompt` : the events that do not overtake an answer.
* `PromptInv` : the index variables of a run hold places on the routes of the line whose reads are
  unanswered.
* `simulates_search` : **the page refines a search for the lines that serve the selected pair.**
* `sound_of_prompt` : nothing else is shown.
* `shown_iff` : **when it has finished, the page shows exactly these lines**, whatever the order of
  the answers and whatever was selected before.
-/

namespace MapaZimSlupsk

/-- The lines that go from the first stop of the pair to the second. -/
def Serving (db : Firestore) (pair : ℤ × ℤ) : Set ℤ := {n | LineServes db n pair.1 pair.2}

/-- Where a route of a line stops, the line is listed. -/
def Firestore.Listed (db : Firestore) : Prop :=
  ∀ line j, (j = 1 ∨ j = 2) → ∀ r ∈ db.trasa line j, ∀ p ∈ db.przystanki,
    r.id = toString p.id → line ∈ p.linie

namespace Calculation

variable {db : Firestore} {c c' : Calculation} {id1 id2 : ℤ} {docs : List Przystanek} {m : ℕ}

/-! ### One line at a time -/

/-- The unanswered reads are of one line, and the index variables hold places on its routes. -/
def OnLine (db : Firestore) (id1 id2 : ℤ) (c : Calculation) : Prop :=
  ∃ line, (∀ r ∈ c.pending, r.line = line) ∧
    Traced (db.trasa line) (fun j => j = 1 ∨ j = 2) id1 c.vars.first ∧
    Traced (db.trasa line) (fun j => j = 1 ∨ j = 2) id2 c.vars.second

/-- The unanswered reads are of the first line of `C`, and the index variables are cleared. -/
structure AtStart (c : Calculation) : Prop where
  line : ∀ r ∈ c.pending, c.C[0]? = some r.line
  cleared : c.pending ≠ [] → c.vars.first.2 = 0 ∧ c.vars.second.2 = 0

theorem Fresh.atStart (h : c.Fresh) : c.AtStart := by
  constructor <;> simp [h.pending]

/-- All closures of an answer begin with the first line of `C`. -/
theorem AtStart.onPrzystanki (h : c.AtStart) : (c.onPrzystanki id1 id2 docs).AtStart := by
  refine List.foldlRecOn (motive := AtStart) docs _ h fun c h doc _ => ?_
  have ha : (c.assign id1 id2 doc).AtStart := by
    rw [assign_eq]
    exact ⟨h.line, h.cleared⟩
  unfold onPrzystanek
  dsimp only
  split_ifs
  · rcases enter_cases (c.assign id1 id2 doc) with ⟨line, hline, he⟩ | ⟨hnil, he⟩
    · rw [he]
      refine ⟨fun r hr => ?_, fun _ => ⟨rfl, rfl⟩⟩
      rcases List.mem_append.1 hr with hr | hr
      · have hC := ha.line r hr
        exact List.getElem?_append_left (List.getElem?_eq_some_iff.1 hC).1 ▸ hC
      · simp only [List.mem_cons, List.not_mem_nil, or_false] at hr
        rcases hr with rfl | rfl <;> exact hline
    · rw [he]
      have hC : (c.assign id1 id2 doc).C = [] := (List.append_eq_nil_iff.1 hnil).1
      exact ⟨fun r hr => hC ▸ ha.line r hr, ha.cleared⟩
  · exact ha

theorem traced_of_cleared {trasa : ℕ → List RouteStop} {answered : ℕ → Prop} {id : ℤ}
    {place : ℤ × ℕ} (h : place.2 = 0) : Traced trasa answered id place := fun h0 => absurd h h0

theorem AtStart.onLine (h : c.AtStart) : c.pending = [] ∨ c.OnLine db id1 id2 := by
  cases hp : c.pending with
  | nil => exact .inl rfl
  | cons r rs =>
    have hne : c.pending ≠ [] := by simp [hp]
    obtain ⟨h1, h2⟩ := h.cleared hne
    refine .inr ⟨r.line, fun x hx => ?_, traced_of_cleared h1, traced_of_cleared h2⟩
    have hr := h.line r (by simp [hp])
    exact Option.some.inj ((h.line x hx).symm.trans hr)

/-- The reads of the line that a closure goes on to are of the line of the unanswered ones. -/
def KeepsLine (c : Calculation) (m : ℕ) : Prop :=
  ∀ i ∈ c.cursors[m]?, ∀ line ∈ c.C[i + 1]?, ∀ r ∈ c.pending, r.line = line

instance (c : Calculation) : DecidablePred c.KeepsLine := fun m => by
  unfold KeepsLine
  infer_instance

/-- A closure that goes on to a line clears the index variables. -/
theorem onLine_resume (hk : c.KeepsLine m) (h : c.pending = [] ∨ c.OnLine db id1 id2)
    (hr : c.resume m = some c') : c'.pending = [] ∨ c'.OnLine db id1 id2 := by
  obtain ⟨i, hi, ⟨line, hline, rfl⟩ | ⟨-, rfl⟩⟩ := resume_cases hr
  · refine .inr ⟨line, fun r hr => ?_, traced_of_cleared rfl, traced_of_cleared rfl⟩
    rcases List.mem_append.1 hr with hr | hr
    · exact hk i hi line hline r hr
    · simp only [List.mem_cons, List.not_mem_nil, or_false] at hr
      rcases hr with rfl | rfl <;> rfl
  · exact h

end Calculation

namespace HomePage

open Calculation

variable {db : Firestore} {s t : HomePage} {e : Event} {id1 id2 n : ℤ}

/-! ### Prompt answers -/

/-- The event overtakes no answer: an end is chosen when all reads of routes are answered, and a
closure goes on to a line when all reads of other lines are. -/
def Prompt (s : HomePage) : Event → Prop
  | .select1 _ _ | .select2 _ _ => ∀ c ∈ s.calculations, c.pending = []
  | .wait k m => ∀ c ∈ s.calculations[k]?, c.KeepsLine m
  | _ => True

instance (s : HomePage) : DecidablePred s.Prompt := fun e => by
  unfold Prompt
  split <;> infer_instance

/-- The page under prompt answers. -/
structure PromptInv (db : Firestore) (s : HomePage) : Prop extends s.Inv where
  onLine : ∀ c ∈ s.calculations, ∀ id1 ∈ s.id1, ∀ id2 ∈ s.id2,
    c.pending = [] ∨ c.OnLine db id1 id2

theorem promptInv_initial : PromptInv db initial where
  toInv := inv_initial
  onLine _ _ _ h := by cases h

/-- The documents of an answer leave the index variables on the line of the answer. -/
theorem onLine_answer {c : Calculation} {r : RouteRead} {docs : List RouteStop} (hok : c.Ok)
    (hr : r ∈ c.pending) (hdocs : docs.Perm (db.trasa r.line r.j)) (h : c.OnLine db id1 id2) :
    OnLine db id1 id2 { c with
      pending := c.pending.erase r, vars := c.vars.recordAll id1 id2 r.j docs } := by
  obtain ⟨line, hline, h1, h2⟩ := h
  obtain rfl := hline r hr
  have hj := hok.reads.direction r (hok.reads.pending_sub r hr)
  obtain ⟨h1', h2'⟩ := traced_recordAll docs hj (fun p hp => hdocs.mem_iff.1 hp) h1 h2
  exact ⟨r.line, fun x hx => hline x (List.mem_of_mem_erase hx), h1', h2'⟩

theorem PromptInv.effect (h : PromptInv db s) (hp : s.Prompt e) (he : Effect db s e t) :
    PromptInv db t := by
  refine { toInv := h.toInv.effect he, onLine := ?_ }
  have push : ∀ {w : Bool} (a b : Option ℤ), (∀ c ∈ s.calculations, c.pending = []) →
      ∀ c ∈ s.calculations ++ [{ waiting := w }], ∀ id1 ∈ a, ∀ id2 ∈ b,
        c.pending = [] ∨ c.OnLine db id1 id2 := by
    intro w a b hall c hc _ _ _ _
    rcases List.mem_append.1 hc with hc | hc
    · exact .inl (hall c hc)
    · exact .inl (List.mem_singleton.1 hc ▸ rfl)
  have set : ∀ {k : ℕ} {c' : Calculation}, (∀ id1 ∈ s.id1, ∀ id2 ∈ s.id2,
        c'.pending = [] ∨ c'.OnLine db id1 id2) → ∀ d ∈ s.calculations.set k c',
      ∀ id1 ∈ s.id1, ∀ id2 ∈ s.id2, d.pending = [] ∨ d.OnLine db id1 id2 := by
    intro k c' hc' d hd id1 h1 id2 h2
    rcases List.mem_or_eq_of_mem_set hd with hd | rfl
    · exact h.onLine d hd id1 h1 id2 h2
    · exact hc' id1 h1 id2 h2
  cases he with
  | select1 name id w => exact push _ _ hp
  | select2 name id w => exact push _ _ hp
  | text => exact h.onLine
  | stops k docs c a b hk hw =>
    have hfresh := (h.ok c (List.mem_of_getElem? hk)).fresh hw
    exact set fun _ _ _ _ => hfresh.answered.atStart.onPrzystanki.onLine
  | stopsUnset k docs c hk hw =>
    have hfresh := (h.ok c (List.mem_of_getElem? hk)).fresh hw
    exact set fun _ _ _ _ => .inl hfresh.pending
  | wait k m c c' hk hr =>
    refine set fun id1 h1 id2 h2 => onLine_resume (hp c hk) ?_ hr
    exact h.onLine c (List.mem_of_getElem? hk) id1 h1 id2 h2
  | route k r docs c a b hs hk hr hdocs ha hb hh =>
    refine set fun id1 h1 id2 h2 => .inr ?_
    obtain rfl : a = id1 := Option.some.inj (ha.symm.trans h1)
    obtain rfl : b = id2 := Option.some.inj (hb.symm.trans h2)
    have hmem := List.mem_of_getElem? hk
    have hon := (h.onLine c hmem a ha b hb).resolve_left (List.ne_nil_of_mem hr)
    rw [hh, handleRoute_vars]
    exact onLine_answer (h.ok c hmem) hr hdocs hon
  | routeUnset k r docs c hk hr hids =>
    refine set fun id1 h1 id2 h2 => ?_
    rcases hids with hids | hids
    · simp [hids] at h1
    · simp [hids] at h2

theorem PromptInv.step (h : PromptInv db s) (hst : ((lts db).guard Prompt).step s e t) :
    PromptInv db t :=
  h.effect hst.1 (effect_of_step h.mounted hst.2)

/-! ### The page as a search -/

/-- What the page is for: the selected pair and the lines shown for it. -/
def search (s : HomePage) : Search (ℤ × ℤ) ℤ where
  query := s.id1.bind fun id1 => s.id2.map fun id2 => (id1, id2)
  found := {n | n ∈ s.D}

theorem search_query {id1 id2 : ℤ} (h1 : s.id1 = some id1) (h2 : s.id2 = some id2) :
    s.search.query = some (id1, id2) := by
  simp [search, h1, h2]

/-- A line listed by an answer to a run that is on this line serves the pair. -/
theorem serving_of_passes {c : Calculation} {r : RouteRead} {docs : List RouteStop} (hok : c.Ok)
    (hr : r ∈ c.pending) (hdocs : docs.Perm (db.trasa r.line r.j)) (h : c.OnLine db id1 id2)
    (hn : intParse r.line = some n) (hp : Passes id1 id2 r.j c.vars docs) :
    n ∈ Serving db (id1, id2) := by
  obtain ⟨line, hline, h1, h2⟩ := h
  obtain rfl := hline r hr
  have hj := hok.reads.direction r (hok.reads.pending_sub r hr)
  obtain ⟨pre, doc, rest, rfl, hm⟩ := passes_iff.1 hp
  obtain ⟨h1', h2'⟩ := traced_recordAll (pre ++ [doc]) hj (fun p hp => hdocs.mem_iff.1
    (by rw [List.append_cons]; exact List.mem_append_left _ hp)) h1 h2
  exact ⟨r.line, hn, goes_of_matches h1' h2' hm⟩

/-- A step under prompt answers poses a query, finds an answer to it, or is invisible. -/
theorem search_step (h : PromptInv db s) (he : Effect db s e t) :
    t.search = s.search ∨ ∃ l, (Search.lts (Serving db)).step s.search l t.search := by
  cases he with
  | select1 name id => exact .inr ⟨.pose _, by simp [Search.lts, search]; rfl⟩
  | select2 name id => exact .inr ⟨.pose _, by simp [Search.lts, search]; rfl⟩
  | text => exact .inl rfl
  | stops => exact .inl rfl
  | stopsUnset => exact .inl rfl
  | wait => exact .inl rfl
  | routeUnset => exact .inl rfl
  | route k r docs c a b hs hk hr hdocs ha hb hh =>
    rw [h.line_eq hk hr] at hh
    have hmem := List.mem_of_getElem? hk
    have hon := (h.onLine c hmem a ha b hb).resolve_left (List.ne_nil_of_mem hr)
    cases hn : intParse r.line with
    | none =>
      rw [handleRoute_of_not_passes fun n hn' => by simp [hn] at hn'] at hh
      exact .inl (by simp [search, hh])
    | some n =>
      rcases handleRoute_D_cases hn a b r.j docs ⟨c.vars, s.D, s.lateSetStates⟩ with
        hD | ⟨-, hp, hD⟩
      · exact .inl (by simp [search, hh, hD])
      · refine .inr ⟨.find n, (a, b), search_query ha hb, ?_, ?_⟩
        · exact serving_of_passes (h.ok c hmem) hr hdocs hon hn hp
        · ext x
          · rfl
          · simp [search, hh, hD, or_comm]

/-- **Under prompt answers the page refines a search for the lines that serve the pair.** -/
theorem simulates_search (db : Firestore) :
    Lts.Simulates ((lts db).guard Prompt) (Search.lts (Serving db))
      fun s q => PromptInv db s ∧ s.search = q :=
  Lts.simulates_of_map search (fun _ _ _ => PromptInv.step)
    fun _ _ _ h hst => search_step h (effect_of_step h.mounted hst.2)

/-- What is shown under prompt answers is what the search has found. -/
theorem search_sound (h : ((lts db).guard Prompt).Reachable initial s) :
    s.search.Sound (Serving db) := by
  have h₀ : initial.search.Sound (Serving db) := fun n hn => absurd hn List.not_mem_nil
  obtain ⟨_, ⟨-, rfl⟩, hs⟩ := (simulates_search db).transfer ⟨promptInv_initial, rfl⟩ h
    fun _ hq => h₀.of_reachable hq
  exact hs

/-- **Under prompt answers every line shown serves the selected pair.** -/
theorem sound_of_prompt (h : ((lts db).guard Prompt).Reachable initial s) : s.Sound db := by
  intro n hn
  obtain ⟨⟨id1, id2⟩, hq, hserves⟩ := search_sound h n hn
  simp only [search, Option.bind_eq_some_iff, Option.map_eq_some_iff, Prod.mk.injEq] at hq
  obtain ⟨_, h1, _, h2, rfl, rfl⟩ := hq
  exact ⟨_, _, h1, h2, hserves⟩

/-! ### The lines shown in the end -/

/-- The run of the last selection has finished and all its reads are answered. -/
def Done (s : HomePage) : Prop :=
  ∃ c, s.calculations.getLast? = some c ∧ c.Finished ∧ c.pending = []

/-- A finished page misses no line that serves a pair of its stops. -/
theorem mem_shown_of_serves (hdb : db.Regular) (hlisted : db.Listed)
    (h : (lts db).Reachable initial s) (hch : s.Chosen id1 id2) (hdone : s.Done)
    (hp : ∃ p ∈ db.przystanki, p.id = id1) (hq : ∃ q ∈ db.przystanki, q.id = id2)
    (hn : LineServes db n id1 id2) : n ∈ s.D := by
  obtain ⟨c, hlast, hfin, hans⟩ := hdone
  obtain ⟨p, hp, rfl⟩ := hp
  obtain ⟨q, hq, rfl⟩ := hq
  obtain ⟨line, hline, j, hj, hg⟩ := hn
  rw [List.getLast?_eq_getElem?] at hlast
  have hok := (inv_of_reachable h).ok c (List.mem_of_getElem? hlast)
  have hcomp := (lastComplete_of_reachable hdb h p.id q.id hch c hlast).resolve_left
    (by simp [hfin.1])
  -- the route stops at both, so the line is listed at both
  obtain ⟨a, ha, b, hb, haid, hbid, -⟩ := id hg
  have hmem := hcomp.collected p hp q hq rfl rfl line (hlisted line j hj a ha p hp haid)
    (hlisted line j hj b hb q hq hbid)
  obtain ⟨i, hi⟩ := hok.covered.issued_of_finished hfin hj hmem
  exact (hcomp.answered _ hi).resolve_left (by simp [hans]) n hline hg

/-- The search of a finished page has found all lines that serve the pair. -/
theorem mem_D_iff (hdb : db.Regular) (hlisted : db.Listed)
    (h : ((lts db).guard Prompt).Reachable initial s) (hch : s.Chosen id1 id2) (hdone : s.Done)
    (hp : ∃ p ∈ db.przystanki, p.id = id1) (hq : ∃ q ∈ db.przystanki, q.id = id2) :
    n ∈ s.D ↔ LineServes db n id1 id2 := by
  have hfound := (search_sound h).found_eq (search_query hch.id1_eq hch.id2_eq)
    fun n hn => mem_shown_of_serves hdb hlisted h.of_guard hch hdone hp hq hn
  exact Set.ext_iff.1 hfound n

/-- **When it has finished, the page shows exactly the lines that serve the selected pair**, in
ascending order: the list depends neither on the order of the answers and waits nor on what was
selected before. -/
theorem shown_iff (hdb : db.Regular) (hlisted : db.Listed)
    (h : ((lts db).guard Prompt).Reachable initial s) (hch : s.Chosen id1 id2) (hdone : s.Done)
    (hp : ∃ p ∈ db.przystanki, p.id = id1) (hq : ∃ q ∈ db.przystanki, q.id = id2) :
    s.D.Pairwise (· < ·) ∧ ∀ n, n ∈ s.D ↔ LineServes db n id1 id2 := by
  exact ⟨sorted_of_reachable h.of_guard, fun n => mem_D_iff hdb hlisted h hch hdone hp hq⟩

theorem listed_oneLine : oneLine.Listed := by
  rintro line j - r hr p hp -
  unfold oneLine at hr
  dsimp only at hr
  split at hr
  · revert p
    decide
  · revert p
    decide
  · exact absurd hr List.not_mem_nil

/-- The answers for line 5 come in before the closure goes on. -/
theorem exists_prompt_oneLine : ∃ s, ((lts oneLine).guard Prompt).Reachable initial s ∧
    s.Chosen 10 20 ∧ s.Done ∧ s.D = [5] := by
  obtain ⟨s, hs, h⟩ : ∃ s,
      ([.select1 "Dworzec" 10, .select2 "Ratusz" 20, .stops 2 oneLine.przystanki,
        .route 2 ⟨0, 2, "5"⟩ (oneLine.trasa "5" 2), .route 2 ⟨0, 1, "5"⟩ (oneLine.trasa "5" 1),
        .wait 2 0] : List Event).foldlM (Lts.guarded Prompt (step oneLine)) initial = some s ∧
      s.Chosen 10 20 ∧ s.Done ∧ s.D = [5] :=
    ⟨_, rfl, ⟨by decide, rfl, rfl⟩, ⟨_, rfl, by decide, rfl⟩, by decide⟩
  exact ⟨s, (Lts.guard_run_of_foldlM hs).reachable, h⟩

/-- Line 5 serves the pair for which it is shown. -/
theorem sound_of_prompt_oneLine : ∃ s : HomePage, s.D = [5] ∧ s.Sound oneLine := by
  obtain ⟨s, hreach, -, -, hD⟩ := exists_prompt_oneLine
  exact ⟨s, hD, sound_of_prompt hreach⟩

theorem shown_iff_oneLine : ∃ s : HomePage, s.D = [5] ∧
    s.D.Pairwise (· < ·) ∧ ∀ n, n ∈ s.D ↔ LineServes oneLine n 10 20 := by
  obtain ⟨s, hreach, hch, hdone, hD⟩ := exists_prompt_oneLine
  exact ⟨s, hD, shown_iff wellFormed_oneLine.toRegular listed_oneLine hreach hch hdone
    ⟨_, List.mem_cons_self, rfl⟩ ⟨_, List.mem_cons_of_mem _ List.mem_cons_self, rfl⟩⟩

end HomePage

end MapaZimSlupsk
