import MapaZimSlupsk.App.Stack
import MapaZimSlupsk.Lts.Simulation

/-!
# The pages one by one

Every page of the app runs as a system of its own; the app decides when it is opened and disposed.

* `App.Turn` : what a step of the app does to one of its pages.
* `App.Move.turn`, `App.Move.fresh` : every page takes a turn in every step, and a new page is
  fresh.
* `App.home_reachable`, `App.near_reachable` : **the pages of a run of the app are in states that
  they reach on their own**, also under a condition on their events.
-/

namespace MapaZimSlupsk

namespace App

variable {db : Firestore} {a b : App} {e : Event} {k : ℕ} {pg pg' : Page}

/-! ### Turns -/

/-- What a step of the app does to its `k`-th page. -/
inductive Turn (db : Firestore) (a : App) (k : ℕ) : Event → Page → Page → Prop
  | same (e : Event) (pg : Page) : Turn db a k e pg pg
  | leaveTab (t : Tab) (pg : Page) (hk : a.tabPage = some k) (hnear : ∀ s, pg ≠ .near s) :
      Turn db a k (.tab t) pg pg.dispose
  | leave (result : Option (String × ℤ)) (pg : Page) (hhome : ∀ s, pg ≠ .home s)
      (hnear : ∀ s, pg = .near s → s.step .dispose = some s.dispose) :
      Turn db a k (.pop result) pg pg.dispose
  | chosen (r : String × ℤ) (j : ℕ) (first : Bool) (routes : List Route) (s : ChooseFromMap)
      (hs : HomePage) (hr : a.routes = .choose j k first :: routes)
      (hj : a.pages[j]? = some (.choose s)) (hmem : r ∈ s.results) :
      Turn db a k (.pop (some r)) (.home hs) (.home (select hs first r))
  | home (e : HomePage.Event) (s t : HomePage) (hst : s.step db e = some t)
      (hsel : ∀ name id, e ≠ .select1 name id ∧ e ≠ .select2 name id) :
      Turn db a k (.home k e) (.home s) (.home t)
  | near (e : NearStopsPage.Event) (s t : NearStopsPage) (hst : s.step e = some t) :
      Turn db a k (.near k e) (.near s) (.near t)
  | map (docs : List Przystanek) (s : MapPage) (hread : s.reading = true) :
      Turn db a k (.markers k docs) (.map s) (.map (s.onPrzystanki docs))
  | choose (docs : List Przystanek) (s : ChooseFromMap) (hread : s.reading = true) :
      Turn db a k (.markers k docs) (.choose s) (.choose (s.onPrzystanki docs))

/-- The pages as they are when they are opened. -/
def Fresh (pg : Page) : Prop :=
  pg = .home .initial ∨ pg = .near .initial ∨ pg = .map .initial ∨ pg = .choose .initial

/-- A page is replaced: the others stay. -/
theorem getElem?_setPage (hk : a.pages[k]? = some pg) {j : ℕ} :
    (a.setPage k pg').pages[j]? = if k = j then some pg' else a.pages[j]? := by
  have hlt : k < a.pages.length := (List.getElem?_eq_some_iff.1 hk).1
  simp only [setPage, List.getElem?_set]
  split_ifs with h
  · rfl
  · rfl

theorem getElem?_push_of_some {route : ℕ → Route} (hk : a.pages[k]? = some pg) :
    (a.push route pg').pages[k]? = some pg := by
  have hlt : k < a.pages.length := (List.getElem?_eq_some_iff.1 hk).1
  show (a.pages ++ [pg'])[k]? = _
  rw [List.getElem?_append_left hlt, hk]

theorem getElem?_pushMaps_of_some (n : ℕ) (hk : a.pages[k]? = some pg) :
    (pushMap^[n] a).pages[k]? = some pg := by
  induction n generalizing a with
  | zero => exact hk
  | succ n ih => exact ih (getElem?_push_of_some hk)

/-- The page of a tab is not one of the nearest stops. -/
theorem Stacked.tabPage_ne_near (h : Stacked a) (htab : a.tabPage = some k)
    (hk : a.pages[k]? = some pg) (s : NearStopsPage) : pg ≠ .near s := by
  rintro rfl
  have hkind : a.kind k = some .near := kind_of_getElem? hk
  obtain hκ | hκ := h.tabFits.kind_cases htab
  · cases hkind.symm.trans hκ
  · cases hkind.symm.trans hκ

theorem length_leftPages (a : App) : a.leftPages.length = a.pages.length := by
  unfold leftPages
  split
  · rfl
  · exact List.length_modify ..

theorem Stacked.turn_leftPages (db : Firestore) (h : Stacked a) (hk : a.pages[k]? = some pg)
    (t : Tab) :
    ∃ pg', a.leftPages[k]? = some pg' ∧ Turn db a k (.tab t) pg pg' := by
  unfold leftPages
  split
  · exact ⟨pg, hk, .same _ _⟩
  · rename_i j htab
    rw [List.getElem?_modify, hk]
    by_cases he : j = k
    · subst he
      exact ⟨pg.dispose, by simp, .leaveTab t pg htab (h.tabPage_ne_near htab hk)⟩
    · exact ⟨pg, by simp [he], .same _ _⟩

theorem getElem?_openTab (hk : a.leftPages[k]? = some pg) (t : Tab) :
    (a.openTab t).pages[k]? = some pg := by
  have happend : ∀ new : Page, (a.leftPages ++ [new])[k]? = some pg := fun new => by
    rw [List.getElem?_append_left (List.getElem?_eq_some_iff.1 hk).1, hk]
  cases t with
  | home => exact happend _
  | lines => exact hk
  | map => exact happend _

/-- **Every page takes a turn in every step.** -/
theorem Move.turn (hm : Move db a e b) (hs : Stacked a) (hk : a.pages[k]? = some pg) :
    ∃ pg', b.pages[k]? = some pg' ∧ Turn db a k e pg pg' := by
  have replaced : ∀ {j : ℕ} {old new : Page} {e : Event}, a.pages[j]? = some old →
      (j = k → Turn db a k e old new) →
      ∃ pg', (a.setPage j new).pages[k]? = some pg' ∧ Turn db a k e pg pg' := by
    intro j old new e hj hturn
    rw [getElem?_setPage hj]
    split_ifs with he
    · subst he
      obtain rfl : old = pg := Option.some.inj (hj.symm.trans hk)
      exact ⟨new, rfl, hturn rfl⟩
    · exact ⟨pg, hk, .same _ _⟩
  cases hm with
  | tab t hr ht =>
    obtain ⟨pg', hk', hturn⟩ := hs.turn_leftPages db hk t
    exact ⟨pg', getElem?_openTab hk' t, hturn⟩
  | openNear | openChoose | openMap => exact ⟨pg, getElem?_push_of_some hk, .same _ _⟩
  | openStops | closeStops => exact ⟨pg, hk, .same _ _⟩
  | closeNear result j routes s hr hj hst =>
    exact replaced hj fun _ => .leave result (.near s) (fun _ => nofun) fun s' hs => by
      cases hs
      exact hst
  | closeMap result j routes s hr hj =>
    exact replaced hj fun _ => .leave result (.map s) (fun _ => nofun) fun _ => nofun
  | cancel j home first routes s hs hr hj =>
    exact replaced hj fun _ => .leave none (.choose s) (fun _ => nofun) fun _ => nofun
  | chosen r j home first routes s hs hr hj hh hmem =>
    obtain ⟨pg₁, hk₁, hturn⟩ := replaced (e := .pop (some r)) hj fun _ =>
      .leave (some r) (.choose s) (fun _ => nofun) fun _ => nofun
    have hh' := getElem?_setPage_opener hj hh (.choose s.dispose)
    show ∃ pg', ((a.setPage j (.choose s.dispose)).setPage home _).pages[k]? = some pg' ∧ _
    rw [getElem?_setPage hh']
    split_ifs with he
    · subst he
      obtain rfl : .home hs = pg := Option.some.inj (hh.symm.trans hk)
      exact ⟨_, rfl, .chosen r j first routes s hs hr hj hmem⟩
    · exact ⟨pg₁, hk₁, hturn⟩
  | home j e s t hj hst hsel => exact replaced hj fun he => by subst he; exact .home e s t hst hsel
  | near j e s t hj hst =>
    obtain ⟨pg', hk', hturn⟩ := replaced (e := .near j e) hj fun he => by
      subst he
      exact .near e s t hst
    exact ⟨pg', getElem?_pushMaps_of_some _ hk', hturn⟩
  | map j docs s hj hread => exact replaced hj fun he => by subst he; exact .map docs s hread
  | choose j docs s hj hread => exact replaced hj fun he => by subst he; exact .choose docs s hread

/-- Behind the pages there is only the new one. -/
theorem eq_of_getElem?_concat {pages : List Page} (hle : pages.length ≤ k)
    (hb : (pages ++ [pg'])[k]? = some pg) : pg = pg' := by
  rw [List.getElem?_append_right hle, List.getElem?_singleton] at hb
  exact (Option.some.inj (Option.ite_none_right_eq_some.1 hb).2).symm

theorem eq_of_getElem?_push {route : ℕ → Route} (hk : a.pages[k]? = none)
    (hb : (a.push route pg').pages[k]? = some pg) : pg = pg' :=
  eq_of_getElem?_concat (List.getElem?_eq_none_iff.1 hk) hb

theorem fresh_pushMaps (n : ℕ) (hk : a.pages[k]? = none)
    (hb : (pushMap^[n] a).pages[k]? = some pg) : Fresh pg := by
  induction n generalizing a with
  | zero => cases hk.symm.trans hb
  | succ n ih =>
    cases hnew : a.pushMap.pages[k]? with
    | none => exact ih hnew hb
    | some new =>
      obtain rfl : new = pg := Option.some.inj ((getElem?_pushMaps_of_some n hnew).symm.trans hb)
      exact .inr (.inr (.inl (eq_of_getElem?_push hk hnew)))

/-- **A page that was not there before is fresh.** -/
theorem Move.fresh (hm : Move db a e b) (hk : a.pages[k]? = none)
    (hb : b.pages[k]? = some pg) : Fresh pg := by
  have setPage : ∀ {a : App} {j : ℕ} {new : Page}, a.pages[k]? = none →
      (a.setPage j new).pages[k]? = none := by
    intro a j new hk
    rw [List.getElem?_eq_none_iff] at hk ⊢
    simpa [App.setPage] using hk
  cases hm with
  | tab t =>
    have hle : a.leftPages.length ≤ k := a.length_leftPages ▸ List.getElem?_eq_none_iff.1 hk
    cases t with
    | home => exact .inl (eq_of_getElem?_concat hle hb)
    | lines => cases (List.getElem?_eq_none_iff.2 hle).symm.trans hb
    | map => exact .inr (.inr (.inl (eq_of_getElem?_concat hle hb)))
  | openNear => exact .inr (.inl (eq_of_getElem?_push hk hb))
  | openChoose => exact .inr (.inr (.inr (eq_of_getElem?_push hk hb)))
  | openMap => exact .inr (.inr (.inl (eq_of_getElem?_push hk hb)))
  | openStops | closeStops => cases hk.symm.trans hb
  | closeNear | closeMap | cancel | home | map | choose => cases (setPage hk).symm.trans hb
  | chosen => cases (setPage (setPage hk)).symm.trans hb
  | near => exact fresh_pushMaps _ (setPage hk) hb

/-- Where the pages after a step come from. -/
theorem Move.page_cases (hm : Move db a e b) (hs : Stacked a) (hb : b.pages[k]? = some pg) :
    Fresh pg ∨ ∃ old, a.pages[k]? = some old ∧ Turn db a k e old pg := by
  cases hk : a.pages[k]? with
  | none => exact .inl (hm.fresh hk hb)
  | some old =>
    obtain ⟨pg', hb', hturn⟩ := hm.turn hs hk
    obtain rfl : pg' = pg := Option.some.inj (hb'.symm.trans hb)
    exact .inr ⟨old, rfl, hturn⟩

/-! ### Pages that run on their own -/

def homeAt (a : App) (k : ℕ) : Option HomePage :=
  match a.pages[k]? with
  | some (.home s) => some s
  | _ => none

def nearAt (a : App) (k : ℕ) : Option NearStopsPage :=
  match a.pages[k]? with
  | some (.near s) => some s
  | _ => none

/-- The home page that waits for a choice, and whether for its first end. -/
def opener (a : App) : Option (HomePage × Bool) :=
  match a.routes with
  | .choose _ k first :: _ => (a.homeAt k).map fun s => (s, first)
  | _ => none

theorem homeAt_eq {s : HomePage} (hk : a.pages[k]? = some (.home s)) : a.homeAt k = some s := by
  simp only [homeAt, hk]

theorem nearAt_eq_some_iff {s : NearStopsPage} :
    a.nearAt k = some s ↔ a.pages[k]? = some (.near s) := by
  unfold nearAt
  split
  · rename_i hk
    rw [hk, Option.some.injEq, Option.some.injEq, Page.near.injEq]
  · rename_i hne
    exact iff_of_false nofun (hne s)

/-- The event of the home page that gets the choice `r`. -/
def selection (first : Bool) (r : String × ℤ) : HomePage.Event :=
  if first then .select1 r.1 r.2 else .select2 r.1 r.2

/-- The events of the home pages meet `C`. -/
def Homes (C : HomePage → HomePage.Event → Prop) (a : App) : Event → Prop
  | .home k e => ∀ s ∈ a.homeAt k, C s e
  | .pop (some r) => ∀ o ∈ a.opener, C o.1 (selection o.2 r)
  | _ => True

instance (C : HomePage → HomePage.Event → Prop) [∀ s, DecidablePred (C s)] (a : App) :
    DecidablePred (Homes C a) := fun e => by
  unfold Homes
  split <;> infer_instance

/-- The events of the pages of the nearest stops meet `C`. -/
def Nears (C : NearStopsPage → NearStopsPage.Event → Prop) (a : App) : Event → Prop
  | .near k e => ∀ s ∈ a.nearAt k, C s e
  | _ => True

instance (C : NearStopsPage → NearStopsPage.Event → Prop) [∀ s, DecidablePred (C s)] (a : App) :
    DecidablePred (Nears C a) := fun e => by
  unfold Nears
  split <;> infer_instance

theorem step_select (db : Firestore) (s : HomePage) (first : Bool) (r : String × ℤ) :
    (HomePage.lts db).step s (selection first r) (select s first r) := by
  cases first with
  | true => rfl
  | false => rfl

/-- **The home page that is there is in a state that it reaches on its own.** -/
theorem home_reachable {C : HomePage → HomePage.Event → Prop} {s : HomePage}
    (h : ((lts db).guard (Homes C)).Reachable initial a) (hk : a.pages[k]? = some (.home s))
    (hm : s.mounted = true) : ((HomePage.lts db).guard C).Reachable .initial s := by
  refine h.forall_parts (J := Stacked) (P := fun a s => ∃ k, a.pages[k]? = some (.home s) ∧
    s.mounted = true) stacked_initial ?_ (fun _ _ _ hs hst => hs.move (move_of_step hst.2)) ?_ s
    ⟨k, hk, hm⟩
  · rintro t ⟨k, hk, -⟩
    exact Page.home.inj (List.mem_singleton.1 (List.mem_of_getElem? hk))
  · rintro a e b hs ⟨hC, hst⟩ t ⟨k, hk, hm⟩
    obtain (hf | hf | hf | hf) | ⟨old, hold, hturn⟩ := (move_of_step hst).page_cases hs hk
    · exact .inl (Page.home.inj hf)
    · cases hf
    · cases hf
    · cases hf
    · refine .inr ?_
      generalize hnew : Page.home t = new at hturn
      cases hturn with
      | same => exact ⟨t, ⟨k, hnew ▸ hold, hm⟩, .inl rfl⟩
      | leaveTab | leave =>
        have halive : (Page.home t).Alive := hm
        rw [hnew] at halive
        exact absurd halive old.not_alive_dispose
      | chosen r j first routes c hs hr hj hmem =>
        cases hnew
        have hopener : a.opener = some (hs, first) := by
          simp only [opener, hr, homeAt_eq hold, Option.map_some]
        refine ⟨hs, ⟨k, hold, ?_⟩, .inr ⟨_, hC _ hopener, step_select db hs first r⟩⟩
        rwa [select_mounted db] at hm
      | home e s t hst =>
        cases hnew
        refine ⟨s, ⟨k, hold, ?_⟩, .inr ⟨e, hC s (homeAt_eq hold), hst⟩⟩
        rwa [HomePage.step_mounted hst] at hm
      | near | map | choose => cases hnew

/-- **A page of the nearest stops is in a state that it reaches on its own**, also when it is
gone. -/
theorem near_reachable {C : NearStopsPage → NearStopsPage.Event → Prop} {s : NearStopsPage}
    (h : ((lts db).guard (Nears C)).Reachable initial a) (hk : a.pages[k]? = some (.near s))
    (hC : ∀ s, C s .dispose) : (NearStopsPage.lts.guard C).Reachable .initial s := by
  refine h.forall_parts (J := Stacked) (P := fun a s => ∃ k, a.pages[k]? = some (.near s))
    stacked_initial ?_ (fun _ _ _ hs hst => hs.move (move_of_step hst.2)) ?_ s ⟨k, hk⟩
  · rintro t ⟨k, hk⟩
    cases List.mem_singleton.1 (List.mem_of_getElem? hk)
  · rintro a e b hs ⟨hG, hst⟩ t ⟨k, hk⟩
    obtain (hf | hf | hf | hf) | ⟨old, hold, hturn⟩ := (move_of_step hst).page_cases hs hk
    · cases hf
    · exact .inl (Page.near.inj hf)
    · cases hf
    · cases hf
    · refine .inr ?_
      generalize hnew : Page.near t = new at hturn
      cases hturn with
      | same => exact ⟨t, ⟨k, hnew ▸ hold⟩, .inl rfl⟩
      | leaveTab t' _ htab hnear =>
        cases old with
        | near s => exact absurd rfl (hnear s)
        | home | map | choose => cases hnew
      | leave result _ hhome hnear =>
        cases old with
        | near s =>
          cases hnew
          exact ⟨s, ⟨k, hold⟩, .inr ⟨.dispose, hC s, hnear s rfl⟩⟩
        | home | map | choose => cases hnew
      | near e s t hst =>
        cases hnew
        exact ⟨s, ⟨k, hold⟩, .inr ⟨e, hG s (nearAt_eq_some_iff.2 hold), hst⟩⟩
      | chosen | home | map | choose => cases hnew

/-- A page of the nearest stops opens the map, under answers that hold the collection. -/
theorem near_reachable_map : ∃ s : NearStopsPage, s.pushed = [(54, 17)] ∧
    (NearStopsPage.lts.guard fun _ =>
      NearStopsPage.Over [⟨"1", 10, "Dworzec", 54, 17, []⟩]).Reachable .initial s := by
  let docs : List Przystanek := [⟨"1", 10, "Dworzec", 54, 17, []⟩]
  obtain ⟨a, hrun, ha⟩ := Lts.exists_guard_run_of_any (Nears fun _ => NearStopsPage.Over docs)
    (step oneLine) initial
    [.openNear, .near 1 .build, .near 1 (.position (54, 16)), .near 1 (.near (54, 16) docs),
      .near 1 (.tap 0), .near 1 (.map 0 docs)]
    (fun a => (a.nearAt 1).any fun s => s.pushed = [(54, 17)]) (by decide +kernel)
  obtain ⟨s, hs, hpushed⟩ := (Option.any_eq_true _ _).1 ha
  exact ⟨s, of_decide_eq_true hpushed, near_reachable hrun.reachable (nearAt_eq_some_iff.1 hs)
    fun _ _ h => by cases h⟩

end App

end MapaZimSlupsk
