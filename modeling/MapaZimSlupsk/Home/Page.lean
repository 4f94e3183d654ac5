import MapaZimSlupsk.Home.Coverage
import MapaZimSlupsk.Home.Route

/-!
# The home page

The home page shows two selected stops and the list `D` of the lines that go from the first to the
second.  Every selection clears `D` and starts a run of `calculateLines`; earlier runs are not
stopped, and go on writing to the same `D` while the variables `id1` and `id2` that they read are
already those of the new selection.

* `HomePage` : the fields of the page and the runs started so far.
* `HomePage.Event`, `HomePage.step` : what may happen next, and what it does.
* `HomePage.lts db` : the page over the database `db`, from `HomePage.initial` on.

The answer to a read holds the documents of the collection in any order.  `HomePage.Effect` lists
what a step can do to a mounted page, `Calculation.Effect` what it can do to a run; the invariants are
proved from them.
-/

namespace MapaZimSlupsk

/-- The label of an end of the journey that is not chosen yet. -/
def wybierzPrzystanek : String := "Wybierz przystanek"

/-- The state of the home page. -/
structure HomePage where
  mounted : Bool := true
  /-- The calls of `setState` made after the disposal of the page. -/
  lateSetStates : ℕ := 0
  haslo : String := ""
  przystanek1 : String := wybierzPrzystanek
  przystanek2 : String := wybierzPrzystanek
  id1 : Option ℤ := none
  id2 : Option ℤ := none
  /-- The lines shown to the user. -/
  D : List ℤ := []
  /-- The read of `getText` is not answered yet. -/
  textRead : Bool := false
  /-- The runs of `calculateLines`, in the order of their start. -/
  calculations : List Calculation := []
  deriving DecidableEq, Repr

namespace HomePage

/-- What may happen to the page. -/
inductive Event where
  /-- The stop `name`, `id` is chosen as the first end. -/
  | select1 (name : String) (id : ℤ)
  /-- The stop `name`, `id` is chosen as the second end. -/
  | select2 (name : String) (id : ℤ)
  /-- The answer to the read of `getText`: the field `x`, if the document exists. -/
  | text (x : Option String)
  /-- The answer to the read of `Przystanki` of the `k`-th run. -/
  | stops (k : ℕ) (docs : List Przystanek)
  /-- The wait of the `m`-th suspended closure of the `k`-th run expires. -/
  | wait (k m : ℕ)
  /-- The answer to the read `r` of the `k`-th run. -/
  | route (k : ℕ) (r : RouteRead) (docs : List RouteStop)

/-- A call of `setState` on a disposed page throws. -/
def late (s : HomePage) (n : ℕ) : HomePage := { s with lateSetStates := s.lateSetStates + n }

/-- Both ends are chosen, as `calculateLines` tests it. -/
def BothChosen (s : HomePage) : Prop :=
  s.przystanek1 ≠ wybierzPrzystanek ∧ s.przystanek2 ≠ wybierzPrzystanek

instance (s : HomePage) : Decidable s.BothChosen := by unfold BothChosen; infer_instance

def calculateLines (s : HomePage) : HomePage :=
  if s.mounted then
    { s with D := [], calculations := s.calculations ++ [{ waiting := decide s.BothChosen }] }
  else s.late 1

def getText (s : HomePage) : HomePage := { s with textRead := true }

/-- The page after `initState`. -/
def initial : HomePage := (getText {}).calculateLines

def select1 (s : HomePage) (name : String) (id : ℤ) : HomePage :=
  if s.mounted then calculateLines { s with przystanek1 := name, id1 := some id } else s.late 1

def select2 (s : HomePage) (name : String) (id : ℤ) : HomePage :=
  if s.mounted then calculateLines { s with przystanek2 := name, id2 := some id } else s.late 1

/-- The answer to the read of `getText`. -/
def onText (s : HomePage) (x : Option String) : HomePage :=
  let s := { s with textRead := false }
  match x with
  | none => s
  | some x => if s.mounted then { s with haslo := x } else s.late 1

/-- The documents of `Przystanki` at which a closure calls `setState`. -/
def Selected (id1 id2 : ℤ) (doc : Przystanek) : Prop := doc.id = id1 ∨ doc.id = id2

instance (id1 id2 : ℤ) (doc : Przystanek) : Decidable (Selected id1 id2 doc) := by
  unfold Selected; infer_instance

/-- The answer to the read of `Przystanki` of the `k`-th run `c`. -/
def onStops (s : HomePage) (k : ℕ) (c : Calculation) (docs : List Przystanek) : HomePage :=
  let c := { c with waiting := false }
  match s.id1, s.id2 with
  | some id1, some id2 =>
    if s.mounted then
      { s with calculations := s.calculations.set k (c.onPrzystanki id1 id2 docs) }
    else
      -- the closures of the selected stops end with the exception thrown by `setState`
      let others := docs.filter fun doc => ¬ Selected id1 id2 doc
      { s.late (docs.countP fun doc => Selected id1 id2 doc) with
        calculations := s.calculations.set k (c.onPrzystanki id1 id2 others) }
  -- reading `id1` or `id2` before it is set would end every closure by an exception
  | _, _ => { s with calculations := s.calculations.set k c }

/-- The answer to the read `r` of the `k`-th run `c`.  The handler reads the line off `C`. -/
def onRoute (s : HomePage) (k : ℕ) (c : Calculation) (r : RouteRead) (docs : List RouteStop) :
    HomePage :=
  let c := { c with pending := c.pending.erase r }
  match s.id1, s.id2 with
  | some id1, some id2 =>
    let h := handleRoute s.mounted id1 id2 r.j (c.C[r.i]?.getD "")
      ⟨c.vars, s.D, s.lateSetStates⟩ docs
    { s with
      D := h.D
      lateSetStates := h.lateSetStates
      calculations := s.calculations.set k { c with vars := h.vars } }
  | _, _ => { s with calculations := s.calculations.set k c }

/-- The step of the page over the database `db`; `none` if the event cannot happen. -/
def step (db : Firestore) (s : HomePage) : Event → Option HomePage
  | .select1 name id => some (s.select1 name id)
  | .select2 name id => some (s.select2 name id)
  | .text x => if s.textRead then some (s.onText x) else none
  | .stops k docs =>
    (s.calculations[k]?).bind fun c =>
      if c.waiting ∧ docs.Perm db.przystanki then some (s.onStops k c docs) else none
  | .wait k m =>
    (s.calculations[k]?).bind fun c =>
      (c.resume m).map fun c => { s with calculations := s.calculations.set k c }
  | .route k r docs =>
    (s.calculations[k]?).bind fun c =>
      if r ∈ c.pending ∧ docs.Perm (db.trasa r.line r.j) then some (s.onRoute k c r docs)
      else none

/-- The home page over the database `db`. -/
def lts (db : Firestore) : Lts HomePage Event := .ofFun (step db)

/-! ### What a step can do -/

/-- What a step does to a mounted page. -/
inductive Effect (db : Firestore) (s : HomePage) : Event → HomePage → Prop
  | select1 (name : String) (id : ℤ) (waiting : Bool)
      (hw : waiting = true ↔ name ≠ wybierzPrzystanek ∧ s.przystanek2 ≠ wybierzPrzystanek) :
      Effect db s (.select1 name id) { s with
        przystanek1 := name, id1 := some id, D := [],
        calculations := s.calculations ++ [{ waiting := waiting }] }
  | select2 (name : String) (id : ℤ) (waiting : Bool)
      (hw : waiting = true ↔ s.przystanek1 ≠ wybierzPrzystanek ∧ name ≠ wybierzPrzystanek) :
      Effect db s (.select2 name id) { s with
        przystanek2 := name, id2 := some id, D := [],
        calculations := s.calculations ++ [{ waiting := waiting }] }
  | text (x : Option String) (haslo : String) :
      Effect db s (.text x) { s with textRead := false, haslo := haslo }
  | stops (k : ℕ) (docs : List Przystanek) (c : Calculation) (id1 id2 : ℤ)
      (hk : s.calculations[k]? = some c) (hw : c.waiting = true)
      (hdocs : docs.Perm db.przystanki) (h1 : s.id1 = some id1) (h2 : s.id2 = some id2) :
      Effect db s (.stops k docs) { s with
        calculations := s.calculations.set k
          (Calculation.onPrzystanki id1 id2 { c with waiting := false } docs) }
  | stopsUnset (k : ℕ) (docs : List Przystanek) (c : Calculation)
      (hk : s.calculations[k]? = some c) (hw : c.waiting = true)
      (hids : s.id1 = none ∨ s.id2 = none) :
      Effect db s (.stops k docs) { s with
        calculations := s.calculations.set k { c with waiting := false } }
  | wait (k m : ℕ) (c c' : Calculation) (hk : s.calculations[k]? = some c)
      (hr : c.resume m = some c') :
      Effect db s (.wait k m) { s with calculations := s.calculations.set k c' }
  | route (k : ℕ) (r : RouteRead) (docs : List RouteStop) (c : Calculation) (id1 id2 : ℤ)
      (h : HandlerState) (hk : s.calculations[k]? = some c) (hr : r ∈ c.pending)
      (hdocs : docs.Perm (db.trasa r.line r.j)) (h1 : s.id1 = some id1) (h2 : s.id2 = some id2)
      (hh : h = handleRoute true id1 id2 r.j (c.C[r.i]?.getD "")
        ⟨c.vars, s.D, s.lateSetStates⟩ docs) :
      Effect db s (.route k r docs) { s with
        D := h.D
        lateSetStates := h.lateSetStates
        calculations := s.calculations.set k
          { c with pending := c.pending.erase r, vars := h.vars } }
  | routeUnset (k : ℕ) (r : RouteRead) (docs : List RouteStop) (c : Calculation)
      (hk : s.calculations[k]? = some c) (hr : r ∈ c.pending)
      (hids : s.id1 = none ∨ s.id2 = none) :
      Effect db s (.route k r docs) { s with
        calculations := s.calculations.set k { c with pending := c.pending.erase r } }

variable {db : Firestore} {s t : HomePage} {e : Event}

theorem effect_of_step (hm : s.mounted = true) (h : step db s e = some t) : Effect db s e t := by
  obtain ⟨mounted, late, haslo, przystanek1, przystanek2, id1, id2, D, textRead, calcs⟩ := s
  obtain rfl : mounted = true := hm
  cases e with
  | select1 name id =>
    cases h
    exact .select1 name id _ decide_eq_true_iff
  | select2 name id =>
    cases h
    exact .select2 name id _ decide_eq_true_iff
  | text x =>
    obtain ⟨-, h⟩ := Option.ite_none_right_eq_some.1 h
    cases h
    cases x with
    | none => exact .text none haslo
    | some x => exact .text (some x) x
  | stops k docs =>
    obtain ⟨c, hk, h⟩ := Option.bind_eq_some_iff.1 h
    obtain ⟨⟨hw, hdocs⟩, h⟩ := Option.ite_none_right_eq_some.1 h
    cases h
    cases id1 with
    | none => exact .stopsUnset k docs c hk hw (.inl rfl)
    | some id1 =>
      cases id2 with
      | none => exact .stopsUnset k docs c hk hw (.inr rfl)
      | some id2 => exact .stops k docs c id1 id2 hk hw hdocs rfl rfl
  | wait k m =>
    obtain ⟨c, hk, h⟩ := Option.bind_eq_some_iff.1 h
    obtain ⟨c', hr, h⟩ := Option.map_eq_some_iff.1 h
    cases h
    exact .wait k m c c' hk hr
  | route k r docs =>
    obtain ⟨c, hk, h⟩ := Option.bind_eq_some_iff.1 h
    obtain ⟨⟨hr, hdocs⟩, h⟩ := Option.ite_none_right_eq_some.1 h
    cases h
    cases id1 with
    | none => exact .routeUnset k r docs c hk hr (.inl rfl)
    | some id1 =>
      cases id2 with
      | none => exact .routeUnset k r docs c hk hr (.inr rfl)
      | some id2 => exact .route k r docs c id1 id2 _ hk hr hdocs rfl rfl rfl

end HomePage

/-! ### What a step does to the runs -/

/-- What an answer or an expired wait does to a run. -/
inductive Calculation.Effect (db : Firestore) (c : Calculation) : Calculation → Prop
  | stops (id1 id2 : ℤ) (docs : List Przystanek) (hw : c.waiting = true)
      (hdocs : docs.Perm db.przystanki) :
      Effect db c (onPrzystanki id1 id2 { c with waiting := false } docs)
  | stopsUnset (hw : c.waiting = true) : Effect db c { c with waiting := false }
  | wait (m : ℕ) (c' : Calculation) (hr : c.resume m = some c') : Effect db c c'
  | answer (r : RouteRead) (vars : IndexVars) (hr : r ∈ c.pending) :
      Effect db c { c with pending := c.pending.erase r, vars := vars }

namespace HomePage

variable {db : Firestore} {s t : HomePage} {e : Event}

/-- **What holds of every new run and is kept by what happens to a run holds of all runs.** -/
theorem Effect.forall_calculations {P : Calculation → Prop} (he : Effect db s e t)
    (h : ∀ c ∈ s.calculations, P c) (hnew : ∀ waiting, P { waiting := waiting })
    (hrun : ∀ c ∈ s.calculations, ∀ c', c.Effect db c' → P c') : ∀ c ∈ t.calculations, P c := by
  have push : ∀ waiting : Bool, ∀ d ∈ s.calculations ++ [{ waiting := waiting }], P d := by
    intro waiting d hd
    rcases List.mem_append.1 hd with hd | hd
    · exact h d hd
    · exact List.mem_singleton.1 hd ▸ hnew waiting
  have set : ∀ {k : ℕ} {c c' : Calculation}, s.calculations[k]? = some c → c.Effect db c' →
      ∀ d ∈ s.calculations.set k c', P d := by
    intro k c c' hk hc d hd
    rcases List.mem_or_eq_of_mem_set hd with hd | rfl
    · exact h d hd
    · exact hrun c (List.mem_of_getElem? hk) d hc
  cases he with
  | select1 => exact push _
  | select2 => exact push _
  | text => exact h
  | stops k docs c id1 id2 hk hw hdocs => exact set hk (.stops id1 id2 docs hw hdocs)
  | stopsUnset k docs c hk hw => exact set hk (.stopsUnset hw)
  | wait k m c c' hk hr => exact set hk (.wait m c' hr)
  | route k r docs c id1 id2 hs hk hr => exact set hk (.answer r hs.vars hr)
  | routeUnset k r docs c hk hr => exact set hk (.answer r c.vars hr)

end HomePage

end MapaZimSlupsk
