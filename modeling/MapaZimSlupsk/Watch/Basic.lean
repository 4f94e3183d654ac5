import Mathlib.Tactic.Common

/-!
# Watched queries

A widget watches the answers to a query and shows the last one.  When it is given another query it
listens to that one instead, and until the first answer it goes on showing what it has.

* `Watch` : the query, the state of the connection and the data shown.
* `Watch.start`, `Watch.rewatch`, `Watch.deliver`, `Watch.fail` : what may happen to it.
* `Watch.Sound` : over an active connection the data answers the query; other data answers one of
  the queries asked so far.
-/

namespace MapaZimSlupsk

/-- The state of the connection to the source of the answers. -/
inductive Connection where
  | waiting
  | active
  deriving DecidableEq, Repr

/-- A widget that watches the answers to a query. -/
structure Watch (Q α : Type*) where
  query : Q
  connection : Connection := .waiting
  /-- The answer shown. -/
  data : Option α := none
  deriving DecidableEq, Repr

namespace Watch

variable {Q α : Type*}

/-- Begin with the query `q`. -/
def start (q : Q) : Watch Q α := { query := q }

/-- Listen to the answers to `q` instead; the data stays. -/
def rewatch (w : Watch Q α) (q : Q) : Watch Q α := { w with query := q, connection := .waiting }

/-- An answer arrives. -/
def deliver (w : Watch Q α) (a : α) : Watch Q α := { w with connection := .active, data := some a }

/-- An error arrives. -/
def fail (w : Watch Q α) : Watch Q α := { w with connection := .active, data := none }

@[simp] theorem start_query (q : Q) : (start q : Watch Q α).query = q := rfl
@[simp] theorem rewatch_query (w : Watch Q α) (q : Q) : (w.rewatch q).query = q := rfl
@[simp] theorem deliver_query (w : Watch Q α) (a : α) : (w.deliver a).query = w.query := rfl
@[simp] theorem fail_query (w : Watch Q α) : w.fail.query = w.query := rfl

/-- The data shown is an answer to a query that has been asked, to the present one if the connection
is active. -/
structure Sound (answers : Q → α → Prop) (asked : Q → Prop) (w : Watch Q α) : Prop where
  query_asked : asked w.query
  current : w.connection = .active → ∀ a, w.data = some a → answers w.query a
  earlier : ∀ a, w.data = some a → ∃ q, asked q ∧ answers q a

variable {answers : Q → α → Prop} {asked asked' : Q → Prop} {w : Watch Q α} {q : Q} {a : α}

theorem sound_start (hq : asked q) : (start q).Sound answers asked :=
  ⟨hq, nofun, nofun⟩

namespace Sound

theorem mono (h : w.Sound answers asked) (hsub : ∀ q, asked q → asked' q) :
    w.Sound answers asked' where
  query_asked := hsub _ h.query_asked
  current := h.current
  earlier a ha := by
    obtain ⟨q, hq, hans⟩ := h.earlier a ha
    exact ⟨q, hsub q hq, hans⟩

theorem rewatch (h : w.Sound answers asked) (hq : asked q) : (w.rewatch q).Sound answers asked where
  query_asked := hq
  current := nofun
  earlier := h.earlier

theorem deliver (h : w.Sound answers asked) (ha : answers w.query a) :
    (w.deliver a).Sound answers asked where
  query_asked := h.query_asked
  current := by
    rintro - _ ⟨rfl⟩
    exact ha
  earlier := by
    rintro _ ⟨rfl⟩
    exact ⟨w.query, h.query_asked, ha⟩

theorem fail (h : w.Sound answers asked) : w.fail.Sound answers asked :=
  ⟨h.query_asked, fun _ => nofun, nofun⟩

end Sound

end Watch

end MapaZimSlupsk
