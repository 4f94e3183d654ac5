import MapaZimSlupsk.Lts.Basic
import Mathlib.Algebra.BigOperators.Group.Multiset.Basic
import Mathlib.Algebra.Order.Group.Multiset
import Mathlib.Tactic.Abel

/-!
# Walkers over one list of jobs

Several walkers go through the same list of jobs, each from its first job to its last and each at
its own pace.  Whatever the order of their moves, the jobs done and those ahead of the walkers add
up to the same jobs at all times, and so do the moves made and those left.

* `Walkers`, `Walkers.advance` : where the walkers stand, and the move of one of them.
* `Walkers.done_of_begin` : **`n` walkers that have come to the end have done every job `n` times**,
  in `n` moves for each job.
-/

namespace MapaZimSlupsk

/-- Walkers over the list `jobs`. -/
structure Walkers (α : Type*) where
  jobs : List α
  /-- For each walker the job that it has done last. -/
  cursors : List ℕ
  /-- The jobs done by all walkers. -/
  done : List α

namespace Walkers

variable {α : Type*} {w w' : Walkers α} {i k n : ℕ}

/-- The `k`-th walker does its next job, or leaves if there is none. -/
def advance (w : Walkers α) (k : ℕ) : Option (Walkers α) :=
  (w.cursors[k]?).map fun i =>
    match w.jobs[i + 1]? with
    | some a => { w with done := w.done ++ [a], cursors := w.cursors.eraseIdx k ++ [i + 1] }
    | none => { w with cursors := w.cursors.eraseIdx k }

/-- The walkers move in any order. -/
def lts : Lts (Walkers α) ℕ := .ofFun advance

/-- `n` walkers have done the first job. -/
def begin (n : ℕ) (a : α) (as : List α) : Walkers α where
  jobs := a :: as
  cursors := List.replicate n 0
  done := List.replicate n a

theorem advance_cases (h : w.advance k = some w') : ∃ i, w.cursors[k]? = some i ∧
    ((∃ a, w.jobs[i + 1]? = some a ∧ w' = { w with
        done := w.done ++ [a], cursors := w.cursors.eraseIdx k ++ [i + 1] }) ∨
      (w.jobs[i + 1]? = none ∧ w' = { w with cursors := w.cursors.eraseIdx k })) := by
  obtain ⟨i, hi, rfl⟩ := Option.map_eq_some_iff.1 h
  refine ⟨i, hi, ?_⟩
  cases hjob : w.jobs[i + 1]? with
  | some a => exact .inl ⟨a, rfl, rfl⟩
  | none => exact .inr ⟨rfl, rfl⟩

/-- A sum over the walkers, one of them taken out. -/
theorem sum_eraseIdx {β : Type*} [AddCommMonoid β] (f : ℕ → β) {cursors : List ℕ}
    (hi : cursors[k]? = some i) :
    f i + ((cursors.eraseIdx k).map f).sum = (cursors.map f).sum := by
  obtain ⟨hk, rfl⟩ := List.getElem?_eq_some_iff.1 hi
  have hp := (List.getElem_cons_eraseIdx_perm hk).map f
  rw [← hp.sum_eq, List.map_cons, List.sum_cons]

/-! ### The jobs -/

/-- The jobs that the walkers have yet to do. -/
def ahead (w : Walkers α) : Multiset α := (w.cursors.map fun i => ↑(w.jobs.drop (i + 1))).sum

/-- A move takes a job from those ahead to those done. -/
theorem done_add_ahead_step (h : w.advance k = some w') :
    w'.jobs = w.jobs ∧ (w'.done : Multiset α) + w'.ahead = w.done + w.ahead := by
  obtain ⟨i, hi, ⟨a, ha, rfl⟩ | ⟨hnone, rfl⟩⟩ := advance_cases h
  · refine ⟨rfl, ?_⟩
    have hdrop : w.jobs.drop (i + 1) = a :: w.jobs.drop (i + 1 + 1) := by
      obtain ⟨hlt, rfl⟩ := List.getElem?_eq_some_iff.1 ha
      exact List.drop_eq_getElem_cons hlt
    have hsum := sum_eraseIdx (fun i => (w.jobs.drop (i + 1) : Multiset α)) hi
    simp only [ahead, ← hsum, hdrop, List.map_append, List.map_cons, List.map_nil, List.sum_append,
      List.sum_cons, List.sum_nil, add_zero, ← Multiset.coe_add, ← Multiset.cons_coe,
      ← Multiset.singleton_add, Multiset.coe_nil]
    abel
  · refine ⟨rfl, ?_⟩
    have hdrop : w.jobs.drop (i + 1) = [] :=
      List.drop_eq_nil_of_le (List.getElem?_eq_none_iff.1 hnone)
    have hsum := sum_eraseIdx (fun i => (w.jobs.drop (i + 1) : Multiset α)) hi
    simp only [ahead, ← hsum, hdrop, Multiset.coe_nil, zero_add]

/-! ### The moves -/

/-- The moves that the walkers have yet to make, the last of each to leave. -/
def left (w : Walkers α) : ℕ := (w.cursors.map fun i => w.jobs.length - i).sum

/-- Every walker stands at a job. -/
def Standing (w : Walkers α) : Prop := ∀ i ∈ w.cursors, i < w.jobs.length

theorem left_step (hs : w.Standing) (h : w.advance k = some w') :
    w'.Standing ∧ w'.left + 1 = w.left := by
  obtain ⟨i, hi, hcase⟩ := advance_cases h
  have hlt := hs i (List.mem_of_getElem? hi)
  have hsum := sum_eraseIdx (fun i => w.jobs.length - i) hi
  obtain ⟨a, ha, rfl⟩ | ⟨hnone, rfl⟩ := hcase
  · have hlt' := (List.getElem?_eq_some_iff.1 ha).1
    refine ⟨fun x hx => ?_, ?_⟩
    · rcases List.mem_append.1 hx with hx | hx
      · exact hs x (List.mem_of_mem_eraseIdx hx)
      · exact List.mem_singleton.1 hx ▸ hlt'
    · simp only [left, ← hsum, List.map_append, List.sum_append, List.map_cons, List.map_nil,
        List.sum_cons, List.sum_nil]
      omega
  · have hle := List.getElem?_eq_none_iff.1 hnone
    refine ⟨fun x hx => hs x (List.mem_of_mem_eraseIdx hx), ?_⟩
    simp only [left, ← hsum]
    omega

/-- What stays the same along a run. -/
theorem conserved {ls : List ℕ} (h : lts.Run w ls w') (hs : w.Standing) :
    w'.jobs = w.jobs ∧ (w'.done : Multiset α) + w'.ahead = w.done + w.ahead ∧
      ls.length + w'.left = w.left := by
  suffices hinv : w'.Standing ∧ w'.jobs = w.jobs ∧
      (w'.done : Multiset α) + w'.ahead = w.done + w.ahead ∧
        ls.length + w'.left = w.left from hinv.2
  refine h.invariant_labels (I := fun ls v => v.Standing ∧ v.jobs = w.jobs ∧
    (v.done : Multiset α) + v.ahead = w.done + w.ahead ∧ ls.length + v.left = w.left)
    ⟨hs, rfl, rfl, by simp⟩ ?_
  rintro ls k v v' ⟨hv, hjobs, hdone, hleft⟩ hst
  obtain ⟨hjobs', hdone'⟩ := done_add_ahead_step hst
  obtain ⟨hv', hleft'⟩ := left_step hv hst
  refine ⟨hv', hjobs'.trans hjobs, hdone'.trans hdone, ?_⟩
  rw [List.length_append, List.length_singleton]
  omega

/-- **`n` walkers do every job `n` times.** -/
theorem done_of_begin {a : α} {as : List α} {ls : List ℕ} (h : lts.Run (begin n a as) ls w)
    (hw : w.cursors = []) :
    (w.done : Multiset α) = n • ((a :: as : List α) : Multiset α) ∧
      ls.length = n * (a :: as).length := by
  have hs : (begin n a as).Standing := fun i hi => by
    rw [List.eq_of_mem_replicate hi]
    exact Nat.succ_pos _
  obtain ⟨-, hdone, hleft⟩ := conserved h hs
  have hahead : w.ahead = 0 := by simp [ahead, hw]
  have hleft₀ : w.left = 0 := by simp [left, hw]
  rw [hahead, add_zero] at hdone
  rw [hleft₀, add_zero] at hleft
  constructor
  · rw [hdone, ← Multiset.cons_coe, Multiset.nsmul_cons, Multiset.nsmul_singleton,
      ← Multiset.coe_replicate]
    simp [ahead, begin]
  · rw [hleft]
    simp [left, begin]

end Walkers

end MapaZimSlupsk
