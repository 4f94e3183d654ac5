import MapaZimSlupsk.Home.Soundness
import Mathlib.Data.Prod.Lex
import Mathlib.Algebra.BigOperators.Group.List.Basic
import Mathlib.Order.WellFounded

/-!
# Every run of `calculateLines` ends

The loop of a closure reads the length of `C` anew at every iteration, while `C` belongs to all
closures of the run.  It ends nevertheless: `forEach` has started every closure before any of them
resumes, and only the start of a closure appends to `C`.

* `Calculation.weight` : what is left to be done, in terms of the final length of `C`.
* `Calculation.Effect.measure_lt` : every step of a run decreases the pair of "the read of
  `Przystanki` is open" and the weight, in the lexicographic order.
* `Calculation.terminates_and_covers` : **main result**: no run goes on forever, and when no
  closure is left every common line has been asked for in both directions.
* `HomePage.finitely_many_steps` : on the page, too, a run takes finitely many steps, whatever
  happens beside it.
-/

namespace MapaZimSlupsk

namespace Calculation

variable {db : Firestore} {c c' : Calculation} {id1 id2 : ℤ} {docs : List Przystanek} {i k m : ℕ}

/-! ### The measure -/

/-- The iterations left to a closure suspended at the counter `i`, and its end. -/
def turns (C : List String) (i : ℕ) : ℕ := C.length - i + 1

/-- What is left to be done: the turns of all closures, each worth the two reads it may issue and
itself, and the answers to the reads. -/
def weight (c : Calculation) : ℕ :=
  3 * (c.cursors.map (turns c.C)).sum + c.pending.length

theorem turns_pos (C : List String) (i : ℕ) : 0 < turns C i := Nat.succ_pos _

theorem turns_succ_lt {C : List String} {line : String} (h : C[i + 1]? = some line) :
    turns C (i + 1) < turns C i := by
  have hlt : i + 1 < C.length := (List.getElem?_eq_some_iff.1 h).1
  unfold turns
  omega

/-- The turns of one closure and of the others. -/
theorem sum_turns_eraseIdx (C : List String) {cursors : List ℕ} (hi : cursors[k]? = some i) :
    turns C i + ((cursors.eraseIdx k).map (turns C)).sum = (cursors.map (turns C)).sum := by
  obtain ⟨hk, rfl⟩ := List.getElem?_eq_some_iff.1 hi
  have hp := (List.getElem_cons_eraseIdx_perm hk).map (turns C)
  rw [← hp.sum_eq, List.map_cons, List.sum_cons]

/-- An expired wait takes one turn of its closure and issues two reads at most. -/
theorem weight_lt_of_resume (h : c.resume k = some c') : c'.weight < c.weight := by
  obtain ⟨i, hi, ⟨line, hline, rfl⟩ | ⟨-, rfl⟩⟩ := resume_cases h
  · have hsum := sum_turns_eraseIdx c.C hi
    have hlt := turns_succ_lt hline
    simp only [weight, List.map_append, List.map_cons, List.map_nil, List.sum_append,
      List.sum_cons, List.sum_nil, List.length_append, List.length_cons, List.length_nil]
    omega
  · have hsum := sum_turns_eraseIdx c.C hi
    have hpos := turns_pos c.C i
    simp only [weight]
    omega

/-- An answered read is not answered again. -/
theorem weight_lt_of_answer {r : RouteRead} (hr : r ∈ c.pending) (vars : IndexVars) :
    weight { c with pending := c.pending.erase r, vars := vars } < c.weight := by
  have hlen := List.length_erase_of_mem hr
  have hpos := List.length_pos_of_mem hr
  simp only [weight]
  omega

theorem resume_waiting (h : c.resume k = some c') : c'.waiting = c.waiting := by
  obtain ⟨i, -, ⟨_, -, rfl⟩ | ⟨-, rfl⟩⟩ := resume_cases h <;> rfl

theorem resume_C (h : c.resume k = some c') : c'.C = c.C := by
  obtain ⟨i, -, ⟨_, -, rfl⟩ | ⟨-, rfl⟩⟩ := resume_cases h <;> rfl

/-- What decreases along a run: the read of `Przystanki` is answered once, before the closures
exist, and from then on every step takes some of the weight. -/
def measure (c : Calculation) : ℕ ×ₗ ℕ := toLex (c.waiting.toNat, c.weight)

/-- **Every step of a run decreases the measure.** -/
theorem Effect.measure_lt (h : c.Effect db c') : c'.measure < c.measure := by
  unfold measure
  rw [Prod.Lex.toLex_lt_toLex]
  cases h with
  | stops id1 id2 docs hw =>
    refine .inl ?_
    simp [onPrzystanki_waiting, hw]
  | stopsUnset hw =>
    refine .inl ?_
    simp [hw]
  | wait m c' hr => exact .inr ⟨congrArg Bool.toNat (resume_waiting hr), weight_lt_of_resume hr⟩
  | answer r vars hr => exact .inr ⟨rfl, weight_lt_of_answer hr vars⟩

/-- No sequence of steps goes on forever. -/
theorem exists_not_effect (db : Firestore) (run : ℕ → Calculation) :
    ∃ n, ¬ (run n).Effect db (run (n + 1)) := by
  obtain ⟨n, hn⟩ := WellFounded.not_rel_apply_succ (r := (· < ·)) fun n => (run n).measure
  exact ⟨n, fun h => hn h.measure_lt⟩

/-! ### The end of a run -/

/-- The run is one whose closures have all been started: from now on `C` stays as it is. -/
structure Started (C : List String) (c : Calculation) : Prop where
  ok : c.Ok
  waiting : c.waiting = false
  C_eq : c.C = C

theorem started_start : Started (start id1 id2 docs).C (start id1 id2 docs) :=
  ⟨(fresh_new false).ok_onPrzystanki rfl, onPrzystanki_waiting, rfl⟩

theorem Started.effect {C : List String} (h : Started C c) (he : c.Effect db c') :
    Started C c' := by
  refine ⟨h.ok.effect he, ?_, ?_⟩ <;> cases he with
  | stops id1 id2 docs hw => exact absurd (h.waiting.symm.trans hw) Bool.false_ne_true
  | stopsUnset hw => exact absurd (h.waiting.symm.trans hw) Bool.false_ne_true
  | wait m c' hr => simp only [resume_waiting hr, resume_C hr, h.waiting, h.C_eq]
  | answer r vars hr => simp only [h.waiting, h.C_eq]

theorem Started.steps {C : List String} (h : Started C c)
    (hs : Relation.ReflTransGen (Effect db) c c') : Started C c' := by
  induction hs with
  | refl => exact h
  | tail _ he ih => exact ih.effect he

/-- **Every run ends, and skips no line.**  Whatever the order in which the waits of its closures
expire and its reads are answered, a run has no infinite sequence of steps; once no closure has a
step left, both directions of every line that serves the two stops have been asked for. -/
theorem terminates_and_covers (db : Firestore) {docs : List Przystanek}
    (hnd : (docs.map (·.id)).Nodup) (id1 id2 : ℤ) :
    (∀ run : ℕ → Calculation, run 0 = start id1 id2 docs →
      ¬ ∀ n, (run n).Effect db (run (n + 1))) ∧
    ∀ c, Relation.ReflTransGen (Effect db) (start id1 id2 docs) c → c.Finished →
      ∀ p ∈ docs, ∀ q ∈ docs, p.id = id1 → q.id = id2 → ∀ line ∈ p.linie, line ∈ q.linie →
        ∀ j, j = 1 ∨ j = 2 → ∃ r ∈ c.issued, r.line = line ∧ r.j = j := by
  constructor
  · intro run _ hrun
    obtain ⟨n, hn⟩ := exists_not_effect db run
    exact hn (hrun n)
  · rintro c hs hf p hp q hq rfl rfl line h1 h2 j hj
    have hc : Started (start p.id q.id docs).C c := started_start.steps hs
    have hline : line ∈ c.C := hc.C_eq ▸ mem_C_onPrzystanki (fresh_new false) hnd hp hq h1 h2
    obtain ⟨i, hi⟩ := hc.ok.covered.issued_of_finished hf hj hline
    exact ⟨_, hi, rfl, rfl⟩

/-- `Dworzec` and `Ratusz` have two lines in common; the run over both has finished after two waits
of its closure. -/
theorem terminates_and_covers_twoLines :
    let docs := HomePage.twoLines.przystanki
    (∀ run : ℕ → Calculation, run 0 = start 10 20 docs →
      ¬ ∀ n, (run n).Effect HomePage.twoLines (run (n + 1))) ∧
    ∃ c, Relation.ReflTransGen (Effect HomePage.twoLines) (start 10 20 docs) c ∧ c.Finished ∧
      ∀ line ∈ ["1", "2"], ∀ j, j = 1 ∨ j = 2 → ∃ r ∈ c.issued, r.line = line ∧ r.j = j := by
  intro docs
  have hnd : (docs.map (·.id)).Nodup := by decide
  obtain ⟨hterm, hcover⟩ := terminates_and_covers HomePage.twoLines hnd 10 20
  obtain ⟨c₁, h₁, c, h₂, hf⟩ : ∃ c₁, (start 10 20 docs).resume 0 = some c₁ ∧
      ∃ c, c₁.resume 0 = some c ∧ c.Finished := ⟨_, rfl, _, rfl, by decide⟩
  have hsteps : Relation.ReflTransGen (Effect HomePage.twoLines) (start 10 20 docs) c :=
    (Relation.ReflTransGen.single (.wait 0 _ h₁)).tail (.wait 0 _ h₂)
  refine ⟨hterm, c, hsteps, hf, fun line hline => ?_⟩
  exact hcover c hsteps hf _ List.mem_cons_self _ (List.mem_cons_of_mem _ List.mem_cons_self) rfl
    rfl line hline hline

end Calculation

namespace HomePage

variable {db : Firestore} {s t : HomePage} {e : Event} {k : ℕ}

/-- The run that an event is a step of. -/
def Event.calculation : Event → Option ℕ
  | .stops k _ => some k
  | .wait k _ => some k
  | .route k _ _ => some k
  | _ => none

/-- An event of a run is a step of it; the other events leave it alone. -/
theorem Effect.calculation_cases (he : Effect db s e t) {c : Calculation}
    (hc : s.calculations[k]? = some c) :
    (e.calculation = some k ∧ ∃ c', t.calculations[k]? = some c' ∧ c.Effect db c') ∨
      (e.calculation ≠ some k ∧ t.calculations[k]? = some c) := by
  have hk : k < s.calculations.length := (List.getElem?_eq_some_iff.1 hc).1
  have push : ∀ d : Calculation, (s.calculations ++ [d])[k]? = some c := fun d => by
    rw [List.getElem?_append_left hk, hc]
  have set : ∀ {k' : ℕ} {d d' : Calculation}, s.calculations[k']? = some d → d.Effect db d' →
      (some k' = some k ∧ ∃ c', (s.calculations.set k' d')[k]? = some c' ∧ c.Effect db c') ∨
        (some k' ≠ some k ∧ (s.calculations.set k' d')[k]? = some c) := by
    intro k' d d' hd hdd'
    by_cases hkk : k' = k
    · subst hkk
      obtain rfl : d = c := Option.some.inj (hd.symm.trans hc)
      exact .inl ⟨rfl, d', List.getElem?_set_self hk, hdd'⟩
    · refine .inr ⟨fun h => hkk (Option.some.inj h), ?_⟩
      rw [List.getElem?_set_ne hkk, hc]
  cases he with
  | select1 => exact .inr ⟨nofun, push _⟩
  | select2 => exact .inr ⟨nofun, push _⟩
  | text => exact .inr ⟨nofun, hc⟩
  | stops k' docs d id1 id2 hd hw hdocs => exact set hd (.stops id1 id2 docs hw hdocs)
  | stopsUnset k' docs d hd hw => exact set hd (.stopsUnset hw)
  | wait k' m d d' hd hr => exact set hd (.wait m d' hr)
  | route k' r docs d id1 id2 h hd hr => exact set hd (.answer r h.vars hr)
  | routeUnset k' r docs d hd hr => exact set hd (.answer r d.vars hr)

/-- An event of a run finds the run started. -/
theorem Effect.calculation_some (he : Effect db s e t) (h : e.calculation = some k) :
    ∃ c, s.calculations[k]? = some c := by
  cases he <;> cases h <;> exact ⟨_, ‹_›⟩

variable {page : ℕ → HomePage} {event : ℕ → Event}

/-- A run that has been started takes finitely many steps more, whatever else happens. -/
theorem exists_last_step
    (hstep : ∀ n, Effect db (page n) (event n) (page (n + 1))) (n : ℕ) {c : Calculation}
    (hc : (page n).calculations[k]? = some c) :
    ∃ N, ∀ m, N ≤ m → (event m).calculation ≠ some k := by
  -- on the measure of the run; between two of its steps the run stays as it is
  generalize hμ : c.measure = μ
  induction μ using WellFoundedLT.induction generalizing n c with
  | ind μ ih =>
    by_cases hlater : ∃ d, (event (n + d)).calculation = some k
    · have hstay : ∀ d, (∀ d' < d, (event (n + d')).calculation ≠ some k) →
          (page (n + d)).calculations[k]? = some c := by
        intro d
        induction d with
        | zero => exact fun _ => hc
        | succ d ih' =>
          intro hno
          have hd := ih' fun d' hd' => hno d' (by omega)
          rcases (hstep (n + d)).calculation_cases hd with ⟨hof, -⟩ | ⟨-, h⟩
          · exact absurd hof (hno d (by omega))
          · exact h
      classical
      have hd := hstay (Nat.find hlater) fun d' hd' => Nat.find_min hlater hd'
      rcases (hstep _).calculation_cases hd with ⟨-, c', hc', he⟩ | ⟨hno, -⟩
      · exact ih c'.measure (hμ ▸ he.measure_lt) _ hc' rfl
      · exact absurd (Nat.find_spec hlater) hno
    · refine ⟨n, fun m hm hof => hlater ⟨m - n, ?_⟩⟩
      rwa [Nat.add_sub_cancel' hm]

/-- **No run goes on forever on the page**: whatever ends are chosen while it is under way, however
many runs are started beside it, and in whatever order waits expire and answers come in. -/
theorem finitely_many_steps (hinit : page 0 = initial)
    (hstep : ∀ n, (lts db).step (page n) (event n) (page (n + 1))) (k : ℕ) :
    ∃ N, ∀ m, N ≤ m → (event m).calculation ≠ some k := by
  have hinv : ∀ n, (page n).Inv := by
    intro n
    induction n with
    | zero => exact hinit ▸ inv_initial
    | succ n ih => exact inv_step ih (hstep n)
  have heff : ∀ n, Effect db (page n) (event n) (page (n + 1)) := fun n =>
    effect_of_step (hinv n).mounted (hstep n)
  by_cases hsome : ∃ n, (event n).calculation = some k
  · obtain ⟨n, hn⟩ := hsome
    obtain ⟨c, hc⟩ := (heff n).calculation_some hn
    exact exists_last_step heff n hc
  · exact ⟨0, fun m _ hm => hsome ⟨m, hm⟩⟩

end HomePage

end MapaZimSlupsk
