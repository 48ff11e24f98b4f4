import DeductionBoard.Solver.Dialogue

/-! What work with a solver can come to. A property that every end of the work has, whatever the
answers on the way, is one of the result with any solver. -/

namespace DeductionBoard.Solver.Dialogue

variable {α β : Type} {P : α → Prop} {Q : β → Prop} {d : Dialogue α}

/-- Whatever the answers, the work ends with a value that has the property, or fails. -/
def Yields (P : α → Prop) : Dialogue α → Prop
  | .done a => P a
  | .fail _ => True
  | .ask _ _ next => ∀ r, (next r).Yields P

theorem Yields.mono (h : d.Yields P) {R : α → Prop} (hP : ∀ a, P a → R a) : d.Yields R := by
  induction d with
  | done a => exact hP a h
  | fail f => trivial
  | ask q t next ih => exact fun r => ih r (h r)

theorem Yields.bind {k : α → Dialogue β} (hd : d.Yields P) (hk : ∀ a, P a → (k a).Yields Q) :
    (d.bind k).Yields Q := by
  induction d with
  | done a => exact hk a hd
  | fail f => trivial
  | ask q t next ih => exact fun r => ih r (hd r)

theorem yields_true (d : Dialogue α) : d.Yields fun _ => True := by
  induction d with
  | done a => trivial
  | fail f => trivial
  | ask q t next ih => exact ih

theorem yields_bind {k : α → Dialogue β} (hk : ∀ a, (k a).Yields Q) (d : Dialogue α) :
    (d.bind k).Yields Q :=
  d.yields_true.bind fun a _ => hk a

theorem yields_ofDefect {r : Except Defect α} (h : ∀ a, r = .ok a → P a) :
    (ofDefect r).Yields P := by
  cases r with
  | ok a => exact h a rfl
  | error d => trivial

theorem Yields.answered (h : d.Yields P) (a : Answer) : (d.answered a).Yields P := by
  cases d with
  | done r => exact h
  | fail f => exact h
  | ask q t next => exact h a

/-- What work yields holds of its result with every solver. -/
theorem Yields.of_run {σ : Type} {solve : Query → Value → σ → Answer × σ} {st : σ} {a : α}
    (h : d.Yields P) (hrun : (d.run solve st).1 = .ok a) : P a := by
  induction d generalizing st with
  | done b =>
    obtain rfl := Except.ok.inj hrun
    exact h
  | fail f => exact absurd hrun (by simp [run])
  | ask q t next ih => exact ih _ (h _) hrun

/-! ### The way to a result -/

/-- The queries on the way to a result, with their answers. -/
inductive Course : Dialogue α → List (Query × Answer) → α → Prop
  | done (a : α) : Course (.done a) [] a
  | ask {q : Query} {t : Value} {next : Answer → Dialogue α} {r : Answer}
      {es : List (Query × Answer)} {a : α} (h : Course (next r) es a) :
      Course (.ask q t next) ((q, r) :: es) a

/-- The queries that a run puts to the solver, with the answers it gets. -/
def exchanges {σ : Type} (solve : Query → Value → σ → Answer × σ) :
    Dialogue α → σ → List (Query × Answer)
  | .done _, _ => []
  | .fail _, _ => []
  | .ask q t next, s =>
    (q, (solve q t s).1) :: (next (solve q t s).1).exchanges solve (solve q t s).2

theorem course_of_run {σ : Type} {solve : Query → Value → σ → Answer × σ} {st : σ} {a : α}
    (h : (d.run solve st).1 = .ok a) : d.Course (d.exchanges solve st) a := by
  induction d generalizing st with
  | done b =>
    obtain rfl := Except.ok.inj h
    exact .done b
  | fail f => exact nomatch h
  | ask q t next ih => exact .ask (ih _ h)

section Course

variable {es : List (Query × Answer)} {a : α} {b : β}

/-- A result of work in two parts is one of the second part, after the queries of the first. -/
theorem exists_of_course_bind {k : α → Dialogue β} (h : (d.bind k).Course es b) :
    ∃ es₁ a es₂, es = es₁ ++ es₂ ∧ d.Course es₁ a ∧ (k a).Course es₂ b := by
  induction d generalizing es with
  | done a => exact ⟨[], a, es, rfl, .done a, h⟩
  | fail f => exact nomatch h
  | ask q t next ih =>
    cases h with
    | ask h =>
      obtain ⟨es₁, a, es₂, rfl, hfirst, hsecond⟩ := ih _ h
      exact ⟨_, a, es₂, rfl, .ask hfirst, hsecond⟩

theorem of_course_ofExcept {r : Except Query.Fault α} (h : (ofExcept r).Course es a) :
    es = [] ∧ r = .ok a := by
  cases r with
  | ok b =>
    cases h
    exact ⟨rfl, rfl⟩
  | error f => exact nomatch h

theorem of_course_ofDefect {r : Except Defect α} (h : (ofDefect r).Course es a) :
    es = [] ∧ r = .ok a := by
  cases r with
  | ok b =>
    cases h
    exact ⟨rfl, rfl⟩
  | error f => exact nomatch h

/-- A query that is put to the solver is one exchange. -/
theorem of_course_submit {q : Query} {t : Value} {r : Answer} (h : (submit q t).Course es r) :
    es = [(q, r)] := by
  rw [submit] at h
  split at h
  · exact nomatch h
  · cases h with
    | ask h =>
      cases h
      rfl

end Course

/-- A solver that finds every entailment. -/
def affirm (_ : Query) (_ : Value) (st : Unit) : Answer × Unit := (.plain "oracle" .unsat "", st)

end DeductionBoard.Solver.Dialogue
