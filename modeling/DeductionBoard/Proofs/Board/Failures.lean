import DeductionBoard.Proofs.Board.History
import Mathlib

/-! Edits that fail. Every edit looks at all that it was given before it changes anything, except that
a new piece takes its number before its position is read. Main results: a failed edit leaves the
snapshot, the revision and the cached statuses as they were, and the next new piece gets the number
that it would have got, unless the edit was a new piece whose position is no sequence, when it gets
the one after. -/

namespace DeductionBoard

/-- A failure after the number of the new piece was taken: its position is no sequence. -/
def Edit.spends : Edit → EditError → Bool
  | .add _ none _, .notAPosition => true
  | _, _ => false

theorem Edit.spends_iff {e : Edit} {err : EditError} :
    e.spends err = true ↔ (∃ kind ps, e = .add kind none ps) ∧ err = .notAPosition := by
  unfold Edit.spends
  split
  · next kind ps => exact iff_of_true rfl ⟨⟨kind, ps, rfl⟩, rfl⟩
  · next hother =>
    refine iff_of_false Bool.false_ne_true ?_
    rintro ⟨⟨kind, ps, rfl⟩, rfl⟩
    exact hother kind ps rfl rfl

namespace Board

variable {b : Board} {e : Edit} {err : EditError}

/-- A new piece fails before anything has changed, or at its position. -/
theorem place_of_error (kind : Value) (q : Option Position) (ps : List (String × ParamValue))
    (h : (b.place kind q ps).2 = .error err) :
    (b.place kind q ps).1 = b ∧ (q = none → err ≠ .notAPosition) ∨
      q = none ∧ err = .notAPosition ∧
        (b.place kind q ps).1 = { b with nextId := b.nextId + 1 } := by
  unfold place at h ⊢
  cases hkind : RuleKind.ofValue kind with
  | error v =>
    simp only [hkind] at h ⊢
    obtain rfl := Except.error.inj h
    exact .inl ⟨trivial, fun _ => by simp⟩
  | ok k =>
    cases hparams : Params.ofFields ps with
    | none =>
      simp only [hkind, hparams] at h ⊢
      obtain rfl := Except.error.inj h
      exact .inl ⟨trivial, fun _ => by simp⟩
    | some params =>
      cases q with
      | none =>
        simp only [hkind, hparams] at h ⊢
        exact .inr ⟨trivial, (Except.error.inj h).symm, trivial⟩
      | some q =>
        simp only [hkind, hparams] at h
        exact absurd h (by simp)

theorem settle_of_error {r : Except EditError Board} (h : (Edit.settle b r).2 = .error err) :
    (Edit.settle b r).1 = b := by
  cases r with
  | error f => rfl
  | ok b' => exact absurd h (by simp [Edit.settle])

/-- A failed edit leaves the board alone but for the number that it spends. -/
theorem apply_of_error (h : (e.apply b).2 = .error err) :
    (e.apply b).1 = { b with nextId := if e.spends err then b.nextId + 1 else b.nextId } := by
  cases e with
  | add kind q ps =>
    simp only [Edit.apply] at h ⊢
    rcases hb : b.place kind q ps with ⟨b', f | i⟩
    · have hplace := place_of_error kind q ps (congrArg Prod.snd hb)
      rw [hb] at h hplace
      obtain rfl := Except.error.inj h
      rcases hplace with ⟨hsame, hfault⟩ | ⟨rfl, rfl, hnext⟩
      · have hspends : (Edit.add kind q ps).spends f = false := by
          refine Bool.eq_false_iff.mpr fun hspends => ?_
          obtain ⟨⟨_, _, heq⟩, hf⟩ := Edit.spends_iff.mp hspends
          exact hfault (Edit.add.inj heq).2.1 hf
        rw [hspends]
        exact hsame
      · exact hnext
    · rw [hb] at h
      exact absurd h (by simp)
  | wire i n j => exact settle_of_error h
  | unwire i n => exact settle_of_error h
  | remove i => exact settle_of_error h
  | setGoal i => exact settle_of_error h
  | move i q => exact settle_of_error h

/-- Whether a new piece comes in does not depend on the numbers in use, and it gets the next one. -/
theorem place_of_nextId (b : Board) (n : PieceId) (kind : Value) (q : Option Position)
    (ps : List (String × ParamValue)) :
    ({ b with nextId := n }.place kind q ps).2 = (b.place kind q ps).2.map fun _ => n := by
  unfold place
  cases RuleKind.ofValue kind with
  | error v => rfl
  | ok k =>
    cases Params.ofFields ps with
    | none => rfl
    | some params => cases q <;> rfl

/-- A failed edit of any kind changes neither what can be seen of a board nor what is cached, and it
changes the number of the next new piece only if it was itself a new piece without a position. -/
theorem failed_edit (o : Origin) (as : List Action) (e : Edit) (err : EditError)
    (h : (e.apply (Action.runAll o.board as)).2 = .error err) :
    let b := Action.runAll o.board as
    let b' := (e.apply b).1
    b'.snapshot = b.snapshot ∧ b'.revision = b.revision ∧
      (∀ i, (b'.piece? i).map Piece.cache = (b.piece? i).map Piece.cache) ∧
      ∀ kind q ps, (b'.place kind q ps).2 =
        (b.place kind q ps).2.map fun i => if e.spends err then i + 1 else i := by
  intro b b'
  have hb' : b' = { b with nextId := if e.spends err then b.nextId + 1 else b.nextId } :=
    apply_of_error h
  rw [hb']
  refine ⟨rfl, rfl, fun _ => rfl, fun kind q ps => ?_⟩
  have hnumber : (b.place kind q ps).2 = (b.place kind q ps).2.map fun _ => b.nextId :=
    place_of_nextId b b.nextId kind q ps
  rw [place_of_nextId, hnumber]
  cases (b.place kind q ps).2 <;> rfl

/-- A wire back into its own piece fails, and the next piece gets the number 2 all the same. -/
theorem failed_edit_loop :
    let start := Origin.fresh (some (.atom "P" [])) none none Palette.full
    let goal := Edit.add (.text "goal") (some (.cell (0, 0))) []
    let b := Action.runAll start.board [.edit goal]
    ∃ b', (Edit.wire 1 0 1).apply b = (b', .error (.cycle 1 1)) ∧ b'.snapshot = b.snapshot ∧
      b'.revision = 1 ∧ (b.place (.text "goal") (some (.cell (0, 1))) []).2 = .ok 2 ∧
      (b'.place (.text "goal") (some (.cell (0, 1))) []).2 = .ok 2 := by
  intro start goal b
  have hfails : ((Edit.wire 1 0 1).apply b).2 = .error (.cycle 1 1) := by decide_cbv
  have hnext : (b.place (.text "goal") (some (.cell (0, 1))) []).2 = .ok 2 := by decide_cbv
  obtain ⟨hsnapshot, hrevision, -, hplace⟩ := failed_edit start [.edit goal] _ _ hfails
  have hone : b.revision = 1 := by decide_cbv
  exact ⟨_, Prod.ext rfl hfails, hsnapshot, hrevision.trans hone, hnext,
    (hplace _ _ _).trans (by rw [hnext]; rfl)⟩

/-- A piece whose position is no sequence fails, and the number it would have had is gone. -/
theorem number_lost :
    ¬ ∀ (o : Origin) (as : List Action) (e : Edit) (err : EditError),
      (e.apply (Action.runAll o.board as)).2 = .error err →
      ∀ kind q ps, ((e.apply (Action.runAll o.board as)).1.place kind q ps).2 =
        ((Action.runAll o.board as).place kind q ps).2 := by
  intro h
  have hlost := h (.fresh none none none Palette.full) [] (.add (.text "goal") none []) .notAPosition
    (by decide_cbv) (.text "goal") (some (.cell (0, 0))) []
  exact absurd hlost (by decide_cbv)

end Board

end DeductionBoard
