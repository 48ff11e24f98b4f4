import DeductionBoard.Proofs.Board.History
import DeductionBoard.Proofs.Derivation.History
import DeductionBoard.Verify.Check

/-! The revision as a name for the state of a board. Every change that can be seen counts the revision
up, and whatever changes nothing, be it a failed edit, an edit without effect or a review, leaves it
alone. Main result: along a history the revision never goes back, each action counts it up by one at
most, and at two moments with the same revision the board looks the same and is judged the same. -/

namespace DeductionBoard

namespace Board

variable {b b' b'' : Board}

/-! ### One action -/

/-- An action counts the revision up, or nothing that can be seen changes. -/
structure Counts (b b' : Board) : Prop where
  puzzleId : b'.puzzleId = b.puzzleId
  revision : b'.revision = b.revision + 1 ∨ b'.revision = b.revision ∧ b'.snapshot = b.snapshot

theorem counts_of_edited (h : Edited b b') : b.Counts b' := by
  cases h with
  | unchanged => exact ⟨rfl, .inr ⟨rfl, rfl⟩⟩
  | skipped => exact ⟨rfl, .inr ⟨rfl, rfl⟩⟩
  | added kind q ps => exact ⟨rfl, .inl rfl⟩
  | rewired i n s hs => exact ⟨rfl, .inl rfl⟩
  | removed i hi =>
    have hfold := foldl_forgetFrom_pieces (b.consumers i) (b.isolated i)
    exact ⟨(congrArg Board.puzzleId hfold :), .inl (congrArg (·.revision + 1) hfold)⟩
  | designated i p hp hk => exact ⟨rfl, .inl rfl⟩
  | moved i q => exact ⟨rfl, .inl rfl⟩

theorem counts_review (b : Board) (c : CheckerSettings) : b.Counts (b.review c).2 := by
  refine ⟨?_, .inr ⟨?_, snapshot_review b c⟩⟩ <;> rw [review] <;> cases b.defective? <;> rfl

theorem counts_run (h : b.WellFormed) (a : Action) : b.Counts (a.run b) := by
  cases a with
  | edit e => exact counts_of_edited (edited_apply h e)
  | check c => exact counts_review b c

/-! ### Runs -/

/-- A later state of a board: the revision has not gone back, and as long as it is the same the board
looks the same. -/
structure Later (b b' : Board) : Prop where
  puzzleId : b'.puzzleId = b.puzzleId
  revision_le : b.revision ≤ b'.revision
  snapshot : b'.revision = b.revision → b'.snapshot = b.snapshot

theorem Later.refl (b : Board) : b.Later b := ⟨rfl, Nat.le_refl _, fun _ => rfl⟩

theorem Later.trans (h : b.Later b') (h' : b'.Later b'') : b.Later b'' where
  puzzleId := h'.puzzleId.trans h.puzzleId
  revision_le := Nat.le_trans h.revision_le h'.revision_le
  snapshot hr := by
    -- the revision in between is squeezed between two equal ones
    have hle := h.revision_le
    have hle' := h'.revision_le
    exact (h'.snapshot (by omega)).trans (h.snapshot (by omega))

theorem Counts.later (h : b.Counts b') : b.Later b' where
  puzzleId := h.puzzleId
  revision_le := by
    rcases h.revision with hr | ⟨hr, -⟩ <;> omega
  snapshot hr := by
    rcases h.revision with hr' | ⟨-, hs⟩
    · omega
    · exact hs

theorem later_runAll (h : b.WellFormed) (as : List Action) : b.Later (Action.runAll b as) := by
  induction as generalizing b with
  | nil => exact .refl b
  | cons a as ih => exact (counts_run h a).later.trans (ih (wellFormed_run h a))

/-! ### What a revision tells -/

/-- Later states with the same revision are judged the same. -/
theorem Later.review_eq (h : b.Later b') (hb : b.WellFormed ∧ b.Current)
    (hb' : b'.WellFormed ∧ b'.Current) (hr : b'.revision = b.revision) (c : CheckerSettings) :
    (b'.review c).1 = (b.review c).1 := by
  rw [review_of_snapshot_eq hb.1 hb.2 hb'.1 hb'.2 (h.snapshot hr).symm, hr]
  cases hreport : (b.review c).1 with
  | error d => rfl
  | ok r =>
    have hrevision : r.revision = b.revision := revision_of_review hreport
    rw [Except.map, ← hrevision]

/-- What is prepared for the solver on a later state with the same revision. -/
theorem Later.prepareCheck_eq (h : b.Later b') (hb : b.WellFormed ∧ b.Current)
    (hb' : b'.WellFormed ∧ b'.Current) (hr : b'.revision = b.revision) (s : Settings) :
    b'.prepareCheck s = b.prepareCheck s := by
  simp only [prepareCheck, prepareFrom, proofName, h.review_eq hb hb' hr, h.puzzleId]

/-! ### Histories -/

/-- The board of a history after its first actions. -/
def moment (o : Origin) (as : List Action) (n : Nat) : Board := Action.runAll o.board (as.take n)

variable {o : Origin} {as : List Action} {m n : Nat}

theorem invariant_moment (o : Origin) (as : List Action) (n : Nat) :
    (moment o as n).WellFormed ∧ (moment o as n).Current :=
  invariant_runAll (invariant_origin o) (as.take n)

theorem moment_add (o : Origin) (as : List Action) (m n : Nat) :
    moment o as (m + n) = Action.runAll (moment o as m) ((as.drop m).take n) := by
  rw [moment, moment, List.take_add, Action.runAll_append]

theorem later_moment (h : m ≤ n) : (moment o as m).Later (moment o as n) := by
  obtain ⟨k, rfl⟩ := Nat.exists_eq_add_of_le h
  rw [moment_add]
  exact later_runAll (invariant_moment o as m).1 _

/-- One more action counts the revision up by one, or not at all. -/
theorem revision_moment_succ (o : Origin) (as : List Action) (n : Nat) :
    (moment o as (n + 1)).revision = (moment o as n).revision ∨
      (moment o as (n + 1)).revision = (moment o as n).revision + 1 := by
  rw [moment_add]
  cases as.drop n with
  | nil => exact .inl rfl
  | cons a rest =>
    rcases (counts_run (invariant_moment o as n).1 a).revision with hr | ⟨hr, -⟩
    · exact .inr hr
    · exact .inl hr

/-- At two moments with the same revision, whichever comes first, a board looks the same, and it is
judged the same and prepared in the same way for the solver. -/
theorem moment_of_revision_eq (hr : (moment o as m).revision = (moment o as n).revision) :
    (moment o as m).snapshot = (moment o as n).snapshot ∧
      (∀ c, ((moment o as m).review c).1 = ((moment o as n).review c).1) ∧
      ∀ s, (moment o as m).prepareCheck s = (moment o as n).prepareCheck s := by
  have hinvariant := invariant_moment o as
  rcases Nat.le_total m n with hmn | hnm
  · have hlater : (moment o as m).Later (moment o as n) := later_moment hmn
    exact ⟨(hlater.snapshot hr.symm).symm,
      fun c => (hlater.review_eq (hinvariant m) (hinvariant n) hr.symm c).symm,
      fun s => (hlater.prepareCheck_eq (hinvariant m) (hinvariant n) hr.symm s).symm⟩
  · have hlater : (moment o as n).Later (moment o as m) := later_moment hnm
    exact ⟨hlater.snapshot hr, hlater.review_eq (hinvariant n) (hinvariant m) hr,
      hlater.prepareCheck_eq (hinvariant n) (hinvariant m) hr⟩

end Board

end DeductionBoard
