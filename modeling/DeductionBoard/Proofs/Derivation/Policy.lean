import DeductionBoard.Proofs.Derivation.Growth
import DeductionBoard.Proofs.Derivation.Soundness

/-! The violations of a report. They are the violations of the pieces, each of which says one thing
about its own piece, and what the policy of the goal adds. Main results: a report has no violations
exactly when no piece breaks its rule and the goal derives the target from what is declared; and the
violations stand in the order of the pieces they are about. -/

namespace DeductionBoard

open DeductionBoard.Derivation

variable {b : Board} {c : CheckerSettings} {r : Report} {i g : PieceId} {v : Violation}

/-- The first violation may stand before the second: it is about no piece, or both are about pieces
and the first has no greater number. -/
def Violation.Before (v w : Violation) : Prop :=
  v.piece = none ∨ ∃ i j, v.piece = some i ∧ w.piece = some j ∧ i ≤ j

namespace Board

theorem pairwise_sortViolations (vs : List Violation) :
    (sortViolations vs).Pairwise Violation.Before := by
  refine (List.pairwise_mergeSort (fun u v w huv hvw => ?_) (fun v w => ?_) vs).imp ?_
  · cases hu : u.piece <;> cases hv : v.piece <;> cases hw : w.piece <;> simp_all
    exact huv.trans hvw
  · cases hv : v.piece <;> cases hw : w.piece <;> simp [Int.le_total]
  · intro v w hvw
    rw [Violation.Before]
    cases hv : v.piece <;> cases hw : w.piece <;> simp_all

/-- What the policy looks for: no piece breaks its rule, and the goal derives the target from
assumptions that are declared where the policy asks for that. -/
structure Proved (b : Board) (c : CheckerSettings) : Prop where
  unviolated : ∀ i v, b.statuses.status? i ≠ some (.violated v)
  derived : ∃ g f open_, b.goal = some g ∧ b.statuses.status? g = some (.derived f open_) ∧
    b.target = some f ∧ (b.judgesPremises c = true →
      ∀ a ∈ open_, ∃ h ∈ b.declared, b.assumed? a = some h)

/-- The violations of the pieces. -/
def found (b : Board) : List Violation := b.statuses.filterMap fun e => e.2.violation?

theorem mem_found (h : b.WellFormed) :
    v ∈ b.found ↔ ∃ i, b.statuses.status? i = some (.violated v) := by
  rw [found, List.mem_filterMap]
  constructor
  · rintro ⟨⟨i, st⟩, he, hst⟩
    cases st with
    | violated w =>
      obtain rfl := Option.some.inj hst
      exact ⟨i, Statuses.status?_of_mem (nodup_statuses h) he⟩
    | derived _ _ => exact absurd hst (by simp [Status.violation?])
    | incomplete _ _ => exact absurd hst (by simp [Status.violation?])
  · rintro ⟨i, hi⟩
    exact ⟨_, Statuses.mem_of_status? hi, rfl⟩

theorem found_eq_nil_iff (h : b.WellFormed) :
    b.found = [] ↔ ∀ i v, b.statuses.status? i ≠ some (.violated v) := by
  rw [List.eq_nil_iff_forall_not_mem, forall_comm]
  exact forall_congr' fun v => by rw [mem_found h, not_exists]

theorem piece_of_violated (h : b.WellFormed) (hc : b.Current)
    (hi : b.statuses.status? i = some (.violated v)) : v.piece = some i := by
  obtain ⟨p, hp⟩ := exists_piece? (mem_ids_of_status? h hi)
  rw [hc.status?_statuses h hp] at hi
  rw [(own_of_statusOf (Option.some.inj hi)).1, id_of_piece? hp]

/-- In a table whose violations are about their own pieces, a piece has at most the violation of its
status. -/
theorem filter_violations {s : Statuses} (hs : (s.map Prod.fst).Nodup)
    (hown : ∀ j w, (j, .violated w) ∈ s → w.piece = some j) :
    (s.filterMap fun e => e.2.violation?).filter (fun w => w.piece = some i) =
      ((s.status? i).bind Status.violation?).toList := by
  induction s with
  | nil => rfl
  | cons e s ih =>
    obtain ⟨j, st⟩ := e
    obtain ⟨hj, hs⟩ := List.nodup_cons.mp hs
    have hrest := ih hs fun k w hk => hown k w (List.mem_cons_of_mem _ hk)
    by_cases hji : j = i
    · subst hji
      rw [Statuses.status?_eq_none_iff.mpr hj] at hrest
      rw [Statuses.status?, List.lookup_cons_self]
      cases st with
      | violated w =>
        show List.filter _ (w :: _) = [w]
        rw [List.filter_cons_of_pos (by simpa using hown j w List.mem_cons_self), hrest]
        rfl
      | derived _ _ => exact hrest
      | incomplete _ _ => exact hrest
    · have hlookup : Statuses.status? ((j, st) :: s) i = Statuses.status? s i := by
        rw [Statuses.status?, List.lookup_cons, beq_false_of_ne (Ne.symm hji)]
        rfl
      rw [hlookup]
      cases st with
      | violated w =>
        have hw : w.piece ≠ some i := by
          rw [hown j w List.mem_cons_self]
          simpa using hji
        show List.filter _ (w :: _) = _
        rw [List.filter_cons_of_neg (by simpa using hw), hrest]
      | derived _ _ => exact hrest
      | incomplete _ _ => exact hrest

/-- A piece in violation has one violation among those of the pieces. -/
theorem filter_found (h : b.WellFormed) (hc : b.Current)
    (hi : b.statuses.status? i = some (.violated v)) :
    b.found.filter (fun w => w.piece = some i) = [v] := by
  rw [found, filter_violations (nodup_statuses h), hi]
  · rfl
  · exact fun j w hj => piece_of_violated h hc (Statuses.status?_of_mem (nodup_statuses h) hj)

/-! ### The policy of the goal -/

/-- The violations that the policy adds. -/
def added (b : Board) (c : CheckerSettings) : List Violation := b.goalViolations c b.statuses b.found

theorem violations_of_review (hr : (b.review c).1 = .ok r) :
    r.violations = sortViolations (b.found ++ b.added c) := by
  rw [(report_of_review hr).2]
  rfl

/-- Sorting loses no violation. -/
theorem filter_violations_perm (hr : (b.review c).1 = .ok r) (P : Violation → Bool) :
    (r.violations.filter P).Perm (b.found.filter P ++ (b.added c).filter P) := by
  rw [violations_of_review hr, ← List.filter_append]
  exact (List.mergeSort_perm _ _).filter P

/-- An open assumption is a piece that derives what it assumes. -/
theorem derived_of_open (h : b.WellFormed) (hc : b.Current) {f : Formula} {open_ : List PieceId}
    {a : PieceId} (hg : b.statuses.status? g = some (.derived f open_)) (ha : a ∈ open_) :
    ∃ f', b.assumed? a = some f' ∧ b.statuses.status? a = some (.derived f' [a]) := by
  have hd : b.statuses.conclusion? g = some ⟨f, open_⟩ := Statuses.conclusion?_eq_some_iff.mpr hg
  obtain ⟨p, f', hp, hk, hf⟩ := exists_assumption h (fun i p hp => hc.status?_statuses h hp)
    (mem_ids_of_status? h hg) hd ha
  refine ⟨f', by rw [assumed?, hp, Option.bind_some, hf], ?_⟩
  have hslots : p.slots = [] := List.length_eq_zero_iff.mp ((h.arity a p hp).trans (hk ▸ rfl))
  have hpremises : p.premises = [] := by rw [Piece.premises, hslots]; rfl
  rw [hc.status?_statuses h hp, Option.some.injEq]
  refine (statusOf_eq_status_iff (d := ⟨f', [a]⟩)).mpr ⟨?_, ?_, ?_⟩
  · rw [Piece.isComplete, Piece.missing, hslots]
    rfl
  · simp [hpremises]
  · exact id_of_piece? hp ▸ .assumption hk hf

theorem added_of_no_goal (hg : b.goal = none) : b.added c = [⟨none, .noGoal⟩] := by
  rw [added, goalViolations, hg]

/-- What the policy adds to a board with a goal is about pieces that break no rule. -/
theorem exists_piece_of_mem_added (h : b.WellFormed) (hc : b.Current) (hg : b.goal = some g)
    (hv : v ∈ b.added c) :
    ∃ i, v.piece = some i ∧ ∀ w, b.statuses.status? i ≠ some (.violated w) := by
  simp only [added, goalViolations, hg] at hv
  cases hst : b.statuses.status? g with
  | none => simp [hst] at hv
  | some st =>
    cases st with
    | violated _ => simp [hst] at hv
    | incomplete missing blocked =>
      simp only [hst, goalOpen] at hv
      split at hv
      · exact absurd hv List.not_mem_nil
      · obtain ⟨t, -, rfl⟩ := List.mem_map.mp hv
        exact ⟨g, rfl, by simp [hst]⟩
    | derived f open_ =>
      simp only [hst, goalMismatch] at hv
      rcases List.mem_append.mp hv with hv | hv
      · split at hv
        · exact absurd hv List.not_mem_nil
        · obtain ⟨t, -, rfl⟩ := List.mem_map.mp hv
          exact ⟨g, rfl, by simp [hst]⟩
      · split at hv
        · obtain ⟨a, ha, hav⟩ := List.mem_filterMap.mp hv
          obtain ⟨f', hassumed, hstatus⟩ := derived_of_open h hc hst ha
          rw [hassumed] at hav
          dsimp only at hav
          split at hav
          · exact absurd hav (by simp)
          · obtain rfl := Option.some.inj hav
            exact ⟨a, rfl, by simp [hstatus]⟩
        · exact absurd hv List.not_mem_nil

/-- The goal of a board without violations is derived. -/
theorem goalConclusion_of_no_violations (h : b.WellFormed) (hr : (b.review c).1 = .ok r)
    (hsound : r.violations = []) : ∃ d, r.goalConclusion = some d := by
  obtain ⟨hfound, hadded⟩ := List.append_eq_nil_iff.mp
    (sortViolations_eq_nil_iff.mp (violations_of_review hr ▸ hsound))
  obtain ⟨hlacks, rfl⟩ := report_of_review hr
  rw [added, hfound, goalViolations] at hadded
  cases hgoal : b.goal with
  | none => simp [hgoal] at hadded
  | some g =>
    obtain ⟨p, hp, -⟩ := h.goal g hgoal
    have hst := status?_statuses h hp
    cases hstatus : p.cache.getD (statusOf b p b.statuses) with
    | derived f open_ =>
      rw [hstatus] at hst
      refine ⟨⟨f, open_⟩, ?_⟩
      rw [Report.goalConclusion, show (b.reportOf c b.statuses).goal = b.goal from rfl, hgoal]
      exact Statuses.conclusion?_eq_some_iff.mpr hst
    | violated v => exact absurd (hstatus ▸ hst) ((found_eq_nil_iff h).mp hfound g v)
    | incomplete missing blocked =>
      -- nothing explains the gap, so the policy names it unless there is no target
      rw [hstatus] at hst
      have htarget : b.target = none := by
        simpa [hgoal, hst, isExplained, goalOpen] using hadded
      have hfilter : (b.statuses.filterMap fun e => e.2.violation?) = [] := hfound
      simp [lacksFormula, hgoal, hst, htarget, hfilter, isExplained] at hlacks

/-- A report has no violations exactly when the goal is proved as the policy asks for. -/
theorem violations_eq_nil_iff (h : b.WellFormed) (hc : b.Current) (hr : (b.review c).1 = .ok r) :
    r.violations = [] ↔ b.Proved c := by
  constructor
  · intro hsound
    obtain ⟨d, hd⟩ := goalConclusion_of_no_violations h hr hsound
    obtain ⟨⟨g, hg, hgd⟩, htarget, hdeclared⟩ := target_of_no_violations hr hsound hd
    have hstatus := Statuses.conclusion?_eq_some_iff.mp hgd
    rw [violations_of_review hr, sortViolations_eq_nil_iff, List.append_eq_nil_iff,
      found_eq_nil_iff h] at hsound
    refine ⟨hsound.1, g, d.formula, d.assumptions, hg, hstatus, htarget, fun hjudges a ha => ?_⟩
    obtain ⟨f, hf, -⟩ := derived_of_open h hc hstatus ha
    exact ⟨f, hdeclared hjudges a ha f hf, hf⟩
  · rintro ⟨hunviolated, g, f, open_, hg, hstatus, htarget, hdeclared⟩
    rw [violations_of_review hr, sortViolations_eq_nil_iff, List.append_eq_nil_iff,
      found_eq_nil_iff h]
    refine ⟨hunviolated, ?_⟩
    simp only [added, goalViolations, hg, hstatus, goalMismatch, htarget, if_true,
      List.nil_append]
    split
    · next hjudges =>
      refine List.filterMap_eq_nil_iff.mpr fun a ha => ?_
      obtain ⟨f', hf', hassumed⟩ := hdeclared hjudges a ha
      rw [hassumed]
      exact if_pos hf'
    · rfl

/-- A piece in violation contributes the violation of its status and no other. -/
theorem violationsFor_of_violated (h : b.WellFormed) (hc : b.Current)
    (hr : (b.review c).1 = .ok r) (hi : b.statuses.status? i = some (.violated v)) :
    v.piece = some i ∧ r.violationsFor i = [v] := by
  refine ⟨piece_of_violated h hc hi, List.perm_singleton.mp ?_⟩
  have hnone : (b.added c).filter (fun w => w.piece = some i) = [] := by
    refine List.filter_eq_nil_iff.mpr fun w hw hwi => ?_
    have hwi := of_decide_eq_true hwi
    cases hg : b.goal with
    | none =>
      rw [added_of_no_goal hg, List.mem_singleton] at hw
      exact absurd (hw ▸ hwi) (by simp)
    | some g =>
      obtain ⟨j, hj, hunviolated⟩ := exists_piece_of_mem_added h hc hg hw
      obtain rfl := Option.some.inj (hj.symm.trans hwi)
      exact hunviolated v hi
  have hperm := filter_violations_perm hr fun w => w.piece = some i
  rwa [filter_found h hc hi, hnone, List.append_nil] at hperm

/-- The only violation about no piece is the lack of a goal. -/
theorem violations_without_piece (h : b.WellFormed) (hc : b.Current)
    (hr : (b.review c).1 = .ok r) : r.violations.filter (fun v => v.piece = none) =
      if b.goal = none then [⟨none, .noGoal⟩] else [] := by
  have hfound : b.found.filter (fun v => v.piece = none) = [] := by
    refine List.filter_eq_nil_iff.mpr fun v hv hnone => ?_
    obtain ⟨i, hi⟩ := (mem_found h).mp hv
    exact absurd ((of_decide_eq_true hnone).symm.trans (piece_of_violated h hc hi)) (by simp)
  have hperm := filter_violations_perm hr fun v => v.piece = none
  rw [hfound, List.nil_append] at hperm
  cases hg : b.goal with
  | none =>
    rw [added_of_no_goal hg] at hperm
    exact List.perm_singleton.mp hperm
  | some g =>
    have hadded : (b.added c).filter (fun v => v.piece = none) = [] := by
      refine List.filter_eq_nil_iff.mpr fun v hv hnone => ?_
      obtain ⟨i, hi, -⟩ := exists_piece_of_mem_added h hc hg hv
      exact absurd ((of_decide_eq_true hnone).symm.trans hi) (by simp)
    rw [hadded] at hperm
    rw [if_neg (by simp)]
    exact List.perm_nil.mp hperm

/-! ### Boards that can be reviewed -/

/-- A board whose target and premises are formulas and whose variables and terms are texts or
missing. -/
structure Typed (b : Board) : Prop where
  target : b.target.isSome = true
  premises : ∀ fs, b.premises = some fs → ∀ f ∈ fs, f.isSome = true
  names : ∀ p ∈ b.pieces, p.params.TextNames

theorem Typed.any_isNone (ht : b.Typed) : (b.premises.getD []).any Option.isNone = false := by
  cases hfs : b.premises with
  | none => rfl
  | some fs =>
    refine List.any_eq_false.mpr fun f hf => ?_
    simp [Option.isNone_eq_false_iff.mpr (ht.premises fs hfs f hf)]

/-- A review of such a board ends. -/
theorem Typed.exists_review (ht : b.Typed) (hc : b.Current) (c : CheckerSettings) :
    ∃ r, (b.review c).1 = .ok r := by
  have hdefective : b.defective? = none := by
    rw [hc.defective?_eq]
    refine List.find?_eq_none.mpr fun i _ => ?_
    cases hp : b.piece? i with
    | none => exact Bool.false_ne_true
    | some p => simp [(ht.names p (mem_of_piece? hp)).isDefective]
  have htarget : b.target.isNone = false := Option.isNone_eq_false_iff.mpr ht.target
  have hlacks : b.lacksFormula c = false := by
    rw [lacksFormula]
    cases b.goal with
    | none => rfl
    | some g => cases hst : b.statuses.status? g with
      | none => simp [hst]
      | some st => cases st <;> simp [hst, htarget, ht.any_isNone]
  exact ⟨_, congrArg Prod.fst (review_eq_check hdefective hlacks)⟩

end Board

end DeductionBoard
