import DeductionBoard.Proofs.Derivation.Soundness
import DeductionBoard.Proofs.Search.Placement
import Mathlib

/-! Soundness of the search against the rules. A construction that the search finds can be built on the
board it was searched for, and a review of the result finds nothing wrong: the goal is derived from the
premises that the construction leaves open. -/

namespace DeductionBoard

open DeductionBoard.Derivation

variable {b b' : Board} {i g : PieceId} {f : Formula} {fs : List Formula} {d : Conclusion}
  {c : CheckerSettings} {r : Report}

/-! ### The goal -/

namespace Board

/-- A board on which nothing is wrong and whose goal derives a formula with some formulas open. -/
structure Finished (b : Board) (f : Formula) (fs : List Formula) : Prop where
  healthy : b.Healthy
  derived : ∃ g open_, b.goal = some g ∧ b.statuses.conclusion? g = some ⟨f, open_⟩ ∧
    b.OpenFormulas open_ fs

/-- A piece is wired into the goal. -/
theorem exists_wire_goal (hb : b.Ready) (hgoal : b.goal = some g) (hroot : b.Stands i f fs) :
    ∃ b', b.wire g 0 i = .ok b' ∧ b'.Finished f fs ∧ b'.target = b.target ∧
      b'.premises = b.premises := by
  obtain ⟨hne, open_, hconclusion, hopen⟩ := hroot
  have hwf := hb.healthy.wellFormed
  obtain ⟨p, hp, hk⟩ := hwf.goal g hgoal
  have hidle := hb.idle g hgoal
  have hig : i ≠ g := fun hig => hne (by rw [hgoal, hig])
  obtain ⟨hhealthy, hderived, -⟩ := hb.healthy.rewire hp hk hidle hig hconclusion
  refine ⟨b.rewire g 0 (some i), ?_, ⟨hhealthy, g, open_, hgoal, hderived, ?_⟩, rfl, rfl⟩
  · exact wire_eq_rewire hwf hp (by rw [hk]; rfl) hidle (hb.healthy.mem_ids hconclusion) hig
  · intro h
    simp only [assumed?_rewire]
    exact hopen h

/-- Where there is no goal, one is put on the board and wired. -/
theorem exists_add_goal (hb : b.Ready) (hgoal : b.goal = none) (hroot : b.Stands i f fs)
    (position : Position) :
    ∃ b', (b.add .goal position Params.empty).wire b.nextId 0 i = .ok b' ∧ b'.Finished f fs ∧
      b'.target = b.target ∧ b'.premises = b.premises := by
  obtain ⟨-, open_, hconclusion, hopen⟩ := hroot
  have hwf := hb.healthy.wellFormed
  have hmem : ∀ j ∈ [i], j ∈ b.ids := fun j hj =>
    List.mem_singleton.mp hj ▸ hb.healthy.mem_ids hconclusion
  obtain ⟨n, hwire⟩ := exists_wire_add_goal hwf hgoal (hb.healthy.mem_ids hconclusion) position
  have haccepts : b.Accepts (b.pieceOn .goal position Params.empty [i]) (some b.nextId) :=
    accepts_pieceOn hmem rfl (.inr ⟨rfl, rfl⟩)
  have hstatus : statusOf b (b.pieceOn .goal position Params.empty [i]) b.statuses =
      Conclusion.status ⟨f, open_⟩ :=
    statusOf_pieceOn (.cons hconclusion .nil) (.goal rfl)
  obtain ⟨hhealthy, hderived⟩ := hb.healthy.extended haccepts rfl ⟨.inl rfl, .inl rfl⟩ hstatus n
  refine ⟨_, hwire, ⟨hhealthy, _, open_, rfl, hderived, ?_⟩, rfl, rfl⟩
  exact hopen.grow (grows_extended hb.healthy haccepts rfl n) fun a ha =>
    hb.healthy.mem_ids_of_open hconclusion ha

/-- The root of a construction is wired into the goal, which is put on the board if there is none
and the grid has a cell for it. -/
theorem exists_finish {s : Site} (grid : Option Grid) (hs : s.board.Ready) (cell : Cell)
    (hroot : s.board.Stands i f fs) :
    (grid.isSome ∧ finish grid s ⟨cell, i⟩ = .ok ⟨s.board, false⟩) ∨
      ∃ b', finish grid s ⟨cell, i⟩ = .ok ⟨b', true⟩ ∧ b'.Finished f fs ∧
        b'.target = s.board.target ∧ b'.premises = s.board.premises := by
  rw [finish]
  cases hgoal : s.board.goal with
  | some g =>
    obtain ⟨b', hwire, hfinished⟩ := exists_wire_goal hs hgoal hroot
    dsimp only
    rw [hwire]
    exact .inr ⟨b', rfl, hfinished⟩
  | none =>
    dsimp only
    cases hcell : freeCell grid s.occupied (cell.1 + 1, cell.2) with
    | none =>
      refine .inl ⟨?_, rfl⟩
      cases grid with
      | none => exact absurd hcell (by simp [freeCell])
      | some g => rfl
    | some cell' =>
      obtain ⟨b', hwire, hfinished⟩ := exists_add_goal hs hgoal hroot (.cell cell')
      dsimp only
      rw [hwire]
      exact .inr ⟨b', rfl, hfinished⟩

/-! ### The review -/

theorem Healthy.defective?_eq_none (h : b.Healthy) : b.defective? = none := by
  rw [h.current.defective?_eq, List.find?_eq_none]
  intro i _
  cases hp : b.piece? i with
  | none => simp
  | some p => simp [h.applicable i p hp]

theorem Healthy.violations_eq_nil (h : b.Healthy) :
    (b.statuses.filterMap fun e => e.2.violation?) = [] := by
  refine List.filterMap_eq_nil_iff.mpr fun e he => ?_
  have hstatus := Statuses.status?_of_mem (nodup_statuses h.wellFormed) he
  cases hst : e.2 with
  | violated v => exact absurd (hst ▸ hstatus) (h.unviolated e.1 v)
  | derived _ _ => rfl
  | incomplete _ _ => rfl

/-- A review finds nothing on a healthy board whose goal derives the target from premises. -/
theorem Healthy.review (h : b.Healthy) (hgoal : b.goal = some g)
    (hd : b.statuses.conclusion? g = some d) (htarget : b.target = some d.formula)
    (hopen : b.premises.isSome = true → ∀ a ∈ d.assumptions, ∀ f, b.assumed? a = some f →
      f ∈ b.declared) (c : CheckerSettings) :
    (b.review c).1 = .ok (b.check c).1 ∧ (b.check c).1.violations = [] := by
  have hstatus := Statuses.conclusion?_eq_some_iff.mp hd
  have hundeclared : b.judgesPremises c = true → b.undeclared d.assumptions = [] := by
    intro hjudges
    rw [judgesPremises, Bool.and_eq_true] at hjudges
    refine List.filterMap_eq_nil_iff.mpr fun a ha => ?_
    cases ha' : b.assumed? a with
    | none => rfl
    | some f => exact if_pos (hopen hjudges.2 a ha f ha')
  have hlacks : b.lacksFormula c = false := by
    rw [lacksFormula, hgoal]
    simp only [hstatus, Conclusion.status, htarget, Option.isNone_some, Bool.false_or]
    cases hjudges : b.judgesPremises c with
    | false => rfl
    | true => simp [hundeclared hjudges]
  constructor
  · rw [review_eq_check h.defective?_eq_none hlacks]
  · have hgoalViolations : b.goalViolations c b.statuses [] = [] := by
      rw [goalViolations, hgoal]
      simp only [hstatus, Conclusion.status, goalMismatch, htarget, if_true, List.nil_append]
      split
      · next hjudges => exact hundeclared hjudges
      · rfl
    rw [check, reportOf]
    dsimp only
    rw [h.violations_eq_nil, hgoalViolations]
    exact sortViolations_eq_nil_iff.mpr rfl

/-- A review finds nothing on a board whose goal derives the target, where the formulas that it leaves
open are premises. -/
theorem Finished.review (h : b.Finished f fs) (htarget : b.target = some f)
    (hallowed : b.premises.isSome = true → ∀ g ∈ fs, g ∈ b.declared) (c : CheckerSettings) :
    ∃ r open_, (b.review c).1 = .ok r ∧ r.violations = [] ∧
      r.goalStatus = some (.derived f open_) ∧ b.OpenFormulas open_ fs ∧
      ∀ a ∈ open_, ∃ g ∈ fs, b.assumed? a = some g := by
  obtain ⟨g, open_, hg, hderived, hopen⟩ := h.derived
  obtain ⟨hreview, hviolations⟩ := h.healthy.review hg hderived htarget
    (fun hsome a ha f' hf' => hallowed hsome f' ((hopen f').mpr ⟨a, ha, hf'⟩)) c
  refine ⟨_, open_, hreview, hviolations, ?_, hopen, fun a ha => ?_⟩
  · rw [Report.goalStatus, show (b.check c).1.goal = b.goal from rfl, hg]
    exact Statuses.conclusion?_eq_some_iff.mp hderived
  · obtain ⟨-, f', hf'⟩ := h.healthy.exists_assumed hderived ha
    exact ⟨f', (hopen f').mpr ⟨a, ha, hf'⟩, hf'⟩

/-- A board that a review can check and on which it finds no piece in violation. -/
theorem healthy_of_review (hwf : b.WellFormed) (hcurrent : b.Current)
    (hr : (b.review c).1 = .ok r)
    (hunviolated : ∀ i v, r.statuses.status? i ≠ some (.violated v)) : b.Healthy := by
  refine ⟨hwf, hcurrent, statuses_of_review hr ▸ hunviolated, fun i p hp => ?_⟩
  have hdefective : b.defective? = none := by
    rw [review] at hr
    split at hr
    · exact absurd hr (by simp)
    · assumption
  rw [hcurrent.defective?_eq, List.find?_eq_none] at hdefective
  simpa [hp] using hdefective i ((mem_order hwf).mpr (mem_ids_of_piece? hp))

/-- A construction is built on a board unless the grid has no cell for one of its pieces; the goal
then derives its formula. -/
theorem build_spec (grid : Option Grid) (hb : b.Ready)
    (hcells : ∀ p ∈ b.pieces, ∃ cell, p.position = .cell cell) {c : Construction}
    (hc : c.Sound b.Stands) :
    (grid.isSome ∧ ∃ b', b.build grid c = .ok ⟨b', false⟩) ∨
      ∃ b', b.build grid c = .ok ⟨b', true⟩ ∧ b'.Finished c.formula c.assumptions ∧
        b'.target = b.target ∧ b'.premises = b.premises := by
  have hkey : (b.pieces.all fun p => p.position.isKey) = true := by
    refine List.all_eq_true.mpr fun p hp => ?_
    obtain ⟨cell, hcell⟩ := hcells p hp
    rw [hcell]
    rfl
  rw [build, if_pos hkey]
  rcases Site.reaches_place hb.healthy (fun i p hp => hcells p (mem_of_piece? hp)) hc (.ofBoard b)
    hb (.refl b) rfl with ⟨hgrid, s, hplace⟩ | ⟨s, cell, i, hplace, hs, hgrows, -, hroot⟩
  · rw [hplace]
    exact .inl ⟨hgrid, s.board, rfl⟩
  · rw [hplace]
    rcases exists_finish grid hs cell hroot with
      ⟨hgrid, hfinish⟩ | ⟨b', hfinish, hfinished, htarget, hpremises⟩
    · exact .inl ⟨hgrid, s.board, hfinish⟩
    · exact .inr ⟨b', hfinish, hfinished, htarget.trans hgrows.target,
        hpremises.trans hgrows.premises⟩

/-- Without a grid there is room for every construction. -/
theorem exists_build (hb : b.Healthy) (hidle : ∀ g, b.goal = some g → ∀ k, ¬ b.Feeds g k)
    (hcells : ∀ p ∈ b.pieces, ∃ cell, p.position = .cell cell) {c : Construction}
    (hc : c.Sound b.Stands) :
    ∃ b', b.build none c = .ok ⟨b', true⟩ ∧ b'.Finished c.formula c.assumptions ∧
      b'.target = b.target ∧ b'.premises = b.premises :=
  (build_spec none ⟨hb, hidle⟩ hcells hc).resolve_left (by simp)

end Board

/-! ### The search -/

namespace Search

/-- Whatever a search for the target of a board finds can be built on that board, which may be one
without pieces; a review of the result finds nothing wrong, the goal derives the target, and it rests
on the open formulas of the construction, all of them premises. -/
theorem prove_sound (hb : b.Reachable) (hcells : ∀ p ∈ b.pieces, ∃ cell, p.position = .cell cell)
    {goal : Formula} {premises : List Formula} (hgoal : goal.WellNamed)
    (hpremises : ∀ f ∈ premises, f.WellNamed) (htarget : b.target = some goal)
    (hdeclared : ∀ fs, b.premises = some fs → fs = premises.map some)
    (hreview : (b.review c).1 = .ok r)
    (hunviolated : ∀ i v, r.statuses.status? i ≠ some (.violated v))
    (hidle : ∀ g, b.goal = some g → ∀ k, ¬ b.Feeds g k) {res : Resources}
    (hexisting : ∀ f p, List.lookup f res.existing = some p →
      b.goal ≠ some p.piece ∧ ∃ open_, r.statuses.status? p.piece = some (.derived f open_) ∧
        ∀ g, g ∈ p.assumptions ↔ ∃ a ∈ open_, b.assumed? a = some g)
    {depth : Limit} {room : Room} {o : Outcome} {found : Construction}
    (ho : Search.prove res depth premises goal room = .ok o) (hfound : o.found = some found) :
    (∀ f ∈ found.assumptions, f ∈ premises) ∧
      ∃ b', b.build none found = .ok ⟨b', true⟩ ∧
        ∀ c' : CheckerSettings, ∃ r', (b'.review c').1 = .ok r' ∧ r'.violations = [] ∧
          ∃ open_, r'.goalStatus = some (.derived goal open_) ∧
            ∀ f, f ∈ found.assumptions ↔ ∃ a ∈ open_, b'.assumed? a = some f := by
  obtain ⟨hwf, hcurrent⟩ := hb.invariant
  have hhealthy := Board.healthy_of_review hwf hcurrent hreview hunviolated
  have hstatuses := Board.statuses_of_review hreview
  have hknown : Resources.Known b.Stands res := by
    intro f p hp
    obtain ⟨hne, open_, hstatus, hopen⟩ := hexisting f p hp
    exact ⟨hne, open_, Statuses.conclusion?_eq_some_iff.mpr (hstatuses ▸ hstatus), hopen⟩
  obtain ⟨hsound, hformula, hsub⟩ := closes_of_prove hknown hgoal hpremises ho hfound
  obtain ⟨b', hbuild, hfinished, htarget', hpremises'⟩ :=
    Board.exists_build hhealthy hidle hcells hsound
  rw [hformula] at hfinished
  have hallowed : b'.premises.isSome = true → ∀ f ∈ found.assumptions, f ∈ b'.declared := by
    intro hsome f hf
    obtain ⟨fs, hfs⟩ := Option.isSome_iff_exists.mp hsome
    have hfs' := hdeclared fs (hpremises' ▸ hfs)
    rw [Board.declared, hfs, hfs', Option.getD_some, List.filterMap_map]
    exact List.mem_filterMap.mpr ⟨f, hsub f hf, rfl⟩
  refine ⟨hsub, b', hbuild, fun c' => ?_⟩
  obtain ⟨r', open_, hr', hviolations, hstatus, hopen, -⟩ :=
    hfinished.review (htarget'.trans htarget) hallowed c'
  exact ⟨r', hr', hviolations, open_, hstatus, hopen⟩

/-- A conjunction whose left part stands on the board; the right part is built on the same piece. -/
def sharedGoal : Formula :=
  .conj (.atom "P" []) (.all "x" (.imp (.atom "Q" ["x"]) (.atom "P" [])))

def sharedBoard : Board :=
  Action.runAll (.empty (some sharedGoal) (some [some (.atom "P" [])]) none Palette.full)
    [.edit (.add (.text "assumption") (some (.cell (0, 0)))
      [("formula", .formula (some (.atom "P" [])))])]

def sharedResources : Resources :=
  ⟨Palette.full, [(.atom "P" [], ⟨1, .assumption, [.atom "P" []]⟩)], .upTo 100, false⟩

def sharedConstruction : Construction :=
  .both (.reused 1 .assumption (.atom "P" []) [.atom "P" []])
    (.quantify .all "x" none (.imp (.atom "Q" ["x"]) (.atom "P" []))
      (.implies (.atom "Q" ["x"]) (.reused 1 .assumption (.atom "P" []) [.atom "P" []])))

theorem prove_sound_shared :
    Search.prove sharedResources (.upTo 6) [.atom "P" []] sharedGoal none =
        .ok ⟨some sharedConstruction, 5, false⟩ ∧
      ∃ b', sharedBoard.build none sharedConstruction = .ok ⟨b', true⟩ ∧
        ∃ r', (b'.review .standard).1 = .ok r' ∧ r'.violations = [] ∧
          ∃ open_, r'.goalStatus = some (.derived sharedGoal open_) := by
  have hprove : Search.prove sharedResources (.upTo 6) [.atom "P" []] sharedGoal none =
      .ok ⟨some sharedConstruction, 5, false⟩ := by
    cbv
  have hpieces : sharedBoard.pieces = [⟨1, .assumption, .cell (0, 0),
      { Params.empty with formula := some (.atom "P" []) }, [], none⟩] := by
    decide_cbv
  have hstatuses : (sharedBoard.check .standard).1.statuses =
      [(1, .derived (.atom "P" []) [1])] := by
    decide_cbv
  have hreview : (sharedBoard.review .standard).1 = .ok (sharedBoard.check .standard).1 :=
    congrArg Prod.fst (Board.review_eq_check (by decide_cbv) (by decide_cbv))
  have hgoal : sharedBoard.goal = none := by decide_cbv
  have hassumed : sharedBoard.assumed? 1 = some (.atom "P" []) := by decide_cbv
  have hnamed : sharedGoal.WellNamed := by
    simp only [sharedGoal, Formula.WellNamed, List.not_mem_nil, false_imp_iff, implies_true,
      List.mem_singleton, forall_eq]
    decide
  have hpremise : (Formula.atom "P" []).WellNamed := hnamed.1
  have htarget : sharedBoard.target = some sharedGoal := by decide_cbv
  have hdeclared : sharedBoard.premises = some [some (.atom "P" [])] := by decide_cbv
  have hunviolated : ∀ i v, (sharedBoard.check .standard).1.statuses.status? i ≠
      some (.violated v) := by
    intro i v hi
    have hmem := Statuses.mem_of_status? hi
    rw [hstatuses] at hmem
    exact absurd hmem (by simp)
  have hexisting : ∀ f p, List.lookup f sharedResources.existing = some p →
      sharedBoard.goal ≠ some p.piece ∧
        ∃ open_, (sharedBoard.check .standard).1.statuses.status? p.piece =
          some (.derived f open_) ∧
          ∀ g, g ∈ p.assumptions ↔ ∃ a ∈ open_, sharedBoard.assumed? a = some g := by
    intro f p hp
    obtain ⟨l, t, hl, -⟩ := List.lookup_eq_some_iff.mp hp
    have hmem : (f, p) ∈ sharedResources.existing := by simp [hl]
    obtain ⟨rfl, rfl⟩ := Prod.mk.inj (List.mem_singleton.mp hmem)
    refine ⟨by simp [hgoal], [1], by rw [hstatuses]; rfl, fun g => ?_⟩
    simp [hassumed, eq_comm]
  have hreachable : sharedBoard.Reachable := ⟨_, _, _, _, _, rfl⟩
  obtain ⟨-, b', hbuild, hreports⟩ := prove_sound hreachable (by simp [hpieces]) hnamed
    (by simpa using hpremise) htarget (by simp [hdeclared]) hreview hunviolated (by simp [hgoal])
    hexisting hprove rfl
  obtain ⟨r', hr', hviolations, open_, hderived, -⟩ := hreports .standard
  exact ⟨hprove, b', hbuild, r', hr', hviolations, open_, hderived⟩

end Search

end DeductionBoard
