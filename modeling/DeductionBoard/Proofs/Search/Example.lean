import DeductionBoard.Proofs.Formula.RoundTrip
import DeductionBoard.Proofs.Level.Reading
import DeductionBoard.Proofs.Query.Names
import DeductionBoard.Proofs.Search.Additions
import DeductionBoard.Proofs.Search.Soundness
import DeductionBoard.Proofs.Solver.Dialogue
import DeductionBoard.Verify.Check
import DeductionBoard.Verify.Solvability

/-! Published examples. On the board of a level all slots are empty, so nothing is wrong on it unless
an assumption assumes nothing. What the search builds on such a board within the grid is accepted by
every review, and no check finds it invalid. Where an assumption assumes nothing, no review accepts
what the search builds, since it removes no piece. -/

namespace DeductionBoard

open DeductionBoard.Derivation Solver Relation

variable {b : Board} {i : PieceId} {p : Piece} {f target : Formula} {fs : List Formula} {l : Draft}
  {n : String} {v : Value}

/-! ### Formulas from storage -/

theorem IsWritable.isUsableName (h : IsWritable n) : isUsableName n = true := by
  refine isUsableName_iff.mpr ⟨?_, fun hmark => ?_⟩
  · rintro rfl
    exact absurd h.1 (by decide)
  · exact absurd (Query.isIdentifierPart_of_isWord h.1 _ hmark) (by decide)

theorem Formula.wellNamed_of_parse {s : String} (h : Formula.parse s = .ok f) : f.WellNamed :=
  wellNamed_iff.mpr fun n hn => (isWritable_of_parse h n hn).isUsableName

theorem wellNamed_of_readFormula {field : String} (h : readFormula field v = .ok (some f)) :
    f.WellNamed := by
  obtain ⟨s, -, hparse⟩ := exists_text_of_readFormula h
  exact Formula.wellNamed_of_parse hparse

/-- The names in the target and the premises of a stored level can be used. -/
theorem Level.wellNamed_of_read (h : Level.read v = .ok l) :
    (∀ f, l.target = some f → f.WellNamed) ∧ ∀ f, some f ∈ l.premises → f.WellNamed := by
  obtain ⟨fs, rfl, hdescribes⟩ := read_eq_ok_iff.mp h
  refine ⟨fun f hf => wellNamed_of_readFormula (hdescribes.target.trans (congrArg _ hf)),
    fun f hf => ?_⟩
  obtain ⟨w, hw⟩ := exists_of_mem_premises hdescribes.premises hf
  exact wellNamed_of_readFormula hw

namespace Board

/-! ### Boards with empty slots -/

/-- A board as a level sets it up: nothing is wrong on it, every slot is empty, and every piece stands
on a cell. -/
structure Untouched (b : Board) : Prop where
  healthy : b.Healthy
  unwired : ∀ j i, ¬ b.Feeds j i
  cells : ∀ p ∈ b.pieces, ∃ cell, p.position = .cell cell

theorem untouched_empty (target : Option Formula) (premises : Option (List (Option Formula)))
    (puzzleId : Option String) (palette : Palette) :
    (empty target premises puzzleId palette).Untouched := by
  have hwf := wellFormed_empty target premises puzzleId palette
  have hcurrent := current_empty target premises puzzleId palette
  refine ⟨⟨hwf, hcurrent, fun i v hi => ?_, fun i p hp => absurd hp (by simp [piece?, empty])⟩,
    fun j i hji => absurd hji.mem_ids (by simp [ids, empty]), by simp [empty]⟩
  rw [(status?_statuses_eq_none_iff hwf).mpr (by simp [ids, empty])] at hi
  exact absurd hi (by simp)

/-- A piece that is added feeds none and is fed by none. -/
theorem not_feeds_add (hwf : b.WellFormed) (h : ∀ j i, ¬ b.Feeds j i) (kind : RuleKind) (q : Position)
    (params : Params) : ∀ j i, ¬ (b.add kind q params).Feeds j i := by
  intro j i hfeeds
  rcases (feeds_extended hwf (accepts_fresh b kind q params)).mp hfeeds with hold | ⟨-, hslot⟩
  · exact h j i hold
  · simp [Piece.fresh] at hslot

theorem Untouched.add (h : b.Untouched) (kind : RuleKind) (cell : Cell) (params : Params)
    (hformula : kind = .assumption → params.formula.isSome = true) :
    (b.add kind (.cell cell) params).Untouched where
  healthy := h.healthy.add kind _ params hformula
  unwired := not_feeds_add h.healthy.wellFormed h.unwired kind _ params
  cells p hp := by
    rcases List.mem_append.mp hp with hp | hp
    · exact h.cells p hp
    · exact ⟨cell, by rw [List.mem_singleton.mp hp]; rfl⟩

theorem Untouched.ready (h : b.Untouched) : b.Ready := ⟨h.healthy, fun _ _ k => h.unwired _ k⟩

/-- An assumption piece stands for its formula. -/
theorem Healthy.stands_of_assumption (h : b.Healthy) (hp : b.piece? i = some p)
    (hk : p.kind = .assumption) (hf : p.params.formula = some f) : b.Stands i f [f] := by
  refine ⟨fun hgoal => ?_, [i], ?_, fun g => ?_⟩
  · obtain ⟨q, hq, hqk⟩ := h.wellFormed.goal i hgoal
    obtain rfl := Option.some.inj (hp.symm.trans hq)
    exact absurd (hk.symm.trans hqk) (by simp)
  · have hslots : p.slots = [] := by
      rw [← List.length_eq_zero_iff, h.wellFormed.arity i p hp, hk]
      rfl
    rw [Statuses.conclusion?_eq_some_iff, h.status?_statuses hp,
      statusOf_assumption hk hslots hf, id_of_piece? hp]
  · have hassumed : b.assumed? i = some f := by
      rw [assumed?, hp]
      exact hf
    simp [hassumed, eq_comm]

end Board

/-! ### Checks without violations -/

/-- What an answer of the solver says is never that the rules are broken. -/
theorem CheckJob.kind_judgement (j : CheckJob) (s : EncoderSettings) (a : Answer) :
    (j.judgement s a).kind ≠ .invalid := by
  rw [judgement]
  split <;> simp [Judgement.kind]

/-- Where a review finds nothing, no answer of the solver makes the board invalid. -/
theorem Board.yields_verify {s : Settings} {r : Report} (hr : (b.review s.checker).1 = .ok r)
    (hsound : r.violations = []) : (b.verify s).Yields fun w => w.kind ≠ .invalid := by
  have hempty : r.violations.isEmpty = true := by
    rw [hsound]
    rfl
  rw [verify, prepareCheck, hr]
  dsimp only
  rw [prepareFrom, if_pos hempty]
  cases r.queryUnder s.encoder (some (b.proofName ++ " rev " ++ toString r.revision)) with
  | error e => trivial
  | ok q =>
    refine Dialogue.yields_bind (fun a => ?_) _
    exact CheckJob.kind_judgement ⟨r.revision, q, b.proofName⟩ s.encoder a

namespace Level

/-! ### Examples -/

/-- Every assumption that stands on the board from the start assumes a formula. -/
def PlacedFormulas (l : Draft) : Prop :=
  ∀ q ∈ l.pieces, q.kind = .assumption → q.params.formula.isSome = true

/-- The board of a level has its target and premises, and it can be built on. -/
theorem board_spec (h : l.PlacedFormulas) :
    l.board.Untouched ∧ l.board.target = l.target ∧ l.board.premises = some l.premises := by
  refine List.foldlRecOn (motive := fun b : Board => b.Untouched ∧ b.target = l.target ∧
    b.premises = some l.premises) l.pieces _ ?_ fun b hb q hq => ?_
  · exact ⟨Board.untouched_empty _ _ _ _, rfl, rfl⟩
  · exact ⟨hb.1.add q.kind q.cell q.params (h q hq), hb.2⟩

/-- What is at hand is an assumption that stands on the board. -/
theorem exists_piece_of_lookup {e : Search.Placed}
    (he : List.lookup f (placedAssumptions b) = some e) :
    ∃ p ∈ b.pieces, p.kind = .assumption ∧ p.params.formula = some f ∧
      e = ⟨p.id, .assumption, [f]⟩ := by
  obtain ⟨u, w, hes, -⟩ := List.lookup_eq_some_iff.mp he
  have hmem : (f, e) ∈ placedAssumptions b := by
    rw [hes]
    simp
  obtain ⟨p, hp, hpe⟩ := List.mem_filterMap.mp hmem
  obtain ⟨g, hg, hge⟩ := Option.map_eq_some_iff.mp hpe
  obtain ⟨rfl, rfl⟩ := Prod.mk.inj hge
  obtain ⟨hp, hk⟩ := List.mem_filter.mp hp
  exact ⟨p, hp, of_decide_eq_true hk, hg, rfl⟩

/-- The assumptions at hand stand for their formulas. -/
theorem known_resources (h : l.board.Healthy) (s : SearchSettings) :
    Search.Resources.Known l.board.Stands (l.resources s) := by
  intro f e he
  obtain ⟨p, hp, hk, hf, rfl⟩ := exists_piece_of_lookup he
  exact h.stands_of_assumption (Board.piece?_of_mem h.wellFormed.nodup hp) hk hf

theorem accepted?_eq_some_iff {built : Except EditError Built} : l.accepted? built = some b ↔
    built = .ok ⟨b, true⟩ ∧ (l.layout b).isValid = true := by
  rw [accepted?.eq_def]
  split
  · rw [Option.ite_none_right_eq_some, Option.some.injEq, Except.ok.injEq, Built.mk.injEq]
    constructor
    · rintro ⟨hvalid, rfl⟩
      exact ⟨⟨rfl, rfl⟩, hvalid⟩
    · rintro ⟨⟨rfl, -⟩, hvalid⟩
      exact ⟨hvalid, rfl⟩
  · next h => exact iff_of_false (by simp) fun hb => h b hb.1

theorem solution_eq_some_iff {s : SearchSettings} (ht : l.target = some target) :
    l.solution s = .ok (some b) ↔ 0 ≤ l.room ∧ ∃ o c, l.search s target = .ok o ∧
      o.found = some c ∧ l.accepted? (l.board.build (some l.grid) c) = some b := by
  rw [solution]
  by_cases hroom : l.room < 0
  · rw [if_pos hroom]
    exact iff_of_false (by simp) fun h => not_lt.mpr h.1 hroom
  rw [if_neg hroom, ht]
  dsimp only
  constructor
  · intro h
    obtain ⟨o, ho, h⟩ := exists_of_map_eq_ok h
    obtain ⟨c, hc, hb⟩ := Option.bind_eq_some_iff.mp h
    exact ⟨not_lt.mp hroom, o, c, ho, hc, hb⟩
  · rintro ⟨-, o, c, ho, hc, hb⟩
    rw [ho]
    show Except.ok (o.found.bind _) = _
    rw [hc, Option.bind_some, hb]

/-- A solution is a construction of the target that fits on the board of the level. -/
theorem exists_of_solution {s : SearchSettings} (h : l.solution s = .ok (some b))
    (ht : l.target = some target) :
    ∃ o c, l.search s target = .ok o ∧ o.found = some c ∧
      l.board.build (some l.grid) c = .ok ⟨b, true⟩ := by
  obtain ⟨-, o, c, ho, hc, hb⟩ := (solution_eq_some_iff ht).mp h
  exact ⟨o, c, ho, hc, (accepted?_eq_some_iff.mp hb).1⟩

/-- The goal of a solution derives the target, from declared premises. -/
theorem finished_of_solution (hplaced : l.PlacedFormulas) (ht : l.target = some target)
    (htarget : target.WellNamed) (hpremises : ∀ f, some f ∈ l.premises → f.WellNamed)
    {s : SearchSettings} (h : l.solution s = .ok (some b)) :
    ∃ fs, b.Finished target fs ∧ b.target = some target ∧ b.declared = l.declared ∧
      ∀ f ∈ fs, f ∈ b.declared := by
  obtain ⟨huntouched, hboardTarget, hboardPremises⟩ := board_spec hplaced
  obtain ⟨o, c, ho, hc, hbuild⟩ := exists_of_solution h ht
  have hdeclared : ∀ f ∈ l.declared, f.WellNamed := by
    intro f hf
    obtain ⟨g, hg, hgf⟩ := List.mem_filterMap.mp hf
    exact hpremises f (hgf ▸ hg)
  obtain ⟨hsound, hformula, hsub⟩ := Search.closes_of_prove
    (known_resources huntouched.healthy s) htarget hdeclared ho hc
  rcases Board.build_spec (some l.grid) huntouched.ready huntouched.cells hsound with
    ⟨-, b', hb'⟩ | ⟨b', hb', hfinished, htarget', hpremises'⟩
  · exact absurd (hb'.symm.trans hbuild) (by simp)
  · obtain rfl : b' = b := by simpa using hb'.symm.trans hbuild
    have hsame : b'.declared = l.declared := by
      rw [Board.declared, hpremises', hboardPremises]
      rfl
    refine ⟨c.assumptions, hformula ▸ hfinished, ?_, hsame, fun f hf => hsame ▸ hsub f hf⟩
    rw [htarget', hboardTarget, ht]

/-! ### Assumptions that assume nothing -/

theorem enlarged_foldl_add (b : Board) (qs : List Placement) :
    b.Enlarged (qs.foldl (fun b q => b.add q.kind (.cell q.cell) q.params) b) := by
  induction qs generalizing b with
  | nil => exact .refl
  | cons q qs ih => exact (Board.Enlarged.refl.add q.kind _ q.params).trans (ih _)

/-- An assumption of a level that has no formula stands on its board. -/
theorem exists_blank_foldl_add {qs : List Placement} {q : Placement} (hq : q ∈ qs)
    (hk : q.kind = .assumption) (hf : q.params.formula = none) (hwf : b.WellFormed) :
    ∃ i, (qs.foldl (fun b q => b.add q.kind (.cell q.cell) q.params) b).Blank i := by
  induction qs generalizing b with
  | nil => exact absurd hq (by simp)
  | cons q' qs ih =>
    rcases List.mem_cons.mp hq with rfl | hq
    · have haccepts := Board.accepts_fresh b q.kind (.cell q.cell) q.params
      have hself := Board.piece?_extended_self (n := b.revision + 1) hwf haccepts
      exact ⟨b.nextId, (enlarged_foldl_add _ qs).blank ⟨_, hself, hk, hf⟩⟩
    · exact ih hq (hwf.add _ _ _)

/-- A solution that a review finds nothing wrong with shows that no assumption of the level lacks its
formula: whatever the search does, it leaves such an assumption where it is. -/
theorem placedFormulas_of_review {s : SearchSettings} (h : l.solution s = .ok (some b))
    (ht : l.target = some target) {c : CheckerSettings} {r : Report}
    (hr : (b.review c).1 = .ok r) (hsound : r.violations = []) : l.PlacedFormulas := by
  intro q hq hk
  by_contra hf
  obtain ⟨o, e, -, -, hbuild⟩ := exists_of_solution h ht
  have hempty := Board.wellFormed_empty l.target (some l.premises) (some l.id) l.palette
  obtain ⟨hwf, hcurrent⟩ := ((enlarged_foldl_add _ l.pieces).trans
    (Board.enlarged_build hbuild)).invariant hempty (Board.current_empty _ _ _ _)
  obtain ⟨i, hi⟩ := exists_blank_foldl_add hq hk (by simpa using hf) hempty
  have hviolated := ((Board.enlarged_build hbuild).blank hi).status?_statuses hwf hcurrent
  have hmem := Board.mem_violations_of_review hr (Board.statuses_of_review hr ▸ hviolated)
  exact absurd hmem (by simp [hsound])

/-! ### What is published -/

/-- What the solvability check publishes is a solution. -/
theorem yields_solvability (l : Draft) (s : Settings) :
    (l.solvability s).Yields fun a => ∀ b, a = .solvable b → l.solution s.search = .ok (some b) := by
  refine Dialogue.yields_bind (fun o => Dialogue.yields_bind (fun q => Dialogue.yields_bind
    (fun a => Dialogue.yields_ofDefect fun r hr b hb => ?_) _) _) _
  rw [judge.eq_def] at hr
  split at hr
  · obtain rfl := Except.ok.inj hr
    exact absurd hb (by simp)
  · obtain ⟨found, hfound, rfl⟩ := exists_of_map_eq_ok hr
    cases found with
    | none => exact absurd hb (by simp)
    | some b' => rw [hfound, Solvability.solvable.inj hb]
  · obtain rfl := Except.ok.inj hr
    exact absurd hb (by simp)

/-- A published example of a stored level is accepted exactly if every assumption that stands on its
board from the start has a formula: then a review of the example finds nothing wrong, its goal derives
the target from declared premises, and no check finds the example invalid, whatever a solver answers. -/
theorem example_accepted_iff (hread : Level.read v = .ok l) (ht : l.target = some target)
    {s : Settings} {σ : Type} {solve : Query → Value → σ → Answer × σ} {st : σ}
    (hb : ((l.solvability s).run solve st).1 = .ok (.solvable b)) :
    (∀ c : CheckerSettings, l.PlacedFormulas ↔ ∃ r open_, (b.review c).1 = .ok r ∧
      r.violations = [] ∧ r.goalStatus = some (.derived target open_) ∧
      ∀ a ∈ open_, ∃ f, b.assumed? a = some f ∧ some f ∈ l.premises) ∧
    (l.PlacedFormulas → ∀ (s' : Settings) (τ : Type) (solve' : Query → Value → τ → Answer × τ)
      (st' : τ) (w : Verdict), ((b.verify s').run solve' st').1 = .ok w → w.kind ≠ .invalid) := by
  obtain ⟨htarget, hpremises⟩ := wellNamed_of_read hread
  have hsolution := (l.yields_solvability s).of_run hb b rfl
  have hreview : l.PlacedFormulas → ∀ c : CheckerSettings, ∃ r open_, (b.review c).1 = .ok r ∧
      r.violations = [] ∧ r.goalStatus = some (.derived target open_) ∧
      ∀ a ∈ open_, ∃ f, b.assumed? a = some f ∧ some f ∈ l.premises := by
    intro hplaced c
    obtain ⟨fs, hfinished, hboardTarget, hdeclared, hsub⟩ :=
      finished_of_solution hplaced ht (htarget target ht) hpremises hsolution
    obtain ⟨r, open_, hr, hviolations, hstatus, -, hassumed⟩ :=
      hfinished.review hboardTarget (fun _ => hsub) c
    refine ⟨r, open_, hr, hviolations, hstatus, fun a ha => ?_⟩
    obtain ⟨f, hf, ha⟩ := hassumed a ha
    obtain ⟨g, hg, rfl⟩ := List.mem_filterMap.mp (hdeclared ▸ hsub f hf)
    exact ⟨f, ha, hg⟩
  refine ⟨fun c => ⟨fun hplaced => hreview hplaced c, ?_⟩, fun hplaced s' τ solve' st' w hw => ?_⟩
  · rintro ⟨r, -, hr, hviolations, -⟩
    exact placedFormulas_of_review hsolution ht hr hviolations
  · obtain ⟨r, -, hr, hviolations, -⟩ := hreview hplaced s'.checker
    exact (Board.yields_verify hr hviolations).of_run hw

/-- A level on a small grid with one assumption on it from the start, as it is stored. -/
def storedSmall (params : List (String × Value)) : Value :=
  .object [("id", .text "t"), ("name", .text "T"), ("target", .text "P"),
    ("premises", .list [.text "P"]), ("available_rules", .list [.text "assumption"]),
    ("grid", .object [("width", .int 2), ("height", .int 2)]),
    ("pieces", .list [.object [("kind", .text "assumption"), ("position", .list [.int 0, .int 0]),
      ("params", .object params)]])]

def small (f : Option Formula) : Draft :=
  ⟨"t", .text "T", .text "", some (.atom "P" []), [some (.atom "P" [])],
    Palette.ofList [.assumption], ⟨2, 2, none⟩,
    [⟨.assumption, (0, 0), { Params.empty with formula := f }⟩]⟩

/-- The placed assumption is all that the example needs. -/
def smallExample : Board :=
  ⟨some (.atom "P" []), some [some (.atom "P" [])], some "t", Palette.ofList [.assumption], some 2,
    [⟨1, .assumption, .cell (0, 0), { Params.empty with formula := some (.atom "P" []) }, [], none⟩,
      ⟨2, .goal, .cell (1, 0), Params.empty, [some 1], none⟩], 3, 3⟩

theorem example_accepted_small :
    read (storedSmall [("formula", .text "P")]) = .ok (small (some (.atom "P" []))) ∧
      (((small (some (.atom "P" []))).solvability .standard).run Dialogue.affirm ()).1 =
        .ok (.solvable smallExample) ∧
      ∃ r open_, (smallExample.review .standard).1 = .ok r ∧ r.violations = [] ∧
        r.goalStatus = some (.derived (.atom "P" []) open_) := by
  have hread : read (storedSmall [("formula", .text "P")]) = .ok (small (some (.atom "P" []))) := by
    decide +kernel
  have hplaced : (small (some (.atom "P" []))).PlacedFormulas := by
    intro q hq _
    rw [List.mem_singleton.mp hq]
    rfl
  have hb : (((small (some (.atom "P" []))).solvability .standard).run Dialogue.affirm ()).1 =
      .ok (.solvable smallExample) := by
    cbv
  obtain ⟨r, open_, hr, hviolations, hstatus, -⟩ :=
    ((example_accepted_iff hread rfl hb).1 .standard).mp hplaced
  exact ⟨hread, hb, r, open_, hr, hviolations, hstatus⟩

/-- The assumption that stands there without a formula is passed over. -/
def blankExample : Board :=
  ⟨some (.atom "P" []), some [some (.atom "P" [])], some "t", Palette.ofList [.assumption], some 3,
    [⟨1, .assumption, .cell (0, 0), Params.empty, [], none⟩,
      ⟨2, .assumption, .cell (0, 1), { Params.empty with formula := some (.atom "P" []) }, [], none⟩,
      ⟨3, .goal, .cell (1, 1), Params.empty, [some 2], none⟩], 4, 4⟩

/-- With an assumption of nothing on its board a level has an example all the same, but every review of
the example finds it in violation, and the example is invalid. -/
theorem example_of_blank_assumption :
    read (storedSmall []) = .ok (small none) ∧
      (((small none).solvability .standard).run Dialogue.affirm ()).1 = .ok (.solvable blankExample) ∧
      (blankExample.review .standard).1.toOption.map Report.violations =
        some [⟨some 1, .missingParameter .assumption "formula"⟩] ∧
      ((blankExample.verify .standard).run Dialogue.affirm ()).1 =
        .ok ⟨.invalid [⟨some 1, .missingParameter .assumption "formula"⟩], 4⟩ := by
  refine ⟨?_, ?_, ?_, ?_⟩
  · decide +kernel
  · cbv
  · decide_cbv
  · cbv

end Level

end DeductionBoard
