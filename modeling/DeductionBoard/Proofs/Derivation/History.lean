import DeductionBoard.Proofs.Derivation.Incremental
import Mathlib

/-! What a review does not see. Boards with equal snapshots may differ in their cached statuses, in
the numbers they have used up and in how often they were changed; on reachable boards a review finds
the same whatever these are, and its report differs in the revision number only. -/

namespace DeductionBoard

open DeductionBoard.Derivation

variable {b b' : Board} {i : PieceId} {p' : Piece} {s : Statuses} {c : CheckerSettings}

namespace Board

theorem forgetAll_eq_mapPieces (b : Board) : b.forgetAll = b.mapPieces Piece.forget := rfl

theorem snapshot_forgetAll (b : Board) : b.forgetAll.snapshot = b.snapshot := by
  have hforget : Piece.forget ∘ Piece.forget = Piece.forget := rfl
  simp only [snapshot, forgetAll, List.map_map, hforget]

theorem snapshot_remember (b : Board) (s : Statuses) : (b.remember s).snapshot = b.snapshot := by
  simp only [snapshot, remember, List.map_map]
  rfl

/-- A review changes nothing that a player can see. -/
@[simp]
theorem snapshot_review (b : Board) (c : CheckerSettings) : (b.review c).2.snapshot = b.snapshot := by
  rw [review]
  cases b.defective? <;> exact snapshot_remember b _

/-! ### What a snapshot tells -/

theorem pieces_of_snapshot_eq (h : b.snapshot = b'.snapshot) :
    b.pieces.map Piece.forget = b'.pieces.map Piece.forget :=
  congrArg Snapshot.pieces h

theorem piece?_of_snapshot_eq (h : b.snapshot = b'.snapshot) :
    (b.piece? i).map Piece.forget = (b'.piece? i).map Piece.forget := by
  have hpieces : b.forgetAll.piece? i = b'.forgetAll.piece? i := by
    rw [piece?, piece?, forgetAll, forgetAll]
    exact congrArg (List.find? fun p => p.id == i) (pieces_of_snapshot_eq h)
  rwa [forgetAll_eq_mapPieces, forgetAll_eq_mapPieces, piece?_mapPieces id_forget,
    piece?_mapPieces id_forget] at hpieces

theorem exists_forget_eq (h : b.snapshot = b'.snapshot) (hp : b'.piece? i = some p') :
    ∃ p, b.piece? i = some p ∧ p.forget = p'.forget := by
  have hforget := piece?_of_snapshot_eq (i := i) h
  rw [hp, Option.map_some] at hforget
  exact Option.map_eq_some_iff.mp hforget

theorem sameRule_of_forget_eq {p : Piece} (h : p.forget = p'.forget) : SameRule p p' where
  id := (congrArg Piece.id h :)
  kind := (congrArg Piece.kind h :)
  params := (congrArg Piece.params h :)
  slots := (congrArg Piece.slots h :)

theorem keeps_of_snapshot_eq (h : b.snapshot = b'.snapshot) : b.Keeps b' fun _ => True where
  same i p' _ hp' := by
    obtain ⟨p, hp, hforget⟩ := exists_forget_eq h hp'
    exact ⟨p, hp, sameRule_of_forget_eq hforget⟩
  closed _ _ _ _ := trivial

theorem ids_of_snapshot_eq (h : b.snapshot = b'.snapshot) : b.ids = b'.ids := by
  have := congrArg (List.map Piece.id) (pieces_of_snapshot_eq h)
  rwa [List.map_map, List.map_map] at this

theorem producers_of_snapshot_eq (h : b.snapshot = b'.snapshot) : b.producers = b'.producers := by
  funext i
  have hforget := piece?_of_snapshot_eq (i := i) h
  rw [producers, producers]
  cases hp : b.piece? i <;> cases hp' : b'.piece? i <;> rw [hp, hp'] at hforget
  · exact absurd hforget (by simp)
  · exact absurd hforget (by simp)
  · exact (sameRule_of_forget_eq (Option.some.inj hforget)).premises

theorem dependencies_of_snapshot_eq (h : b.snapshot = b'.snapshot) :
    b.dependencies i = b'.dependencies i := by
  rw [dependencies, dependencies, producers_of_snapshot_eq h, ids_of_snapshot_eq h]

theorem order_of_snapshot_eq (hb : b.ids.Nodup) (hb' : b'.ids.Nodup) (h : b.snapshot = b'.snapshot) :
    b.order = b'.order := by
  rw [← order_mapPieces (f := Piece.forget) hb id_forget fun _ => rfl,
    ← order_mapPieces (f := Piece.forget) hb' id_forget fun _ => rfl]
  exact congrArg orderFrom (pieces_of_snapshot_eq h)

theorem assumed?_of_snapshot_eq (h : b.snapshot = b'.snapshot) : b.assumed? i = b'.assumed? i := by
  have hassumed : ∀ b : Board,
      b.assumed? i = ((b.piece? i).map Piece.forget).bind (·.params.formula) := by
    intro b
    rw [assumed?]
    cases b.piece? i <;> rfl
  rw [hassumed, hassumed, piece?_of_snapshot_eq h]

theorem assumptionFormulas_of_snapshot_eq (h : b.snapshot = b'.snapshot) :
    b.assumptionFormulas = b'.assumptionFormulas := by
  have hassumed : ∀ b : Board, b.assumptionFormulas =
      ((b.pieces.map Piece.forget).filter fun p => p.kind = .assumption).filterMap
        fun p => p.params.formula.map fun f => (p.id, f) := by
    intro b
    rw [assumptionFormulas, piecesOfKind, List.filter_map, List.filterMap_map]
    rfl
  rw [hassumed, hassumed, pieces_of_snapshot_eq h]

theorem undeclared_of_snapshot_eq (h : b.snapshot = b'.snapshot) (open_ : List PieceId) :
    b.undeclared open_ = b'.undeclared open_ := by
  have hpremises : b.premises = b'.premises := congrArg Snapshot.premises h
  simp only [undeclared, assumed?_of_snapshot_eq h, declared, hpremises]
  rfl

theorem isExplained_of_snapshot_eq (h : b.snapshot = b'.snapshot) (goal : PieceId)
    (found : List Violation) : b.isExplained goal found = b'.isExplained goal found := by
  simp only [isExplained, dependencies_of_snapshot_eq h]

/-! ### What a review finds -/

theorem goalViolations_of_snapshot_eq (h : b.snapshot = b'.snapshot) (found : List Violation) :
    b.goalViolations c s found = b'.goalViolations c s found := by
  have hgoal : b.goal = b'.goal := congrArg Snapshot.goal h
  have htarget : b.target = b'.target := congrArg Snapshot.target h
  have hpremises : b.premises = b'.premises := congrArg Snapshot.premises h
  simp only [goalViolations, goalOpen, goalMismatch, judgesPremises, hgoal, htarget, hpremises,
    undeclared_of_snapshot_eq h, isExplained_of_snapshot_eq h]
  rfl

/-- The report on a table of statuses, up to the revision number. -/
theorem reportOf_of_snapshot_eq (h : b.snapshot = b'.snapshot) :
    b'.reportOf c s = { b.reportOf c s with revision := b'.revision } := by
  have hgoal : b.goal = b'.goal := congrArg Snapshot.goal h
  have htarget : b.target = b'.target := congrArg Snapshot.target h
  simp only [reportOf, goalViolations_of_snapshot_eq h, hgoal, htarget,
    assumptionFormulas_of_snapshot_eq h]

/-- With current caches, the table does not depend on what is cached. -/
theorem statuses_of_snapshot_eq (hb : b.WellFormed) (hc : b.Current) (hb' : b'.WellFormed)
    (hc' : b'.Current) (h : b.snapshot = b'.snapshot) : b'.statuses = b.statuses := by
  refine (keeps_of_snapshot_eq h).eq_statuses hb' ?_ (fun i p hp => hc.status?_statuses hb hp)
    fun i p' hp' => .inl (hc'.status?_statuses hb' hp')
  rw [map_fst_statuses hb, order_of_snapshot_eq hb.nodup hb'.nodup h]

theorem defective?_of_snapshot_eq (hb : b.WellFormed) (hc : b.Current) (hb' : b'.WellFormed)
    (hc' : b'.Current) (h : b.snapshot = b'.snapshot) : b'.defective? = b.defective? := by
  rw [hc.defective?_eq, hc'.defective?_eq, order_of_snapshot_eq hb.nodup hb'.nodup h,
    statuses_of_snapshot_eq hb hc hb' hc' h]
  congr 1
  funext i
  have hforget := piece?_of_snapshot_eq (i := i) h
  cases hp : b.piece? i <;> cases hp' : b'.piece? i <;> rw [hp, hp'] at hforget
  · rfl
  · exact absurd hforget (by simp)
  · exact absurd hforget (by simp)
  · rw [Option.any_some, Option.any_some]
    exact (isDefective_congr (sameRule_of_forget_eq (Option.some.inj hforget)) fun _ _ => rfl).symm

theorem lacksFormula_of_snapshot_eq (hb : b.WellFormed) (hc : b.Current) (hb' : b'.WellFormed)
    (hc' : b'.Current) (h : b.snapshot = b'.snapshot) : b'.lacksFormula c = b.lacksFormula c := by
  have hgoal : b.goal = b'.goal := congrArg Snapshot.goal h
  have htarget : b.target = b'.target := congrArg Snapshot.target h
  have hpremises : b.premises = b'.premises := congrArg Snapshot.premises h
  simp only [lacksFormula, judgesPremises, statuses_of_snapshot_eq hb hc hb' hc' h, hgoal, htarget,
    hpremises, undeclared_of_snapshot_eq h, isExplained_of_snapshot_eq h]

/-- Reviews of boards that look the same fail alike or report the same. -/
theorem review_of_snapshot_eq (hb : b.WellFormed) (hc : b.Current) (hb' : b'.WellFormed)
    (hc' : b'.Current) (h : b.snapshot = b'.snapshot) :
    (b'.review c).1 = (b.review c).1.map fun r => { r with revision := b'.revision } := by
  simp only [review, defective?_of_snapshot_eq hb hc hb' hc' h]
  cases b.defective? with
  | some i => rfl
  | none =>
    rw [lacksFormula_of_snapshot_eq hb hc hb' hc' h]
    cases b.lacksFormula c with
    | true => rfl
    | false =>
      simp only [Bool.false_eq_true, if_false, Except.map, check,
        statuses_of_snapshot_eq hb hc hb' hc' h, reportOf_of_snapshot_eq h]

theorem revision_of_review {r : Report} (h : (b.review c).1 = .ok r) : r.revision = b.revision := by
  rw [review] at h
  split at h
  · exact absurd h (by simp)
  · split at h
    · exact absurd h (by simp)
    · rw [← Except.ok.inj h]
      rfl

theorem current_forgetAll (b : Board) : b.forgetAll.Current := by
  intro i p st hp hst
  rw [forgetAll_eq_mapPieces, piece?_mapPieces id_forget] at hp
  obtain ⟨q, -, rfl⟩ := Option.map_eq_some_iff.mp hp
  exact absurd hst (by simp [Piece.forget])

theorem WellFormed.forgetAll (h : b.WellFormed) : b.forgetAll.WellFormed :=
  h.mapPieces (fun _ => rfl) (fun _ => rfl) fun _ => rfl

end Board

/-! ### Queries -/

/-- The title of an entailment shows in the first line of its query and nowhere else. -/
theorem Query.Entailment.query_of_title (o : Query.Options) (e : Query.Entailment) :
    (∃ f, ∀ title, { e with title := title }.query o = .error f) ∨
      ∃ rest, ∀ title, ∃ q, { e with title := title }.query o = .ok q ∧
        q.text = "; proofwork " ++ title ++ "\n" ++ rest := by
  cases hsig : e.signature with
  | error f =>
    refine .inl ⟨f, fun title => ?_⟩
    have hsig' : { e with title := title }.signature = .error f := hsig
    rw [query, hsig']
  | ok sig =>
    refine .inr ⟨String.join ((e.script o sig).lines.tail.map (· ++ "\n")), fun title => ?_⟩
    have hsig' : { e with title := title }.signature = .ok sig := hsig
    rw [query, hsig']
    refine ⟨_, rfl, ?_⟩
    rw [Query.text, Query.Script.text]
    exact String.join_cons

/-- The query of a goal under the default title shows the revision number in its first line. -/
theorem Report.queryUnder_of_revision (r : Report) (s : EncoderSettings) :
    (∃ f, ∀ n, { r with revision := n }.queryUnder s none = .error f) ∨
      ∃ rest, ∀ n, ∃ q, { r with revision := n }.queryUnder s none = .ok q ∧
        q.text = "; proofwork proof rev " ++ toString n ++ "\n" ++ rest := by
  have hgoal : ∀ n, { r with revision := n }.goalConclusion = r.goalConclusion := fun _ => rfl
  simp only [queryUnder, hgoal]
  cases hc : r.goalConclusion with
  | none => exact .inl ⟨_, fun _ => rfl⟩
  | some c =>
    cases ho : s.options with
    | error f => exact .inl ⟨f, fun _ => rfl⟩
    | ok o =>
      simp only [query, hgoal, hc]
      rcases Query.Entailment.query_of_title o (r.entailment c none) with ⟨f, hf⟩ | ⟨rest, hrest⟩
      · exact .inl ⟨f, fun n => hf _⟩
      · refine .inr ⟨rest, fun n => ?_⟩
        obtain ⟨q, hq, htext⟩ := hrest ("proof rev " ++ toString n)
        exact ⟨q, hq, by rw [htext, ← String.append_assoc]; rfl⟩

namespace Board

/-- A review finds on a reachable board what it finds without cached statuses, and on two reachable
boards that look the same it finds the same. -/
theorem review_independent_of_history (hb : b.Reachable) (c : CheckerSettings) :
    (b.review c).1 = (b.forgetAll.review c).1 ∧
      ∀ b' : Board, b'.Reachable → b.snapshot = b'.snapshot →
        (b'.review c).1 = (b.review c).1.map (fun r => { r with revision := b'.revision }) ∧
          ∀ r r', (b.review c).1 = .ok r → (b'.review c).1 = .ok r' →
            r.statuses = r'.statuses ∧ r.violations = r'.violations ∧
              r.goalStatus = r'.goalStatus ∧ r.hypotheses = r'.hypotheses ∧
              ∀ s : EncoderSettings,
                (∃ f, r.queryUnder s none = .error f ∧ r'.queryUnder s none = .error f) ∨
                  ∃ q q' rest, r.queryUnder s none = .ok q ∧ r'.queryUnder s none = .ok q' ∧
                    q.text = "; proofwork proof rev " ++ toString r.revision ++ "\n" ++ rest ∧
                    q'.text = "; proofwork proof rev " ++ toString r'.revision ++ "\n" ++ rest := by
  obtain ⟨hwf, hcurrent⟩ := hb.invariant
  constructor
  · have hforgotten := review_of_snapshot_eq (c := c) hwf hcurrent hwf.forgetAll
      (current_forgetAll b) (snapshot_forgetAll b).symm
    rw [hforgotten]
    cases hr : (b.review c).1 with
    | error d => rfl
    | ok r =>
      have hrevision := revision_of_review hr
      rw [Except.map, ← show b.revision = b.forgetAll.revision from rfl, ← hrevision]
  · intro b' hb' hsnapshot
    obtain ⟨hwf', hcurrent'⟩ := hb'.invariant
    have hsame := review_of_snapshot_eq (c := c) hwf hcurrent hwf' hcurrent' hsnapshot
    refine ⟨hsame, fun r r' hr hr' => ?_⟩
    rw [hr, hr', Except.map, Except.ok.injEq] at hsame
    obtain rfl := hsame
    refine ⟨rfl, rfl, rfl, rfl, fun s => ?_⟩
    rcases r.queryUnder_of_revision s with ⟨f, hf⟩ | ⟨rest, hrest⟩
    · exact .inl ⟨f, hf r.revision, hf b'.revision⟩
    · obtain ⟨q, hq, htext⟩ := hrest r.revision
      obtain ⟨q', hq', htext'⟩ := hrest b'.revision
      exact .inr ⟨q, q', rest, hq, hq', htext, htext'⟩

end Board

namespace Action

/-- An assumption wired into the goal, and a review of that. -/
def wiredOnce : List Action :=
  [.edit (.add (.text "assumption") (some (.cell (0, 0)))
      [("formula", .formula (some (.atom "P" [])))]),
    .edit (.add (.text "goal") (some (.cell (0, 1))) []), .edit (.wire 2 0 1), .check .standard]

/-- The same with a detour, on which the goal is reviewed without its premise. -/
def wiredTwice : List Action :=
  wiredOnce ++ [.edit (.unwire 2 0), .check .standard, .edit (.wire 2 0 1)]

end Action

namespace Board

theorem review_independent_of_detour :
    let start := empty (some (.atom "P" [])) none none Palette.full
    ∃ r r', ((Action.runAll start Action.wiredOnce).review .standard).1 = .ok r ∧
      ((Action.runAll start Action.wiredTwice).review .standard).1 = .ok r' ∧
      r.revision ≠ r'.revision ∧ r.isReady = true ∧ r.statuses = r'.statuses ∧
      ∃ q q' rest, r.queryUnder .standard none = .ok q ∧ r'.queryUnder .standard none = .ok q' ∧
        q.text = "; proofwork proof rev " ++ toString r.revision ++ "\n" ++ rest ∧
        q'.text = "; proofwork proof rev " ++ toString r'.revision ++ "\n" ++ rest := by
  intro start
  have hreachable : ∀ as, (Action.runAll start as).Reachable := fun as => ⟨_, _, _, _, as, rfl⟩
  have hsnapshot : (Action.runAll start Action.wiredOnce).snapshot =
      (Action.runAll start Action.wiredTwice).snapshot := by
    decide_cbv
  obtain ⟨-, hsame⟩ := review_independent_of_history (hreachable Action.wiredOnce) .standard
  obtain ⟨-, hreports⟩ := hsame _ (hreachable Action.wiredTwice) hsnapshot
  have hr := review_eq_check (b := Action.runAll start Action.wiredOnce)
    (c := CheckerSettings.standard) (by decide_cbv) (by decide_cbv)
  have hr' := review_eq_check (b := Action.runAll start Action.wiredTwice)
    (c := CheckerSettings.standard) (by decide_cbv) (by decide_cbv)
  obtain ⟨hstatuses, -, -, -, hqueries⟩ :=
    hreports _ _ (congrArg Prod.fst hr) (congrArg Prod.fst hr')
  refine ⟨_, _, congrArg Prod.fst hr, congrArg Prod.fst hr', by decide_cbv, by decide_cbv,
    hstatuses, ?_⟩
  refine (hqueries .standard).resolve_left ?_
  rintro ⟨f, hf, -⟩
  have hok : (((Action.runAll start Action.wiredOnce).check .standard).1.queryUnder .standard
      none).isOk = true := by
    decide_cbv
  rw [hf] at hok
  exact absurd hok Bool.false_ne_true

end Board

end DeductionBoard
