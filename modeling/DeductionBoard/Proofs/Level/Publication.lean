import DeductionBoard.Level.Publication
import DeductionBoard.Proofs.Level.Solution

/-! What is published. A derivation starts from its leaves, and each leaf is an assumption: one of
the palette, or one that stands on the board from the start. Without premises a rule has to
discharge them. Main result: a level with a solution is publishable, as far as its id, its name and
its premises are in order, unless it has no premises and its only assumptions are those that stand
on the board. -/

namespace DeductionBoard

open Search (Found Resources Outcome)

variable {r : Resources} {goal f : Formula} {ctx : List Formula} {c : Construction}

/-! ### How derivations start -/

namespace Search

/-- Every leaf of what can be found is an assumption of the palette or a piece at hand. -/
theorem Found.starts (h : Found r goal ctx c) :
    r.palette.contains .assumption = true ∨ ∃ f p, List.lookup f r.existing = some p := by
  induction h with
  | reuse hp => exact .inr ⟨_, _, hp⟩
  | assume _ hr => exact .inl hr
  | both _ _ _ _ ih | refute _ _ _ _ _ ih | leftOf _ _ _ _ ih | rightOf _ _ _ _ ih
  | implies _ _ _ ih | universal _ _ _ _ _ ih | existential _ _ _ _ _ _ ih => exact ih

/-- What can be found leaves a formula open, or a rule of the palette discharges. -/
theorem Found.open_or_discharges (h : Found r goal ctx c)
    (hexisting : ∀ f p, List.lookup f r.existing = some p → p.assumptions ≠ []) :
    (∃ f, f ∈ c.assumptions) ∨ r.palette.kinds.any RuleKind.discharges = true := by
  have hoffers : ∀ {k : RuleKind}, r.palette.contains k = true → k.discharges = true →
      r.palette.kinds.any RuleKind.discharges = true := fun hk hdischarges =>
    List.any_eq_true.mpr ⟨_, of_decide_eq_true hk, hdischarges⟩
  induction h with
  | reuse hp => exact .inl (List.exists_mem_of_ne_nil _ (hexisting _ _ hp))
  | assume => exact .inl ⟨_, List.mem_singleton.mpr rfl⟩
  | both _ _ _ _ ih => exact ih.imp_left fun ⟨f, hf⟩ => ⟨f, Ascending.mem_union.mpr (.inl hf)⟩
  | implies _ hr => exact .inr (hoffers hr rfl)
  | refute _ hr => exact .inr (hoffers hr rfl)
  | leftOf _ _ _ _ ih | rightOf _ _ _ _ ih | universal _ _ _ _ _ ih | existential _ _ _ _ _ _ ih =>
    exact ih

end Search

namespace Level

/-! ### Single checks -/

theorem eraseDups_of_nodup {α : Type} [DecidableEq α] {xs : List α} (h : xs.Nodup) :
    xs.eraseDups = xs := by
  induction xs with
  | nil => rfl
  | cons x xs ih =>
    obtain ⟨hx, hxs⟩ := List.nodup_cons.mp h
    have hfilter : (xs.filter fun y => !y == x) = xs :=
      List.filter_eq_self.mpr fun y hy => by simpa using fun hyx : y = x => hx (hyx ▸ hy)
    rw [List.eraseDups_cons, hfilter, ih hxs]

theorem placementErrors_eq_nil {g : Grid} {n : Nat} {seen : List Cell} {qs : List Placement}
    (hin : ∀ q ∈ qs, g.inBounds q.cell = true) (hapart : (qs.map Placement.cell).Nodup)
    (hseen : ∀ q ∈ qs, q.cell ∉ seen) : placementErrors g n seen qs = [] := by
  induction qs generalizing n seen with
  | nil => rfl
  | cons q qs ih =>
    obtain ⟨hq, hin⟩ := List.forall_mem_cons.mp hin
    obtain ⟨hfresh, hseen⟩ := List.forall_mem_cons.mp hseen
    obtain ⟨hfirst, hapart⟩ := List.nodup_cons.mp hapart
    have hrest : placementErrors g (n + 1) (q.cell :: seen) qs = [] :=
      ih hin hapart fun q' hq' hmem => (List.mem_cons.mp hmem).elim
        (fun hcell => hfirst (hcell ▸ List.mem_map_of_mem hq')) (hseen q' hq')
    rw [placementErrors, if_pos hq, if_neg hfresh, hrest]
    rfl

theorem budgetErrors_eq_nil {F : Type} {l : Level F}
    (h : ∀ k, l.count = some k → (l.pieces.length : Int) ≤ k) :
    l.budgetErrors = [] := by
  have hfull : l.overfullErrors l.pieces.length = [] := overfullErrors_eq_nil_iff.mpr h
  rw [overfullErrors] at hfull
  rw [budgetErrors]
  cases hlimit : l.grid.limit with
  | none => rfl
  | some limit =>
    rw [hlimit] at hfull
    dsimp only at hfull ⊢
    split at hfull
    · exact absurd hfull (by simp)
    · next hwithin => exact if_neg hwithin

/-! ### Levels with a solution -/

variable {l : Draft} {s : SearchSettings} {b : Board}

/-- The pieces that stand on the board of a level with a solution are in place and within the
budget. -/
theorem inPlace_of_solution (h : l.solution s = .ok (some b)) :
    l.InPlace ∧ ∀ k, l.count = some k → (l.pieces.length : Int) ≤ k := by
  obtain ⟨⟨n, henlarges⟩, hvalid⟩ := exists_enlarges_of_solution h
  obtain ⟨hadmits, hbudget⟩ := isValid_layout_iff.mp hvalid
  have hlength := henlarges.length_eq
  obtain ⟨news, goals, hfurnished, -⟩ := henlarges
  rw [hfurnished.footprints] at hadmits
  refine ⟨inPlace_iff_admits.mpr ⟨fun f hf => hadmits.allowed f (List.mem_append_left _ hf),
    (List.pairwise_append.mp hadmits.apart).1⟩, fun k hk => ?_⟩
  have hplaced : l.board.pieces.length = l.pieces.length := by
    simpa [Board.footprints] using congrArg List.length (footprints_board l)
  have := hbudget k hk
  omega

/-- A level with a solution has an assumption in its palette or on its board, and without premises a
rule of the palette discharges. -/
theorem starts_of_solution (h : l.solution s = .ok (some b)) :
    (l.palette.contains .assumption = true ∨ l.pieces.any (fun q => q.kind = .assumption) = true) ∧
      (l.premises = [] → l.palette.kinds.any RuleKind.discharges = true) := by
  obtain ⟨built, hbuilds, -⟩ := solution_eq_some_iff_builds.mp h
  cases hbuilds with
  | blank _ _ hfound =>
    obtain ⟨⟨hgap, hassumption⟩, -⟩ := of_provesBlank hfound
    refine ⟨.inl hassumption, fun hpremises => ?_⟩
    simp [resources, hpremises] at hgap
  | @construction target o c _ ht ho hc =>
    have hfound := Search.found_of_prove ho hc
    constructor
    · refine hfound.starts.imp_right ?_
      rintro ⟨f, p, hp⟩
      obtain ⟨p, hp, hk, -⟩ := exists_piece_of_lookup hp
      obtain ⟨q, hq, hkind, -⟩ := exists_cell_of_mem_board hp
      exact List.any_eq_true.mpr ⟨q, hq, decide_eq_true (hkind.symm.trans hk)⟩
    · intro hpremises
      refine (hfound.open_or_discharges fun f p hp => ?_).resolve_left ?_
      · obtain ⟨_, -, -, -, rfl⟩ := exists_piece_of_lookup hp
        exact List.cons_ne_nil _ _
      · rintro ⟨f, hf⟩
        have hmem := Ascending.mem_ofList.mp (hfound.mem_of_assumptions f hf)
        simp [declared, hpremises] at hmem

/-- The error of a level that has no premises and no assumptions in its palette. -/
def cannotStart : String :=
  "Puzzle has no premises and offers no discharging rule: no derivation can start"

/-- A level with a solution has no other error than one of its id, its name or its premises, unless
it has no premises and its palette no assumption. Then it is said to offer no discharging rule,
although it does. -/
theorem publicationErrors_of_solution (hid : isPuzzleId l.id = true)
    (hname : lacksName l.name = .ok false) (hpremises : l.premises.Nodup)
    (h : l.solution s = .ok (some b)) :
    (l.publicationErrors = .ok
      (if l.premises = [] ∧ l.palette.contains .assumption = false then [cannotStart] else [])) ∧
      (l.premises = [] → l.palette.kinds.any RuleKind.discharges = true) := by
  obtain ⟨hplace, hbudget⟩ := inPlace_of_solution h
  obtain ⟨hassumption, hdischarges⟩ := starts_of_solution h
  have hstart : l.startErrors =
      if l.premises = [] ∧ l.palette.contains .assumption = false then [cannotStart] else [] := by
    rw [startErrors]
    cases hpremises' : l.premises with
    | nil => cases l.palette.contains .assumption <;> simp [hdischarges hpremises', cannotStart]
    | cons f fs => simpa [or_iff_not_imp_left] using hassumption
  have hplacements : placementErrors l.grid 0 [] l.pieces = [] :=
    placementErrors_eq_nil hplace.inBounds hplace.apart fun _ _ => List.not_mem_nil
  have hdistinct : l.premiseErrors = [] := by
    rw [premiseErrors, eraseDups_of_nodup hpremises, if_pos rfl]
  refine ⟨?_, hdischarges⟩
  rw [publicationErrors, hname, idErrors, if_pos hid, hstart, hdistinct, hplacements,
    budgetErrors_eq_nil hbudget]
  simp only [List.append_nil, List.nil_append]
  rfl

/-- A premise that stands on the board; the palette has no assumptions. -/
def placedPremise : Puzzle :=
  ⟨"t", .text "T", .text "", .disj (.atom "P" []) (.atom "Q" []), [.atom "P" []],
    Palette.ofList [.orIntro], Grid.standard,
    [⟨.assumption, (0, 0), { Params.empty with formula := some (.atom "P" []) }⟩]⟩

def placedPremiseExample : Board :=
  ⟨some placedPremise.target, some [some (.atom "P" [])], some "t", placedPremise.palette, some 3,
    [⟨1, .assumption, .cell (0, 0), { Params.empty with formula := some (.atom "P" []) }, [], none⟩,
      ⟨2, .orIntro, .cell (1, 0), { Params.empty with other := some (.atom "Q" []) }, [some 1],
        none⟩,
      ⟨3, .goal, .cell (2, 0), Params.empty, [some 2], none⟩], 4, 5⟩

theorem publicationErrors_of_solution_placed :
    (ofPuzzle placedPremise).solution .standard = .ok (some placedPremiseExample) ∧
      (ofPuzzle placedPremise).publicationErrors = .ok [] := by
  have hsolution : (ofPuzzle placedPremise).solution .standard =
      .ok (some placedPremiseExample) := by
    cbv
  exact ⟨hsolution,
    (publicationErrors_of_solution (by decide_cbv) (by decide_cbv) (by decide) hsolution).1⟩

/-- The only assumption stands on the board, and the only rule discharges it. -/
def placedHypothesis : Puzzle :=
  ⟨"t", .text "T", .text "", .imp (.atom "P" []) (.atom "P" []), [],
    Palette.ofList [.impliesIntro], Grid.standard,
    [⟨.assumption, (0, 0), { Params.empty with formula := some (.atom "P" []) }⟩]⟩

def placedHypothesisExample : Board :=
  ⟨some placedHypothesis.target, some [], some "t", placedHypothesis.palette, some 3,
    [⟨1, .assumption, .cell (0, 0), { Params.empty with formula := some (.atom "P" []) }, [], none⟩,
      ⟨2, .impliesIntro, .cell (1, 0), { Params.empty with hypothesis := some (.atom "P" []) },
        [some 1], none⟩,
      ⟨3, .goal, .cell (2, 0), Params.empty, [some 2], none⟩], 4, 5⟩

/-- Not every level with a solution that a review finds ready can be published. -/
theorem exists_unpublishable : ¬ ∀ (p : Puzzle) (s : SearchSettings) (c : CheckerSettings)
    (b : Board) (r : Report), isPuzzleId p.id = true → lacksName p.name = .ok false →
    p.premises.Nodup → p.InPlace → (∀ k, p.count = some k → (p.pieces.length : Int) ≤ k) →
    (ofPuzzle p).solution s = .ok (some b) → (b.review c).1 = .ok r → r.isReady = true →
    p.publicationErrors = .ok [] := by
  intro h
  have hsolution : (ofPuzzle placedHypothesis).solution .standard =
      .ok (some placedHypothesisExample) := by
    cbv
  have hreview : (placedHypothesisExample.review .standard).1 =
      .ok (placedHypothesisExample.check .standard).1 :=
    congrArg Prod.fst (Board.review_eq_check (by decide_cbv) (by decide_cbv))
  have hready : (placedHypothesisExample.check .standard).1.isReady = true := by decide_cbv
  have hplace : placedHypothesis.InPlace := ⟨by decide, by decide⟩
  have herrors : placedHypothesis.publicationErrors = .ok [cannotStart] := by decide_cbv
  have hnone := h placedHypothesis .standard .standard _ _ (by decide_cbv) (by decide_cbv)
    (by decide) hplace (by rintro _ ⟨⟩) hsolution hreview hready
  exact absurd (herrors.symm.trans hnone) (by decide)

end Level

end DeductionBoard
