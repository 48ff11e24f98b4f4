import DeductionBoard.Proofs.Formula.Semantics
import DeductionBoard.Proofs.Verify.Hint

/-! Two hints in a row. A hint starts from the pieces that derive something, each formula under the
piece with the least number. Main result: once a suggested piece is placed and wired, the next hint
towards the same goal suggests another step, unless a piece had derived the formula of the suggestion
before; then the new piece is not looked at, and the next suggestion is the same one. -/

namespace DeductionBoard

open DeductionBoard.Derivation Solver

/-- Two suggestions to place the same piece and to wire it in the same way. -/
def Suggestion.SameStep (t t' : Suggestion) : Prop :=
  t.kind = t'.kind ∧ t.premises = t'.premises ∧ t.params = t'.params

/-- What the search suggests depends on what it may use and on the formulas that may stay open. -/
theorem HintJob.suggest_congr {j j' : HintJob} (hpalette : j'.palette = j.palette)
    (hexisting : j'.existing = j.existing) (hgap : j'.gap = j.gap) (hcontext : j'.context = j.context)
    (s : SearchSettings) (goal : Formula) : j'.suggest s goal = j.suggest s goal := by
  have hhint : j'.hintOf goal = j.hintOf goal := by
    funext o
    rw [hintOf, hintOf, hpalette]
  rw [suggest, suggest, hpalette, hexisting, hgap, hcontext, hhint]

namespace Board

variable {b b' : Board} {i : PieceId} {p : Piece} {c d : Construction} {f g : Formula}
  {fs gs : List Formula} {is : List PieceId} {r r' : Report} {s : Settings} {goal : Option Formula}
  {known known' : PieceId → Formula → List Formula → Prop}

/-! ### First entries -/

section Entries

variable {es : List (Formula × Search.Placed)} {e : Formula × Search.Placed}

theorem firstEntries_concat (es : List (Formula × Search.Placed)) (e : Formula × Search.Placed) :
    firstEntries (es ++ [e]) =
      if (firstEntries es).any fun a => a.1 = e.1 then firstEntries es else firstEntries es ++ [e] := by
  rw [firstEntries, List.foldl_append]
  rfl

/-- The formulas of the first entries are those of all entries. -/
theorem exists_mem_firstEntries (h : ∃ e ∈ es, e.1 = f) : ∃ e ∈ firstEntries es, e.1 = f := by
  induction es using List.reverseRecOn with
  | nil => exact absurd h (by simp)
  | append_singleton es e' ih =>
    rw [firstEntries_concat]
    obtain ⟨e, he, hf⟩ := h
    split
    · next hany =>
      rcases List.mem_append.mp he with he | he
      · exact ih ⟨e, he, hf⟩
      · obtain ⟨a, ha, hae⟩ := List.any_eq_true.mp hany
        refine ⟨a, ha, ?_⟩
        rw [of_decide_eq_true hae, ← List.mem_singleton.mp he, hf]
    · rcases List.mem_append.mp he with he | he
      · obtain ⟨a, ha, haf⟩ := ih ⟨e, he, hf⟩
        exact ⟨a, List.mem_append_left _ ha, haf⟩
      · exact ⟨e, List.mem_append_right _ he, hf⟩

/-- An entry for a formula that has one is not looked at. -/
theorem firstEntries_concat_of_mem (h : ∃ a ∈ es, a.1 = e.1) :
    firstEntries (es ++ [e]) = firstEntries es := by
  obtain ⟨a, ha, hae⟩ := exists_mem_firstEntries h
  rw [firstEntries_concat, if_pos (List.any_eq_true.mpr ⟨a, ha, decide_eq_true hae⟩)]

/-- An entry for a new formula is found. -/
theorem lookup_firstEntries_concat (h : ∀ a ∈ es, a.1 ≠ e.1) :
    List.lookup e.1 (firstEntries (es ++ [e])) = some e.2 := by
  have hfirst : ∀ a ∈ firstEntries es, a.1 ≠ e.1 := fun a ha => h a (firstEntries_subset es ha)
  have hany : ¬ ((firstEntries es).any fun a => a.1 = e.1) = true := by
    intro hany
    obtain ⟨a, ha, hae⟩ := List.any_eq_true.mp hany
    exact hfirst a ha (of_decide_eq_true hae)
  have hnone : List.lookup e.1 (firstEntries es) = none :=
    List.lookup_eq_none_iff.mpr fun a ha => bne_iff_ne.mpr fun heq => hfirst a ha heq.symm
  rw [firstEntries_concat, if_neg hany, List.lookup_append, hnone, Option.none_or,
    List.lookup_cons_self]

end Entries

/-! ### Pieces that derive something -/

/-- The entry of a piece among those that a hint starts from. -/
def derivedAs? (b : Board) (s : Statuses) (p : Piece) : Option (Formula × Search.Placed) :=
  match s.conclusion? p.id with
  | some c =>
    if p.kind = .goal then none
    else some (c.formula, ⟨p.id, p.kind, Ascending.ofList (c.assumptions.filterMap b.assumed?)⟩)
  | none => none

theorem derivedPieces_eq (b : Board) (r : Report) :
    b.derivedPieces r = b.pieces.filterMap (b.derivedAs? r.statuses) := rfl

/-- What pieces derive does not depend on what is cached. -/
theorem derivedPieces_of_snapshot_eq (h : b.snapshot = b'.snapshot) (hs : r.statuses = r'.statuses) :
    b.derivedPieces r = b'.derivedPieces r' := by
  have hforget : ∀ (b : Board) (s : Statuses),
      b.pieces.filterMap (b.derivedAs? s) =
        (b.pieces.map Piece.forget).filterMap (b.derivedAs? s) := by
    intro b s
    rw [List.filterMap_map]
    rfl
  have hassumed : b.assumed? = b'.assumed? := funext fun i => assumed?_of_snapshot_eq h
  have hentry : b.derivedAs? r.statuses = b'.derivedAs? r'.statuses := by
    funext p
    rw [derivedAs?, derivedAs?, hassumed, hs]
  rw [derivedPieces_eq, derivedPieces_eq, hforget, hforget b', pieces_of_snapshot_eq h, hentry]

theorem derivedAs?_of_grows (hb : b.Healthy) (hgrows : b.Grows b') (hi : p.id ∈ b.ids) :
    b'.derivedAs? b'.statuses p = b.derivedAs? b.statuses p := by
  rw [derivedAs?, derivedAs?, Statuses.conclusion?_congr (hgrows.status p.id hi)]
  cases hd : b.statuses.conclusion? p.id with
  | none => rfl
  | some d =>
    have hassumed : d.assumptions.filterMap b'.assumed? = d.assumptions.filterMap b.assumed? :=
      List.filterMap_congr fun a ha => hgrows.assumed? (hb.mem_ids_of_open hd ha)
    dsimp only
    rw [hassumed]

/-- A new piece that derives something comes last among the pieces that derive something. -/
theorem derivedPieces_extended {n : Nat} (hb : b.Healthy) (hgrows : b.Grows b')
    (hb' : b' = b.extended p b.goal n) (hk : p.kind ≠ .goal) (hstands : b'.Stands p.id f fs)
    (hr : r.statuses = b.statuses) :
    ∃ open_, (∀ g, g ∈ open_ ↔ g ∈ fs) ∧ ∀ r' : Report, r'.statuses = b'.statuses →
      b'.derivedPieces r' = b.derivedPieces r ++ [(f, ⟨p.id, p.kind, open_⟩)] := by
  obtain ⟨-, as, hconclusion, hopen⟩ := hstands
  have hnew : b'.derivedAs? b'.statuses p =
      some (f, ⟨p.id, p.kind, Ascending.ofList (as.filterMap b'.assumed?)⟩) := by
    rw [derivedAs?, hconclusion]
    exact if_neg hk
  have hold : b.pieces.filterMap (b'.derivedAs? b'.statuses) =
      b.pieces.filterMap (b.derivedAs? b.statuses) :=
    List.filterMap_congr fun q hq => derivedAs?_of_grows hb hgrows (List.mem_map_of_mem hq)
  refine ⟨Ascending.ofList (as.filterMap b'.assumed?), fun g => ?_, fun r' hr' => ?_⟩
  · rw [Ascending.mem_ofList, List.mem_filterMap, hopen g]
  · have hpieces : b'.pieces = b.pieces ++ [p] := by
      rw [hb']
      rfl
    rw [derivedPieces_eq, derivedPieces_eq, hr, hr', hpieces, List.filterMap_append, hold,
      List.filterMap_cons_some hnew, List.filterMap_nil]

/-! ### The same step twice -/

theorem Stands.unique (h : b.Stands i f fs) (h' : b.Stands i g gs) : f = g ∧ ∀ a, a ∈ fs ↔ a ∈ gs := by
  obtain ⟨-, as, hconclusion, hopen⟩ := h
  obtain ⟨-, as', hconclusion', hopen'⟩ := h'
  obtain ⟨rfl, rfl⟩ := Conclusion.mk.inj (Option.some.inj (hconclusion.symm.trans hconclusion'))
  exact ⟨rfl, fun a => (hopen a).trans (hopen' a).symm⟩

/-- What a new piece comes to is settled by its rule, its parameters and the pieces below it. -/
theorem same_conclusion (hb : b.Healthy) (hc : c.Sound known) (hd : d.Sound known')
    (hcnew : c.piece? = none) (hdnew : d.piece? = none) (hcs : b.Bears c.premises is)
    (hds : b.Bears d.premises is) (hkind : d.kind = c.kind) (hparams : d.params = c.params) :
    d.formula = c.formula ∧ ∀ f, f ∈ d.assumptions ↔ f ∈ c.assumptions := by
  -- both steps make the same board, at any position
  obtain ⟨b₁, -, -, hwire, -, -, hstands⟩ := hb.exists_node hc hcnew hcs (.cell (0, 0))
  obtain ⟨b₂, -, -, hwire', -, -, hstands'⟩ := hb.exists_node hd hdnew hds (.cell (0, 0))
  rw [hkind, hparams] at hwire'
  obtain rfl := Except.ok.inj (hwire.symm.trans hwire')
  exact hstands'.unique hstands

/-- A goal that a piece derives from formulas of the context is not proved anew. -/
theorem not_found_of_lookup {r : Search.Resources} {ctx : List Formula} {p : Search.Placed}
    (hd : Search.Found r g ctx d) (hp : List.lookup g r.existing = some p)
    (hopen : ∀ f ∈ p.assumptions, f ∈ d.assumptions) : d.piece? ≠ none := by
  intro hnew
  have hreuse := (hd.of_new hnew).2
  rw [Search.reuse?, hp] at hreuse
  dsimp only at hreuse
  rw [if_pos] at hreuse
  · cases hreuse
  · exact List.all_eq_true.mpr fun f hf => decide_eq_true (hd.mem_of_assumptions f (hopen f hf))

/-- Where a piece derives the formula of a step under the open formulas of the step, no search comes to
the same step. -/
theorem not_sameStep_of_suggest {p : Search.Placed} {h : Hint} {t : Suggestion} (hb : b.Healthy)
    (hr : (b.review s.checker).1 = .ok r) (hc : c.Sound known) (hnew : c.piece? = none)
    (hcs : b.Bears c.premises is)
    (hp : List.lookup c.formula (firstEntries (b.derivedPieces r)) = some p)
    (hopen : ∀ f ∈ p.assumptions, f ∈ c.assumptions) (hg : g.WellNamed)
    (hcontext : ∀ f ∈ b.hintContext, f.WellNamed)
    (hsuggest : (b.hintJobOf r goal).suggest s.search g = .ok h) (ht : h.suggestion = some t) :
    ¬ t.SameStep ⟨c.kind, is.map some, c.params, c.formula⟩ := by
  rintro ⟨hkind, hpremises, hparams⟩
  have hsuggests : h.Suggests := .inr fun hnone => nomatch hnone.symm.trans ht
  obtain ⟨e, hfound, hsound, ⟨d, hd, rfl⟩ | ⟨i, -, -, rfl⟩⟩ :=
    exists_found_of_suggest hb hr (fun _ _ _ hstands => hstands) hg hcontext hsuggest hsuggests
  · obtain rfl := Option.some.inj ht
    obtain ⟨hdsound, hdnew, hdpremises⟩ := hsound.of_nextStep hd
    obtain ⟨js, hjs, hds⟩ := exists_bears fun q hq => ⟨hdsound.premises q hq, hdpremises q hq⟩
    obtain rfl : js = is :=
      List.map_injective_iff.mpr (Option.some_injective _) (hjs.symm.trans hpremises)
    -- the step taken again would come to what a piece derives already, and that is reused
    obtain ⟨hformula, hassumptions⟩ := same_conclusion hb hc hdsound hnew hdnew hcs hds hkind hparams
    obtain ⟨goal', ctx', hdfound⟩ :=
      Construction.exists_found_of_mem_postOrder hfound (List.mem_of_find?_eq_some hd)
    rw [← hformula, hdfound.formula_eq] at hp
    exact not_found_of_lookup hdfound hp (fun f hf => (hassumptions f).mpr (hopen f hf)) hdnew
  · -- a piece for the goal is no node of a construction
    obtain rfl := Option.some.inj ht
    exact c.kind_ne_goal hnew hkind.symm

/-- The formula of an assumption on the board is no premise that could still be placed. -/
theorem not_mem_unplaced (hp : p ∈ b.pieces) (hk : p.kind = .assumption)
    (hf : p.params.formula = some f) : some f ∉ b.unplaced := by
  intro hmem
  have hplaced : f ∈ b.placedFormulas :=
    List.mem_filterMap.mpr ⟨p, List.mem_filter.mpr ⟨hp, decide_eq_true hk⟩, hf⟩
  have hnot : decide (f ∉ b.placedFormulas) = true := (List.mem_filter.mp hmem).2
  exact of_decide_eq_true hnot hplaced

/-! ### After a step -/

/-- The second board is the first one after a step of a construction, as far as hints are concerned:
there is a piece for the step, and what it derives comes last. -/
structure Follows (b : Board) (r : Report) (c : Construction) (is : List PieceId) (b' : Board) :
    Prop where
  healthy : b'.Healthy
  bears : b'.Bears c.premises is
  placed : ∃ p ∈ b'.pieces, p.kind = c.kind ∧ p.params = c.params
  derived : ∃ p : Search.Placed, (∀ f ∈ p.assumptions, f ∈ c.assumptions) ∧
    ∀ r' : Report, r'.statuses = b'.statuses →
      b'.derivedPieces r' = b.derivedPieces r ++ [(c.formula, p)]
  target : b'.target = b.target
  premises : b'.premises = b.premises
  palette : b'.palette = b.palette

/-- A step on the board as a hint leaves it. -/
theorem exists_follows (hb : b.Healthy) (hr : (b.review s.checker).1 = .ok r) (hc : c.Sound known)
    (hnew : c.piece? = none) (hcs : b.Bears c.premises is) (position : Position) :
    ∃ b', Site.wireAll ((b.review s.checker).2.add c.kind position c.params)
        (b.review s.checker).2.nextId 0 is = .ok b' ∧ b.Follows r c is b' := by
  have hs := (snapshot_review b s.checker).symm
  have hwf := hb.wellFormed.review s.checker
  have hcurrent := hb.current.review hb.wellFormed s.checker
  have hreviewed : (b.review s.checker).2.Healthy := hb.of_snapshot_eq hwf hcurrent hs
  have hcs : (b.review s.checker).2.Bears c.premises is := hcs.imp fun _ _ h => h.review hb s.checker
  obtain ⟨b', n, hb', hwire, hhealthy, hgrows, hstands⟩ := hreviewed.exists_node hc hnew hcs position
  have hstatuses : r.statuses = (b.review s.checker).2.statuses := by
    rw [statuses_of_review hr, statuses_of_snapshot_eq hb.wellFormed hb.current hwf hcurrent hs]
  have hgoal : b'.goal = (b.review s.checker).2.goal := by rw [hb']; rfl
  have hpiece : (b.review s.checker).2.pieceOn c.kind position c.params is ∈ b'.pieces := by
    rw [hb']
    exact List.mem_append_right _ (List.mem_singleton_self _)
  obtain ⟨open_, hopen, hderived⟩ :=
    derivedPieces_extended hreviewed hgrows hb' (c.kind_ne_goal hnew) hstands hstatuses
  have hlast : ∀ r' : Report, r'.statuses = b'.statuses → b'.derivedPieces r' =
      b.derivedPieces r ++ [(c.formula, ⟨(b.review s.checker).2.nextId, c.kind, open_⟩)] := by
    intro r' hr'
    rw [hderived r' hr', ← derivedPieces_of_snapshot_eq hs rfl]
    rfl
  refine ⟨b', hwire, hhealthy, hcs.imp fun _ _ h => h.grow hreviewed hgrows hgoal,
    ⟨_, hpiece, rfl, rfl⟩, ⟨⟨_, _, open_⟩, fun f => (hopen f).mp, hlast⟩,
    hgrows.target.trans (congrArg Snapshot.target hs).symm,
    hgrows.premises.trans (congrArg Snapshot.premises hs).symm, ?_⟩
  rw [hb']
  exact palette_review b s.checker

section Follows

variable {h : Hint} {t : Suggestion}

theorem hintContext_of_premises_eq (hdeclared : b.premises.isSome = true)
    (hpremises : b'.premises = b.premises) : b'.hintContext = b.hintContext := by
  rw [hintContext, hintContext, declared, declared, hpremises, if_pos hdeclared, if_pos hdeclared]

/-- The search cannot come to the step again, where nothing had derived the formula of the step. -/
theorem Follows.not_sameStep (hf : b.Follows r c is b') (hc : c.Sound known) (hnew : c.piece? = none)
    (hderived : ∀ e ∈ b.derivedPieces r, e.1 ≠ c.formula) (hdeclared : b.premises.isSome = true)
    (hnamed : b.WellNamed) (hgoal : ∀ f, goal = some f → f.WellNamed) {σ : Type}
    {solve : Query → Value → σ → Answer × σ} {st : σ}
    (hh : ((b'.hint s goal).run solve st).1 = .ok h) (ht : h.suggestion = some t) :
    ¬ t.SameStep ⟨c.kind, is.map some, c.params, c.formula⟩ := by
  have hsuggests : h.Suggests := .inr fun hnone => nomatch hnone.symm.trans ht
  obtain ⟨r', g, hr', -, hg, hsuggest | ⟨f, hunplaced, rfl⟩⟩ :=
    (b'.yields_hint s goal).of_run hh hsuggests
  · obtain ⟨p, hopen, hp⟩ := hf.derived
    have hlookup : List.lookup c.formula (firstEntries (b'.derivedPieces r')) = some p := by
      rw [hp r' (statuses_of_review hr')]
      exact lookup_firstEntries_concat (e := (c.formula, p)) hderived
    rw [hf.target] at hg
    refine not_sameStep_of_suggest hf.healthy hr' hc hnew hf.bears hlookup hopen
      (hnamed.or_target hgoal hg) ?_ hsuggest ht
    rw [hintContext_of_premises_eq hdeclared hf.premises]
    exact hnamed.hintContext
  · -- the formula stands on the board by now, so it is no missing premise
    rintro ⟨hkind, -, hparams⟩
    obtain rfl := Option.some.inj ht
    obtain ⟨p, hp, hpkind, hpparams⟩ := hf.placed
    refine not_mem_unplaced (f := f) hp (hpkind.trans hkind.symm) ?_ hunplaced
    rw [hpparams]
    exact congrArg Params.formula hparams.symm

/-- Where something had derived the formula of the step, the search comes to the step again. -/
theorem Follows.suggest_eq (hf : b.Follows r c is b')
    (hderived : ∃ e ∈ b.derivedPieces r, e.1 = c.formula) (hdeclared : b.premises.isSome = true)
    (hr' : (b'.review s.checker).1 = .ok r') :
    (b'.hintJobOf r' goal).suggest s.search g = (b.hintJobOf r goal).suggest s.search g := by
  obtain ⟨p, -, hp⟩ := hf.derived
  have hexisting : (b'.hintJobOf r' goal).existing = (b.hintJobOf r goal).existing := by
    show firstEntries (b'.derivedPieces r') = firstEntries (b.derivedPieces r)
    rw [hp r' (statuses_of_review hr'), firstEntries_concat_of_mem hderived]
  refine HintJob.suggest_congr hf.palette hexisting ?_
    (hintContext_of_premises_eq hdeclared hf.premises) _ _
  rw [hintJobOf, hintJobOf, hf.premises]

end Follows

/-! ### Two hints in a row -/

/-- The piece of a suggestion, added at a position and wired from the given pieces. -/
def followed (b : Board) (t : Suggestion) (is : List PieceId) (position : Position) :
    Except EditError Board :=
  Site.wireAll (b.add t.kind position t.params) b.nextId 0 is

/-- Hints make progress. In every history of a board with declared premises, whatever solvers answer, a
suggested piece other than a goal can be placed and wired as the hint says. Where no piece had derived
the formula of the suggestion, the next hint towards the same goal suggests another step. Where some
piece had derived it, from whatever assumptions, the next hint to place a piece is the same as before. -/
theorem hint_progresses (o : Origin) (as : List Action) {b : Board}
    (hb : b = Action.runAll o.board as) (hdeclared : b.premises.isSome = true) (hnamed : b.WellNamed)
    {goal : Option Formula} (hgoal : ∀ f, goal = some f → f.WellNamed) {s : Settings} {σ : Type}
    {solve : Query → Value → σ → Answer × σ} {st : σ} {h : Hint}
    (hh : ((b.hint s goal).run solve st).1 = .ok h) (hkind : h.kind = .suggestPiece) :
    ∃ r t is, (b.review s.checker).1 = .ok r ∧ h.suggestion = some t ∧ t.premises = is.map some ∧
      (t.kind ≠ .goal → ∀ position, ∃ b', (b.review s.checker).2.followed t is position = .ok b' ∧
        ∀ (σ' : Type) (solve' : Query → Value → σ' → Answer × σ') (st' : σ') (h' : Hint),
          ((b'.hint s goal).run solve' st').1 = .ok h' →
            ((∀ e ∈ b.derivedPieces r, e.1 ≠ t.produces) →
              ∀ t', h'.suggestion = some t' → ¬ t'.SameStep t) ∧
            ((∃ e ∈ b.derivedPieces r, e.1 = t.produces) → h'.kind = .suggestPiece → h' = h)) := by
  have hwf : b.WellFormed := hb ▸ (wellFormed_origin o).runAll as
  have hcurrent : b.Current := hb ▸ (invariant_origin o).2.runAll (wellFormed_origin o) as
  obtain ⟨r, g, hr, hearly, hg, hsuggest⟩ := suggest_of_hint hh hkind
  have hhealthy := healthy_of_earlyHint hwf hcurrent hr hearly
  obtain ⟨e, -, hsound, ⟨c, hstep, hplace⟩ | ⟨i, -, -, rfl⟩⟩ := exists_found_of_suggest hhealthy hr
    (fun _ _ _ hstands => hstands) (hnamed.or_target hgoal hg) hnamed.hintContext hsuggest (.inl hkind)
  · obtain ⟨hc, hnew, hpremises⟩ := hsound.of_nextStep hstep
    obtain ⟨is, his, hcs⟩ := exists_bears fun p hp => ⟨hc.premises p hp, hpremises p hp⟩
    refine ⟨r, ⟨c.kind, is.map some, c.params, c.formula⟩, is, hr, ?_, rfl, fun _ position => ?_⟩
    · rw [hplace, ← his]
      rfl
    obtain ⟨b', hfollowed, hfollows⟩ := exists_follows hhealthy hr hc hnew hcs position
    refine ⟨b', hfollowed, fun σ' solve' st' h' hh' =>
      ⟨fun hderived t' ht' => ?_, fun hderived hk => ?_⟩⟩
    · exact hfollows.not_sameStep hc hnew hderived hdeclared hnamed hgoal hh' ht'
    · obtain ⟨r', g', hr', -, hg', hsuggest'⟩ := suggest_of_hint hh' hk
      rw [hfollows.target, hg] at hg'
      obtain rfl := Option.some.inj hg'
      rw [hfollows.suggest_eq hderived hdeclared hr', hsuggest] at hsuggest'
      exact (Except.ok.inj hsuggest').symm
  · exact ⟨r, _, [i], hr, rfl, rfl, fun hk => absurd rfl hk⟩

/-- The board with a premise on it, and a suggestion to conjoin the premise with itself. -/
def conjBoard : Board := assumedBoard (.conj (.atom "P" []) (.atom "P" []))

def conjStep : Suggestion :=
  ⟨.andIntro, [some 1, some 1], Params.empty, .conj (.atom "P" []) (.atom "P" [])⟩

theorem hint_progresses_conj :
    ∃ h b' h', ((conjBoard.hint .standard none).run Dialogue.affirm ()).1 = .ok h ∧
      h.suggestion = some conjStep ∧
      (conjBoard.review .standard).2.followed conjStep [1, 1] (.cell (0, 1)) = .ok b' ∧
      ((b'.hint .standard none).run Dialogue.affirm ()).1 = .ok h' ∧
      h'.kind = .suggestPiece ∧ ∀ t, h'.suggestion = some t → ¬ t.SameStep conjStep := by
  have hh : ((conjBoard.hint .standard none).run Dialogue.affirm ()).1 = .ok (Hint.place
      (.both (.reused 1 .assumption (.atom "P" []) [.atom "P" []])
        (.reused 1 .assumption (.atom "P" []) [.atom "P" []]))) := by
    cbv
  have hconj : (Formula.conj (.atom "P" []) (.atom "P" [])).WellNamed :=
    ⟨⟨by decide, by simp⟩, ⟨by decide, by simp⟩⟩
  obtain ⟨r, t, is, hr, ht, his, hnode⟩ := hint_progresses (b := conjBoard) _ _ rfl rfl
    (wellNamed_assumedBoard hconj) (by simp) hh rfl
  obtain rfl : conjStep = t := Option.some.inj ht
  have his : [1, 1].map some = is.map some := his
  obtain rfl := List.map_injective_iff.mpr (Option.some_injective _) his
  obtain ⟨b', hfollowed, hnext⟩ := hnode (by decide) (.cell (0, 1))
  -- only the assumption derives anything, and not the conjunction
  have hderived : (conjBoard.review .standard).1.map
      (fun r => (conjBoard.derivedPieces r).map (·.1)) = .ok [.atom "P" []] := by
    decide_cbv
  have hformulas : (conjBoard.derivedPieces r).map (·.1) = [.atom "P" []] :=
    Except.ok.inj ((congrArg _ hr).symm.trans hderived)
  have hnew : ∀ e ∈ conjBoard.derivedPieces r, e.1 ≠ conjStep.produces := by
    intro e he heq
    have hmem := List.mem_map_of_mem (f := fun e : Formula × Search.Placed => e.1) he
    rw [hformulas, List.mem_singleton, heq] at hmem
    exact absurd hmem (by decide)
  have hwire : ((conjBoard.review .standard).2.followed conjStep [1, 1] (.cell (0, 1))).map
      (fun b' => ((b'.hint .standard none).run Dialogue.affirm ()).1) =
        .ok (.ok (Hint.wireGoal 2 (.conj (.atom "P" []) (.atom "P" [])))) := by
    cbv
  have hh' : ((b'.hint .standard none).run Dialogue.affirm ()).1 =
      .ok (Hint.wireGoal 2 (.conj (.atom "P" []) (.atom "P" []))) :=
    Except.ok.inj ((congrArg _ hfollowed).symm.trans hwire)
  exact ⟨_, b', _, hh, rfl, hfollowed, hh', rfl, (hnext Unit _ () _ hh').1 hnew⟩

/-- A board on which a disjunction is derived from an assumption that is no premise, and then the
premise is assumed, from which the disjunction follows as well. -/
def crowdedBoard : Board :=
  Action.runAll (Origin.fresh (some (.disj (.atom "P" []) (.atom "R" []))) (some [some (.atom "P" [])])
    none Palette.full).board
    [.edit (.add (.text "assumption") (some (.cell (0, 0)))
        [("formula", .formula (some (.atom "R" [])))]),
      .edit (.add (.text "or_intro") (some (.cell (1, 0)))
        [("other", .formula (some (.atom "P" []))), ("side", .raw Params.rightSide)]),
      .edit (.wire 2 0 1),
      .edit (.add (.text "assumption") (some (.cell (0, 1)))
        [("formula", .formula (some (.atom "P" [])))])]

/-- The suggestion to derive the disjunction from the premise. -/
def crowdedStep : Suggestion :=
  ⟨.orIntro, [some 3], { Params.empty with other := some (.atom "R" []) },
    .disj (.atom "P" []) (.atom "R" [])⟩

/-- The piece that derived the formula before hides the new one: with a solver whose answers are right,
the hint is given, followed, and given again. -/
theorem hint_repeats_of_hidden_piece :
    ∃ h b', ((crowdedBoard.hint .standard none).run Dialogue.affirm ()).1 = .ok h ∧
      h.kind = .suggestPiece ∧ h.suggestion = some crowdedStep ∧ crowdedStep.kind ≠ .goal ∧
      (crowdedBoard.review .standard).2.followed crowdedStep [3] (.cell (1, 1)) = .ok b' ∧
      ((b'.hint .standard none).run Dialogue.affirm ()).1 = .ok h ∧
      ∀ e ∈ (crowdedBoard.hint .standard none).exchanges Dialogue.affirm () ++
          (b'.hint .standard none).exchanges Dialogue.affirm (),
        e.2.status = .unsat ∧ Formula.Entails.{0} e.1.hypotheses e.1.conclusion := by
  have hh : ((crowdedBoard.hint .standard none).run Dialogue.affirm ()).1 = .ok (Hint.place
      (.leftOf (.reused 3 .assumption (.atom "P" []) [.atom "P" []]) (.atom "R" []))) := by
    cbv
  have hfirst : ((crowdedBoard.hint .standard none).exchanges Dialogue.affirm ()).map
      (fun e => (e.1.hypotheses, e.1.conclusion, e.2.status)) =
      [([.atom "P" []], .disj (.atom "P" []) (.atom "R" []), .unsat)] := by
    decide_cbv
  have hsecond : ((crowdedBoard.review .standard).2.followed crowdedStep [3] (.cell (1, 1))).map
      (fun b' => (((b'.hint .standard none).run Dialogue.affirm ()).1,
        ((b'.hint .standard none).exchanges Dialogue.affirm ()).map
          fun e => (e.1.hypotheses, e.1.conclusion, e.2.status))) =
      .ok (.ok (Hint.place (.leftOf (.reused 3 .assumption (.atom "P" []) [.atom "P" []])
          (.atom "R" []))),
        [([.atom "P" [], .disj (.atom "P" []) (.atom "R" [])],
          .disj (.atom "P" []) (.atom "R" []), .unsat)]) := by
    cbv
  obtain ⟨b', hfollowed, hb'⟩ := exists_of_map_eq_ok hsecond
  obtain ⟨hh', hsecond⟩ := Prod.mk.inj hb'
  refine ⟨_, b', hh, rfl, rfl, by decide, hfollowed, hh', fun e he => ?_⟩
  have hmem := List.mem_map_of_mem
    (f := fun e : Query × Answer => (e.1.hypotheses, e.1.conclusion, e.2.status)) he
  rw [List.map_append, hfirst, hsecond] at hmem
  simp only [List.cons_append, List.nil_append, List.mem_cons, Prod.mk.injEq, List.not_mem_nil,
    or_false] at hmem
  obtain ⟨hhypotheses, hconclusion, hstatus⟩ | ⟨hhypotheses, hconclusion, hstatus⟩ := hmem
  · refine ⟨hstatus, fun D M ρ hold => ?_⟩
    rw [hconclusion]
    exact .inl (hold _ (by simp [hhypotheses]))
  · refine ⟨hstatus, fun D M ρ hold => ?_⟩
    exact hold _ (by simp [hhypotheses, hconclusion])

end Board

end DeductionBoard
