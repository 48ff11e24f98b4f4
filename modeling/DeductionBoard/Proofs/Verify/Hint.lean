import DeductionBoard.Proofs.Board.History
import DeductionBoard.Proofs.Data.Steps
import DeductionBoard.Proofs.Derivation.History
import DeductionBoard.Proofs.Search.NextStep
import DeductionBoard.Proofs.Search.Soundness
import DeductionBoard.Proofs.Solver.Dialogue
import DeductionBoard.Verify.Hint

/-! Hints that can be followed. A hint to place a piece comes from a search that knows the board only by
what its pieces derive; still the piece can be added and wired as the hint says, and then derives what
the hint promises. -/

namespace DeductionBoard

open DeductionBoard.Derivation Solver

/-! ### Where hints come from -/

/-- The hint is to place a piece, or it names one otherwise. -/
def Hint.Suggests (h : Hint) : Prop := h.kind = .suggestPiece ∨ h.suggestion ≠ none

theorem Hint.not_suggests {h : Hint} (hkind : h.kind ≠ .suggestPiece) (hnone : h.suggestion = none) :
    ¬ h.Suggests :=
  fun hs => hs.elim hkind fun hsome => hsome hnone

namespace HintJob

variable {j : HintJob} {s : Settings} {goal : Formula} {h : Hint}

/-- If the hint suggests a piece, the search has found it, or it is a premise that may be placed. -/
def Suggested (j : HintJob) (s : SearchSettings) (goal : Formula) (h : Hint) : Prop :=
  h.Suggests → j.suggest s goal = .ok h ∨ ∃ f, some f ∈ j.placeable ∧ h = Hint.assume f

theorem suggested_of_plain {s : SearchSettings} (hkind : h.kind ≠ .suggestPiece)
    (hnone : h.suggestion = none) : j.Suggested s goal h :=
  fun hs => absurd hs (Hint.not_suggests hkind hnone)

theorem yields_suggest (j : HintJob) (s : SearchSettings) (goal : Formula) :
    (Dialogue.ofDefect (j.suggest s goal)).Yields (j.Suggested s goal) :=
  Dialogue.yields_ofDefect fun _ h _ => .inl h

theorem yields_tryPremises {otherwise : Dialogue Hint}
    (hother : otherwise.Yields (j.Suggested s.search goal)) {ps : List (Option Formula)}
    (hps : ∀ p ∈ ps, p ∈ j.placeable) :
    (j.tryPremises s otherwise ps).Yields (j.Suggested s.search goal) := by
  induction ps with
  | nil => exact hother
  | cons p ps ih =>
    refine Dialogue.yields_bind (fun a => ?_) _
    split
    · cases p with
      | some f => exact fun _ => .inr ⟨f, hps _ List.mem_cons_self, rfl⟩
      | none => trivial
    · exact ih fun q hq => hps q (List.mem_cons_of_mem p hq)
    · exact suggested_of_plain (fun hkind => nomatch hkind) rfl

theorem yields_tryTogether (m : Model) :
    (j.tryTogether s goal m).Yields (j.Suggested s.search goal) := by
  rw [tryTogether]
  split
  · refine Dialogue.yields_bind (fun a => ?_) _
    split
    · exact j.yields_suggest s.search goal
    · exact suggested_of_plain (fun hkind => nomatch hkind) rfl
    · exact suggested_of_plain (fun hkind => nomatch hkind) rfl
  · exact suggested_of_plain (fun hkind => nomatch hkind) rfl

theorem yields_goOn (a : Answer) : (j.goOn s goal a).Yields (j.Suggested s.search goal) := by
  rw [goOn.eq_def]
  split
  · exact j.yields_suggest s.search goal
  · exact yields_tryPremises (yields_tryTogether a.model) fun p hp => hp
  · exact suggested_of_plain (fun hkind => nomatch hkind) rfl

/-- Without an early hint, a suggestion is what the search for the goal has found, or a premise. -/
theorem yields_run (hearly : ∀ h, j.early = some h → ¬ h.Suggests) :
    (j.run s).Yields fun h => h.Suggests → j.early = none ∧ ∃ goal, j.goal = some goal ∧
      (j.suggest s.search goal = .ok h ∨ ∃ f, some f ∈ j.placeable ∧ h = Hint.assume f) := by
  rw [run.eq_def]
  split
  · next h hh => exact fun hs => absurd hs (hearly h hh)
  · next hnone =>
    refine Dialogue.yields_bind (fun a => ?_) _
    split
    · next goal hgoal =>
      exact (yields_goOn a).mono fun h hh hs => ⟨hnone, goal, hgoal, hh hs⟩
    · trivial

theorem mem_unplaced_of_placeable {p : Option Formula} (hp : p ∈ j.placeable) : p ∈ j.unplaced := by
  rw [placeable] at hp
  split at hp
  · exact hp
  · exact absurd hp List.not_mem_nil

/-- What the search of a job may use. -/
def resources (j : HintJob) (s : SearchSettings) : Search.Resources :=
  ⟨j.palette, j.existing, Search.nodeLimit s, j.gap⟩

/-- A hint to place a piece is the next step of what the search has found, or its root where all of it
stands on the board. -/
theorem exists_of_suggest {s : SearchSettings} (hh : j.suggest s goal = .ok h) (hs : h.Suggests) :
    ∃ c, Search.Found (j.resources s) goal (Ascending.ofList j.context) c ∧
      ((∃ d, c.nextStep = some d ∧ h = Hint.place d) ∨
        ∃ i, c.nextStep = none ∧ c.piece? = some i ∧ h = Hint.wireGoal i goal) := by
  obtain ⟨o, ho, rfl⟩ := exists_of_map_eq_ok hh
  rw [hintOf.eq_def] at hs
  split at hs
  · split at hs <;> exact absurd hs (Hint.not_suggests (fun hkind => nomatch hkind) rfl)
  next c hc =>
  refine ⟨c, Search.found_of_prove ho hc, ?_⟩
  rw [hintOf, hc]
  dsimp only
  split at hs
  · next d hd => exact .inl ⟨d, hd, rfl⟩
  · next i hd hi => exact .inr ⟨i, hd, hi, rfl⟩
  · exact absurd hs (Hint.not_suggests (fun hkind => nomatch hkind) rfl)

end HintJob

namespace Board

variable {b b' : Board} {c : CheckerSettings} {r : Report} {goal : Option Formula} {i : PieceId}
  {f : Formula} {fs : List Formula} {s : Settings} {h : Hint}

/-- An early hint says that the proof is complete or that something has to be mended. -/
theorem not_suggests_earlyHint (hh : b.earlyHint r goal = some h) : ¬ h.Suggests := by
  rw [earlyHint] at hh
  split at hh
  · obtain rfl := Option.some.inj hh
    exact Hint.not_suggests (fun hkind => nomatch hkind) rfl
  · obtain ⟨v, -, rfl⟩ := Option.map_eq_some_iff.mp hh
    exact Hint.not_suggests (fun hkind => nomatch hkind) rfl

/-- What a hint suggests is what the search for the goal has found after a review, or a premise. -/
theorem yields_hint (b : Board) (s : Settings) (goal : Option Formula) :
    (b.hint s goal).Yields fun h => h.Suggests →
      ∃ r g, (b.review s.checker).1 = .ok r ∧ b.earlyHint r (goal.or b.target) = none ∧
        goal.or b.target = some g ∧ ((b.hintJobOf r goal).suggest s.search g = .ok h ∨
          ∃ f, some f ∈ b.unplaced ∧ h = Hint.assume f) := by
  refine Dialogue.Yields.bind (P := fun j => ∃ r, (b.review s.checker).1 = .ok r ∧
    j = b.hintJobOf r goal) (Dialogue.yields_ofDefect fun j hj => ?_) ?_
  · rw [prepareHint] at hj
    split at hj
    · exact nomatch hj
    · next r hr => exact ⟨r, hr, (Except.ok.inj hj).symm⟩
  · rintro j ⟨r, hr, rfl⟩
    refine (HintJob.yields_run fun h hh => not_suggests_earlyHint hh).mono fun h hh hs => ?_
    obtain ⟨hearly, g, hg, hsuggest⟩ := hh hs
    refine ⟨r, g, hr, hearly, hg, hsuggest.imp_right fun ⟨f, hf, hassume⟩ => ⟨f, ?_, hassume⟩⟩
    exact HintJob.mem_unplaced_of_placeable hf

/-- A hint to place a piece is what the search for the goal has found after a review. -/
theorem suggest_of_hint {σ : Type} {solve : Query → Value → σ → Answer × σ} {st : σ}
    (hh : ((b.hint s goal).run solve st).1 = .ok h) (hkind : h.kind = .suggestPiece) :
    ∃ r g, (b.review s.checker).1 = .ok r ∧ b.earlyHint r (goal.or b.target) = none ∧
      goal.or b.target = some g ∧ (b.hintJobOf r goal).suggest s.search g = .ok h := by
  obtain ⟨r, g, hr, hearly, hg, hsuggest⟩ := (b.yields_hint s goal).of_run hh (.inl hkind)
  refine ⟨r, g, hr, hearly, hg, hsuggest.resolve_right ?_⟩
  rintro ⟨f, -, rfl⟩
  exact nomatch hkind

/-! ### Boards without early hints -/

/-- Where there is nothing to mend first, no piece breaks its rule. -/
theorem healthy_of_earlyHint (hwf : b.WellFormed) (hcurrent : b.Current)
    (hr : (b.review c).1 = .ok r) (h : b.earlyHint r goal = none) : b.Healthy := by
  refine healthy_of_review hwf hcurrent hr fun i v hi => ?_
  have hprogress : v.kind.isProgress = true := by
    rw [earlyHint] at h
    split at h
    · exact nomatch h
    · simpa using List.find?_eq_none.mp (Option.map_eq_none_iff.mp h) v
        (mem_violations_of_review hr hi)
  rw [statuses_of_review hr] at hi
  obtain ⟨p, hp⟩ := exists_piece? (mem_ids_of_status? hwf hi)
  rw [hcurrent.status?_statuses hwf hp] at hi
  exact nomatch hprogress.symm.trans (own_of_statusOf (Option.some.inj hi)).2

theorem firstEntries_subset (es : List (Formula × Search.Placed)) : firstEntries es ⊆ es := by
  refine List.foldlRecOn (motive := fun acc => acc ⊆ es) es _ (List.nil_subset es)
    fun acc hacc e he => ?_
  split
  · exact hacc
  · exact List.append_subset.mpr ⟨hacc, List.cons_subset.mpr ⟨he, List.nil_subset es⟩⟩

/-- The pieces that a hint starts from stand for what they derive. -/
theorem stands_of_lookup (hb : b.Healthy) (hr : (b.review c).1 = .ok r) {e : Search.Placed}
    (he : List.lookup f (firstEntries (b.derivedPieces r)) = some e) :
    b.Stands e.piece f e.assumptions := by
  obtain ⟨u, w, hes, -⟩ := List.lookup_eq_some_iff.mp he
  have hmem : (f, e) ∈ b.derivedPieces r := by
    refine firstEntries_subset _ ?_
    rw [hes]
    simp
  obtain ⟨p, hp, hpe⟩ := List.mem_filterMap.mp hmem
  split at hpe
  · next d hd =>
    split at hpe
    · exact nomatch hpe
    next hk =>
    obtain ⟨rfl, rfl⟩ := Prod.mk.inj (Option.some.inj hpe)
    refine ⟨fun hgoal => ?_, d.assumptions, statuses_of_review hr ▸ hd, fun g => ?_⟩
    · obtain ⟨q, hq, hqk⟩ := hb.wellFormed.goal p.id hgoal
      have hself := piece?_of_mem hb.wellFormed.nodup hp
      exact hk (Option.some.inj (hself.symm.trans hq) ▸ hqk)
    · exact Ascending.mem_ofList.trans List.mem_filterMap
  · exact nomatch hpe

/-! ### Boards that look the same -/

theorem Healthy.of_snapshot_eq (h : b.Healthy) (hwf : b'.WellFormed) (hcurrent : b'.Current)
    (hs : b.snapshot = b'.snapshot) : b'.Healthy := by
  have hstatuses := statuses_of_snapshot_eq h.wellFormed h.current hwf hcurrent hs
  refine ⟨hwf, hcurrent, hstatuses ▸ h.unviolated, fun i p hp => ?_⟩
  obtain ⟨q, hq, hforget⟩ := exists_forget_eq hs hp
  rw [hstatuses, ← h.applicable i q hq]
  exact isDefective_congr (sameRule_of_forget_eq hforget.symm) fun _ _ => rfl

/-- A review leaves a ready board ready. -/
theorem Ready.review (h : b.Ready) (c : CheckerSettings) : (b.review c).2.Ready := by
  have hs := (snapshot_review b c).symm
  refine ⟨h.healthy.of_snapshot_eq (h.healthy.wellFormed.review c)
    (h.healthy.current.review h.healthy.wellFormed c) hs, fun g hg k hk => ?_⟩
  have hgoal : b.goal = some g := (congrArg Snapshot.goal hs).trans hg
  exact h.idle g hgoal k (by rwa [Feeds, producers_of_snapshot_eq hs])

/-- A review leaves what pieces stand for. -/
theorem Stands.review (h : b.Stands i f fs) (hb : b.Healthy) (c : CheckerSettings) :
    (b.review c).2.Stands i f fs := by
  have hs := (snapshot_review b c).symm
  have hstatuses := statuses_of_snapshot_eq hb.wellFormed hb.current
    (hb.wellFormed.review c) (hb.current.review hb.wellFormed c) hs
  have hgoal : (b.review c).2.goal = b.goal := congrArg Snapshot.goal hs.symm
  obtain ⟨hne, open_, hd, hopen⟩ := h
  refine ⟨hgoal ▸ hne, open_, hstatuses ▸ hd, fun g => ?_⟩
  simp only [hopen g, assumed?_of_snapshot_eq hs]

/-! ### Reviews after a step -/

/-- Whether a review speaks about a missing formula depends on the goal alone. -/
theorem lacksFormula_of_grows (h : b.Healthy) (h' : b'.Healthy) (hgrows : b.Grows b')
    (hgoal : b'.goal = b.goal) (c : CheckerSettings) : b'.lacksFormula c = b.lacksFormula c := by
  have hdeclared : b'.declared = b.declared := by rw [declared, declared, hgrows.premises]
  have hexplained : ∀ (b : Board) g, b.isExplained g [] = false := fun _ _ => rfl
  rw [lacksFormula, lacksFormula, hgoal, h.violations_eq_nil, h'.violations_eq_nil]
  cases hg : b.goal with
  | none => rfl
  | some g =>
    obtain ⟨p, hp, -⟩ := h.wellFormed.goal g hg
    have hmem := mem_ids_of_piece? hp
    have hstatus := hgrows.status g hmem
    dsimp only
    rw [hstatus]
    cases hst : b.statuses.status? g with
    | none => rfl
    | some st =>
      cases st with
      | incomplete m k => simp only [hexplained, hgrows.target]
      | violated v => rfl
      | derived f open_ =>
        have hundeclared : b'.undeclared open_ = b.undeclared open_ := by
          refine List.filterMap_congr fun a ha => ?_
          have hd : b.statuses.conclusion? g = some ⟨f, open_⟩ :=
            Statuses.conclusion?_eq_some_iff.mpr hst
          rw [hgrows.assumed? (h.mem_ids_of_open hd ha), hdeclared]
        simp only [hundeclared, hgrows.target, judgesPremises, hgrows.premises]

theorem review_of_grows (h : b.Healthy) (h' : b'.Healthy) (hgrows : b.Grows b')
    (hgoal : b'.goal = b.goal) (hr : (b.review c).1 = .ok r) :
    (b'.review c).1 = .ok (b'.check c).1 := by
  have hlacks := lacksFormula_of_grows h h' hgrows hgoal c
  rw [review_eq_check h'.defective?_eq_none (hlacks.trans (report_of_review hr).1)]

/-- A finished board whose open formulas are premises is ready to be encoded. -/
theorem Finished.isReady (h : b.Finished f fs) (htarget : b.target = some f)
    (hallowed : b.premises.isSome = true → ∀ g ∈ fs, g ∈ b.declared) (c : CheckerSettings) :
    ∃ r, (b.review c).1 = .ok r ∧ r.isReady = true := by
  obtain ⟨r, open_, hr, hviolations, hstatus, -⟩ := h.review htarget hallowed c
  refine ⟨r, hr, ?_⟩
  have hconclusion : r.goalConclusion = some ⟨f, open_⟩ := by
    obtain ⟨g, hg, hgs⟩ := Option.bind_eq_some_iff.mp hstatus
    rw [Report.goalConclusion, hg]
    exact Statuses.conclusion?_eq_some_iff.mpr hgs
  have hmatches : some f = r.target := by
    rw [(report_of_review hr).2]
    exact htarget.symm
  rw [Report.isReady, Report.isSound, hviolations, Report.goalMatches, hconclusion]
  simpa using hmatches

/-! ### Hints to place a piece -/

/-- The names in the puzzle and in the assumptions on the board can be used. -/
structure WellNamed (b : Board) : Prop where
  target : ∀ f, b.target = some f → f.WellNamed
  declared : ∀ f ∈ b.declared, f.WellNamed
  placed : ∀ f ∈ b.placedFormulas, f.WellNamed

theorem WellNamed.or_target (h : b.WellNamed) (hgoal : ∀ f, goal = some f → f.WellNamed)
    (hf : goal.or b.target = some f) : f.WellNamed := by
  rcases Option.or_eq_some_iff.mp hf with hf | ⟨-, hf⟩
  · exact hgoal f hf
  · exact h.target f hf

theorem WellNamed.hintContext (h : b.WellNamed) : ∀ f ∈ b.hintContext, f.WellNamed := by
  intro f hf
  have hf := Ascending.mem_ofList.mp hf
  split at hf
  · exact h.declared f hf
  · exact h.placed f hf

/-- The piece of a suggestion can be added at every position and wired from the given pieces. It then
derives what the suggestion promises, and no piece breaks its rule. -/
def Admits (b : Board) (c : CheckerSettings) (sg : Suggestion) (is : List PieceId) : Prop :=
  ∀ position, ∃ b' r open_,
    Site.wireAll (b.add sg.kind position sg.params) b.nextId 0 is = .ok b' ∧
      (b'.review c).1 = .ok r ∧ r.statuses.status? b.nextId = some (.derived sg.produces open_) ∧
      ∀ i v, r.statuses.status? i ≠ some (.violated v)

/-- Under every policy a review finds the board ready to be encoded. -/
def IsReady (b : Board) : Prop := ∀ c, ∃ r, (b.review c).1 = .ok r ∧ r.isReady = true

/-- The piece can be wired into the goal, or into a new goal piece where there is none, and that makes
the board ready. -/
def Completes (b : Board) (i : PieceId) : Prop :=
  (∀ g, b.goal = some g → ∃ b', b.wire g 0 i = .ok b' ∧ b'.IsReady) ∧
    (b.goal = none → ∀ position, ∃ b',
      (b.add .goal position Params.empty).wire b.nextId 0 i = .ok b' ∧ b'.IsReady)

/-- The next step of a construction can be taken. -/
theorem admits_of_nextStep {e d : Construction} (hb : b.Ready) (hr : (b.review c).1 = .ok r)
    (he : e.Sound b.Stands) (hd : e.nextStep = some d) :
    ∃ is, d.premises.map Construction.piece? = is.map some ∧ (∀ i ∈ is, i ∈ b.ids) ∧
      is.length = d.kind.arity ∧
      b.Admits c ⟨d.kind, d.premises.map Construction.piece?, d.params, d.formula⟩ is := by
  obtain ⟨hsound, hnew, hpremises⟩ := he.of_nextStep hd
  obtain ⟨is, his, hbears⟩ := exists_bears fun p hp => ⟨hsound.premises p hp, hpremises p hp⟩
  refine ⟨is, his, hbears.mem_ids hb.healthy,
    hbears.length_eq.symm.trans (d.length_premises hnew), fun position => ?_⟩
  obtain ⟨b', hwire, hready, hgrows, hgoal, -, open_, hderived, -⟩ :=
    exists_node hb hsound hnew hbears position
  exact ⟨b', (b'.check c).1, open_, hwire, review_of_grows hb.healthy hready.healthy hgrows hgoal hr,
    Statuses.conclusion?_eq_some_iff.mp hderived, hready.healthy.unviolated⟩

/-- A piece that stands for the target completes the board. -/
theorem completes_of_stands (hb : b.Ready) (htarget : b.target = some f) (hstands : b.Stands i f fs)
    (hallowed : b.premises.isSome = true → ∀ g ∈ fs, g ∈ b.declared) : b.Completes i := by
  have hready : ∀ b' : Board, b'.Finished f fs → b'.target = b.target → b'.premises = b.premises →
      b'.IsReady := by
    intro b' hfinished htarget' hpremises c
    refine hfinished.isReady (htarget'.trans htarget) (fun hsome g hg => ?_) c
    rw [declared, hpremises]
    exact hallowed (hpremises ▸ hsome) g hg
  constructor
  · intro g hg
    obtain ⟨b', hwire, hfinished, htarget', hpremises⟩ := exists_wire_goal hb hg hstands
    exact ⟨b', hwire, hready b' hfinished htarget' hpremises⟩
  · intro hg position
    obtain ⟨b', hwire, hfinished, htarget', hpremises⟩ := exists_add_goal hb hg hstands position
    exact ⟨b', hwire, hready b' hfinished htarget' hpremises⟩

/-- Behind what the search suggests there is a construction of the goal from pieces of the board. -/
theorem exists_found_of_suggest {known : PieceId → Formula → List Formula → Prop} (hb : b.Healthy)
    (hr : (b.review c).1 = .ok r) (hknown : ∀ i f fs, b.Stands i f fs → known i f fs)
    (hf : f.WellNamed) (hcontext : ∀ g ∈ b.hintContext, g.WellNamed)
    (hsuggest : (b.hintJobOf r goal).suggest s.search f = .ok h) (hs : h.Suggests) :
    ∃ e, Search.Found ((b.hintJobOf r goal).resources s.search) f (Ascending.ofList b.hintContext) e ∧
      e.Sound known ∧ ((∃ d, e.nextStep = some d ∧ h = Hint.place d) ∨
        ∃ i, e.nextStep = none ∧ e.piece? = some i ∧ h = Hint.wireGoal i f) := by
  obtain ⟨e, hfound, hstep⟩ := HintJob.exists_of_suggest hsuggest hs
  refine ⟨e, hfound, hfound.sound (fun g p hp => ?_) hf fun g hg => ?_, hstep⟩
  · exact hknown _ _ _ (stands_of_lookup hb hr hp)
  · exact hcontext g (Ascending.mem_ofList.mp hg)

/-- Behind a hint to place a piece there is a construction of the goal on the board as the hint leaves
it: the review of the hint changes caches only. -/
theorem exists_construction_of_hint (hwf : b.WellFormed) (hcurrent : b.Current)
    (hidle : ∀ g, b.goal = some g → ∀ k, ¬ b.Feeds g k) (hnamed : b.WellNamed)
    (hgoal : ∀ f, goal = some f → f.WellNamed) {σ : Type} {solve : Query → Value → σ → Answer × σ}
    {st : σ} (hh : ((b.hint s goal).run solve st).1 = .ok h) (hkind : h.kind = .suggestPiece) :
    ∃ r g e, (b.review s.checker).1 = .ok r ∧ b.Ready ∧ goal.or b.target = some g ∧
      Search.Closes (b.review s.checker).2.Stands g b.hintContext e ∧
      (∀ d ∈ e.postOrder, d.piece? = none → b.palette.contains d.kind = true) ∧
      ((∃ d, e.nextStep = some d ∧ h = Hint.place d) ∨
        ∃ i, e.nextStep = none ∧ e.piece? = some i ∧ h = Hint.wireGoal i g) := by
  obtain ⟨r, g, hr, hearly, hg, hsuggest⟩ := suggest_of_hint hh hkind
  have hhealthy := healthy_of_earlyHint hwf hcurrent hr hearly
  obtain ⟨e, hfound, hsound, hstep⟩ := exists_found_of_suggest hhealthy hr
    (fun i f fs hstands => hstands.review hhealthy s.checker) (hnamed.or_target hgoal hg)
    hnamed.hintContext hsuggest (.inl hkind)
  refine ⟨r, g, e, hr, ⟨hhealthy, hidle⟩, hg, ⟨hsound, hfound.formula_eq, fun f hf => ?_⟩,
    fun d hd hnew => ?_, hstep⟩
  · exact Ascending.mem_ofList.mp (hfound.mem_of_assumptions f hf)
  · obtain ⟨goal', ctx', hd⟩ := Construction.exists_found_of_mem_postOrder hfound hd
    exact (hd.of_new hnew).1

/-- Following a hint to place a piece is legal and delivers what the hint promises. In every history of
a board whose goal is wired into no other piece, whatever a solver answers, the suggestion names only
pieces of the board, one for each slot. On the board as the hint leaves it, a piece other than a goal is
of the palette, can be added and wired, and derives the promised formula, while no piece breaks its rule;
and where the hint leads to the target and the suggestion is to wire the goal, that makes the board
ready. -/
theorem hint_followed (o : Origin) (as : List Action) {b : Board}
    (hb : b = Action.runAll o.board as) (hidle : ∀ g, b.goal = some g → ∀ k, ¬ b.Feeds g k)
    (hnamed : b.WellNamed) {goal : Option Formula} (hgoal : ∀ f, goal = some f → f.WellNamed)
    {s : Settings} {σ : Type} {solve : Query → Value → σ → Answer × σ} {st : σ} {h : Hint}
    (hh : ((b.hint s goal).run solve st).1 = .ok h) (hkind : h.kind = .suggestPiece) :
    ∃ sg is, h.suggestion = some sg ∧ sg.premises = is.map some ∧ (∀ i ∈ is, i ∈ b.ids) ∧
      is.length = sg.kind.arity ∧
      (sg.kind ≠ .goal → b.palette.contains sg.kind = true ∧
        (b.review s.checker).2.Admits s.checker sg is) ∧
      (sg.kind = .goal → goal.or b.target = b.target →
        ∃ i, is = [i] ∧ (b.review s.checker).2.Completes i) := by
  have hwf : b.WellFormed := hb ▸ (wellFormed_origin o).runAll as
  have hcurrent : b.Current := hb ▸ (invariant_origin o).2.runAll (wellFormed_origin o) as
  obtain ⟨r, g, e, hr, hready, hg, ⟨hsound, hformula, hsub⟩, hpalette, hstep⟩ :=
    exists_construction_of_hint hwf hcurrent hidle hnamed hgoal hh hkind
  have hready := hready.review s.checker
  have hids : (b.review s.checker).2.ids = b.ids := ids_review b s.checker
  have hs := (snapshot_review b s.checker).symm
  rcases hstep with ⟨d, hd, rfl⟩ | ⟨i, -, hi, rfl⟩
  · have hr' : ((b.review s.checker).2.review s.checker).1 =
        .ok { r with revision := (b.review s.checker).2.revision } := by
      rw [review_of_snapshot_eq hwf hcurrent (hwf.review _) (hcurrent.review hwf _) hs, hr]
      rfl
    obtain ⟨is, his, hmem, hlength, hadmits⟩ := admits_of_nextStep hready hr' hsound hd
    have hnew : d.piece? = none := (hsound.of_nextStep hd).2.1
    exact ⟨_, is, rfl, his, hids ▸ hmem, hlength,
      fun _ => ⟨hpalette d (List.mem_of_find?_eq_some hd) hnew, hadmits⟩,
      fun hk => absurd hk (d.kind_ne_goal hnew)⟩
  · have hstands := hsound.known_of_piece? hi
    have hmem : i ∈ b.ids := by
      obtain ⟨-, open_, hd, -⟩ := hstands
      exact hids ▸ hready.healthy.mem_ids hd
    refine ⟨_, [i], rfl, rfl, by simpa using hmem, rfl, fun hk => absurd rfl hk,
      fun _ htarget => ⟨i, rfl, ?_⟩⟩
    rw [htarget] at hg
    refine completes_of_stands hready (hformula ▸ (congrArg Snapshot.target hs).symm.trans hg)
      hstands fun hsome f hf => ?_
    have hpremises : b.premises = (b.review s.checker).2.premises := congrArg Snapshot.premises hs
    have hf := Ascending.mem_ofList.mp (hsub f hf)
    rw [hpremises, if_pos hsome] at hf
    rwa [declared, ← hpremises]

/-- A board with an assumption on it that is the only premise. -/
def assumedBoard (target : Formula) : Board :=
  Action.runAll (Origin.fresh (some target) (some [some (.atom "P" [])]) none Palette.full).board
    [.edit (.add (.text "assumption") (some (.cell (0, 0)))
      [("formula", .formula (some (.atom "P" [])))])]

theorem wellNamed_assumedBoard {target : Formula} (h : target.WellNamed) :
    (assumedBoard target).WellNamed := by
  have hpremise : (Formula.atom "P" []).WellNamed := ⟨by decide, by simp⟩
  refine ⟨fun f hf => ?_, fun f hf => ?_, fun f hf => ?_⟩
  · obtain rfl : target = f := Option.some.inj hf
    exact h
  · rw [show (assumedBoard target).declared = [.atom "P" []] from rfl] at hf
    exact List.mem_singleton.mp hf ▸ hpremise
  · rw [show (assumedBoard target).placedFormulas = [.atom "P" []] from rfl] at hf
    exact List.mem_singleton.mp hf ▸ hpremise

theorem hint_followed_conj :
    ∃ h, (((assumedBoard (.conj (.atom "P" []) (.atom "P" []))).hint .standard none).run
        Dialogue.affirm ()).1 = .ok h ∧
      h.suggestion = some ⟨.andIntro, [some 1, some 1], Params.empty,
        .conj (.atom "P" []) (.atom "P" [])⟩ ∧
      ((assumedBoard (.conj (.atom "P" []) (.atom "P" []))).review .standard).2.Admits .standard
        ⟨.andIntro, [some 1, some 1], Params.empty, .conj (.atom "P" []) (.atom "P" [])⟩ [1, 1] := by
  have hh : (((assumedBoard (.conj (.atom "P" []) (.atom "P" []))).hint .standard none).run
      Dialogue.affirm ()).1 = .ok (Hint.place
        (.both (.reused 1 .assumption (.atom "P" []) [.atom "P" []])
          (.reused 1 .assumption (.atom "P" []) [.atom "P" []]))) := by
    cbv
  have hpremise : (Formula.atom "P" []).WellNamed := ⟨by decide, by simp⟩
  have hconj : (Formula.conj (.atom "P" []) (.atom "P" [])).WellNamed := ⟨hpremise, hpremise⟩
  have hgoal : (assumedBoard (.conj (.atom "P" []) (.atom "P" []))).goal = none := rfl
  obtain ⟨sg, is, hsg, his, -, -, hnode, -⟩ :=
    hint_followed (b := assumedBoard (.conj (.atom "P" []) (.atom "P" []))) _ _ rfl
      (by simp [hgoal]) (wellNamed_assumedBoard hconj) (by simp) hh rfl
  obtain rfl := Option.some.inj hsg
  have his : [1, 1].map some = is.map some := his
  obtain rfl := List.map_injective_iff.mpr (Option.some_injective _) his
  exact ⟨_, hh, rfl, (hnode (by decide)).2⟩

end Board

end DeductionBoard
