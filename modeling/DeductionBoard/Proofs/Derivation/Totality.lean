import DeductionBoard.Proofs.Board.History
import DeductionBoard.Proofs.Derivation.Strict

/-! Rule checks that never break off. Variables and terms may be any texts, the empty one and those
with the reserved mark included, formulas may be missing, and a side may be anything at all. Main
result: at every moment of a history on which the parameters are of these kinds, the strict check ends
without a snag with the report of the review; this gives each piece of the board one status, and a
piece is incomplete exactly when one of its slots is empty or one of its premises is not derived. -/

namespace DeductionBoard

open DeductionBoard.Derivation

/-- Variable and term are texts or missing, and the formulas that are given hold usable names only. -/
@[mk_iff]
structure Params.Declared (ps : Params) : Prop where
  names : ps.TextNames
  formula : ∀ f, ps.formula = some f → f.WellNamed
  other : ∀ f, ps.other = some f → f.WellNamed
  hypothesis : ∀ f, ps.hypothesis = some f → f.WellNamed

/-- The target and the premises are formulas, and all parameters are of the kinds they should be. -/
structure Board.Declared (b : Board) : Prop where
  target : b.target.isSome = true
  premises : ∀ fs, b.premises = some fs → ∀ f ∈ fs, f.isSome = true
  params : ∀ p ∈ b.pieces, p.params.Declared

/-- The parameters of a new piece are of the kinds they should be. -/
def Action.Declared : Action → Prop
  | .edit (.add _ _ fields) => ∀ ps, Params.ofFields fields = some ps → ps.Declared
  | _ => True

/-! ### What is derived -/

namespace Derivation.Context

variable {c : Context} {ps : List Conclusion} {d p : Conclusion}

/-- No rule makes up a name that cannot be used. -/
theorem Derives.wellNamed (h : c.Derives ps d) (hparams : c.piece.params.Declared)
    (hps : ∀ p ∈ ps, p.formula.WellNamed) : d.formula.WellNamed := by
  cases h with
  | assumption hk hf => exact hparams.formula _ hf
  | goal hk => exact hps _ List.mem_cons_self
  | conjunction hk =>
    exact ⟨hps _ List.mem_cons_self, hps _ (List.mem_cons_of_mem _ List.mem_cons_self)⟩
  | disjunctionLeft hk ho hs => exact ⟨hps _ List.mem_cons_self, hparams.other _ ho⟩
  | disjunctionRight hk ho hs => exact ⟨hparams.other _ ho, hps _ List.mem_cons_self⟩
  | implication hk hh => exact ⟨hparams.hypothesis _ hh, hps _ List.mem_cons_self⟩
  | @negation _ _ f hk hh hq =>
    have hf : f.WellNamed := hparams.hypothesis f hh
    exact hf
  | quantification hk hv ht huv hut hfree hbody hapart =>
    exact ⟨huv, (hps _ List.mem_cons_self).substitute huv hbody⟩
  | vacuous hk hv ht huv hut hfree hapart => exact ⟨huv, hps _ List.mem_cons_self⟩

theorem quantifier_ne_incomplete {q : Quantifier} {missing : List Nat} {blocked : List PieceId} :
    c.quantifier q p ≠ .incomplete missing blocked := by
  intro h
  simp only [quantifier, quantification, vacuous] at h
  repeat' split at h
  all_goals exact Status.noConfusion h

/-- With all its premises, a rule succeeds or is broken. -/
theorem apply_ne_incomplete (hps : Supplied c.piece.kind ps) {missing : List Nat}
    {blocked : List PieceId} : c.apply ps ≠ .incomplete missing blocked := by
  intro h
  unfold apply assumption disjunction implication negation at h
  generalize c.piece.kind = k at hps h
  cases hps with
  | goal p => exact Status.noConfusion h
  | conjunction p q => exact Status.noConfusion h
  | universal p => exact quantifier_ne_incomplete h
  | existential p => exact quantifier_ne_incomplete h
  | _ =>
    simp only at h
    repeat' split at h
    all_goals exact Status.noConfusion h

end Derivation.Context

namespace Derivation

variable {b : Board} {p : Piece} {s : Statuses}

/-- Incomplete is a piece with an empty slot or with a premise that derives nothing. -/
theorem statusOf_incomplete_iff (harity : p.slots.length = p.kind.arity) :
    (∃ missing blocked, statusOf b p s = .incomplete missing blocked) ↔
      none ∈ p.slots ∨ ∃ j ∈ p.premises, s.conclusion? j = none := by
  unfold statusOf
  split
  · next hcomplete =>
    rw [isComplete_iff, not_not] at hcomplete
    exact iff_of_true ⟨_, _, rfl⟩ (.inl hcomplete)
  next hcomplete =>
  rw [not_not] at hcomplete
  simp only
  split
  · next hblocked =>
    have hsome : ∃ j ∈ p.premises, s.conclusion? j = none := by simpa using hblocked
    exact iff_of_true ⟨_, _, rfl⟩ (.inr hsome)
  · next hblocked =>
    have hall : ∀ j ∈ p.premises, (s.conclusion? j).isSome := by
      simpa [Option.isSome_iff_ne_none] using hblocked
    refine iff_of_false ?_ ?_
    · rintro ⟨missing, blocked, h⟩
      have hlength := (length_conclusions hcomplete hall).trans harity
      exact Context.apply_ne_incomplete (Context.supplied_of_length hlength) h
    · rintro (hnone | ⟨j, hj, hnone⟩)
      · exact isComplete_iff.mp hcomplete hnone
      · exact absurd (hall j hj) (by simp [hnone])

end Derivation

namespace Board

variable {b b' : Board} {i : PieceId} {d : Conclusion}

theorem Declared.typed (h : b.Declared) : b.Typed :=
  ⟨h.target, h.premises, fun p hp => (h.params p hp).names⟩

/-- Where the caches are current, a piece derives a well-named formula from assumptions of the board. -/
theorem Declared.upholds (hd : b.Declared) (h : b.WellFormed) (hc : b.Current)
    (hi : b.statuses.conclusion? i = some d) : b.Upholds d := by
  have hs : ∀ i p, b.piece? i = some p → b.statuses.status? i = some (statusOf b p b.statuses) :=
    fun i p hp => hc.status?_statuses h hp
  have hids : i ∈ b.ids := mem_ids_of_status? h (Statuses.conclusion?_eq_some_iff.mp hi)
  constructor
  -- along the wires: a rule puts together what its parameters and its premises hold
  · induction i using h.wellFounded.induction generalizing d with
    | _ i ih =>
    obtain ⟨p, hp⟩ := exists_piece? hids
    refine (derives_of_conclusion? hs hp hi).2.wellNamed (hd.params p (mem_of_piece? hp)) ?_
    intro e he
    obtain ⟨j, hj, hje⟩ := List.mem_filterMap.mp he
    have hji := feeds_of_mem_premises hp hj
    exact ih j hji hje (h.wired j i hji)
  · intro a ha
    obtain ⟨p, f, hp, -, hf⟩ := exists_assumption h hs hids hi ha
    exact ⟨p, f, hp, hf⟩

/-! ### Histories -/

/-- Target and premises are the same, and all parameters have been on the board before. -/
structure Retains (b b' : Board) : Prop where
  target : b'.target = b.target
  premises : b'.premises = b.premises
  params : ∀ p' ∈ b'.pieces, ∃ p ∈ b.pieces, p'.params = p.params

theorem Retains.refl (b : Board) : b.Retains b := ⟨rfl, rfl, fun p hp => ⟨p, hp, rfl⟩⟩

theorem Retains.trans {b'' : Board} (h : b.Retains b') (h' : b'.Retains b'') : b.Retains b'' where
  target := h'.target.trans h.target
  premises := h'.premises.trans h.premises
  params p'' hp'' := by
    obtain ⟨p', hp', heq'⟩ := h'.params p'' hp''
    obtain ⟨p, hp, heq⟩ := h.params p' hp'
    exact ⟨p, hp, heq'.trans heq⟩

theorem Declared.retains (hd : b.Declared) (h : b.Retains b') : b'.Declared where
  target := h.target ▸ hd.target
  premises := h.premises ▸ hd.premises
  params p' hp' := by
    obtain ⟨p, hp, heq⟩ := h.params p' hp'
    exact heq ▸ hd.params p hp

theorem retains_mapPieces {f : Piece → Piece} (hf : ∀ p, (f p).params = p.params) :
    b.Retains (b.mapPieces f) where
  target := rfl
  premises := rfl
  params p' hp' := by
    obtain ⟨p, hp, rfl⟩ := List.mem_map.mp hp'
    exact ⟨p, hp, hf p⟩

theorem retains_forgetFrom (b : Board) (i : PieceId) : b.Retains (b.forgetFrom i) :=
  retains_mapPieces (forgets_forgetIn _).params

theorem retains_foldl_forgetFrom (is : List PieceId) (b : Board) :
    b.Retains (is.foldl forgetFrom b) := by
  induction is generalizing b with
  | nil => exact .refl b
  | cons i is ih => exact (retains_forgetFrom b i).trans (ih _)

theorem retains_withoutPiece (b : Board) (i : PieceId) : b.Retains (b.withoutPiece i) := by
  have hisolated : b.Retains (b.isolated i) := retains_mapPieces fun p => by
    unfold detachIn
    split <;> rfl
  have hforgotten := hisolated.trans (retains_foldl_forgetFrom (b.consumers i) _)
  exact ⟨hforgotten.target, hforgotten.premises, fun p hp =>
    hforgotten.params p (List.mem_of_mem_filter hp)⟩

theorem retains_rewired (b : Board) (i : PieceId) (n : Nat) (s : Option PieceId) :
    b.Retains (((b.setSlot i n s).forgetFrom i).bump) := by
  have hslot : b.Retains (b.setSlot i n s) := retains_mapPieces fun p => by split <;> rfl
  have hforgotten := hslot.trans (retains_forgetFrom _ i)
  exact ⟨hforgotten.target, hforgotten.premises, hforgotten.params⟩

/-- Parameters come onto the board with new pieces only. -/
theorem retains_of_edited (h : Edited b b') (hadd : ∀ kind q ps, b' ≠ b.add kind q ps) :
    b.Retains b' := by
  cases h with
  | unchanged => exact .refl b
  | skipped => exact ⟨rfl, rfl, fun p hp => ⟨p, hp, rfl⟩⟩
  | added kind q ps => exact absurd rfl (hadd kind q ps)
  | rewired i n s hs => exact retains_rewired b i n s
  | removed i hi =>
    have hremoved := retains_withoutPiece b i
    exact ⟨hremoved.target, hremoved.premises, hremoved.params⟩
  | designated i p hp hk => exact ⟨rfl, rfl, fun p hp => ⟨p, hp, rfl⟩⟩
  | moved i q =>
    have hmoved : b.Retains (b.update [i] fun p => { p with position := q }) :=
      retains_mapPieces fun p => by split <;> rfl
    exact ⟨hmoved.target, hmoved.premises, hmoved.params⟩

/-- No other edit has the effect of a new piece, since none of them brings in a new number. -/
theorem apply_ne_add (h : b.WellFormed) {e : Edit} (he : ∀ kind q fields, e ≠ .add kind q fields)
    (kind : RuleKind) (q : Position) (ps : Params) : (e.apply b).1 ≠ b.add kind q ps := by
  intro hb
  have hnew : b.nextId ∈ (e.apply b).1.ids := by
    rw [hb]
    exact List.mem_map_of_mem (List.mem_append_right b.pieces List.mem_cons_self)
  rcases mem_ids_of_apply hnew with hold | hissued
  · exact h.nextId_notMem hold
  · cases e with
    | add kind q fields => exact he kind q fields rfl
    | _ => exact settle_ne_some _ hissued

theorem Declared.add (hd : b.Declared) (kind : RuleKind) (q : Position) {ps : Params}
    (hps : ps.Declared) : (b.add kind q ps).Declared where
  target := hd.target
  premises := hd.premises
  params p hp := by
    rcases List.mem_append.mp hp with hp | hp
    · exact hd.params p hp
    · exact List.mem_singleton.mp hp ▸ hps

theorem Declared.place (hd : b.Declared) (kind : Value) (q : Option Position)
    {fields : List (String × ParamValue)}
    (hfields : ∀ ps, Params.ofFields fields = some ps → ps.Declared) :
    (b.place kind q fields).1.Declared := by
  unfold Board.place
  split
  · exact hd
  split
  · exact hd
  next ps hps =>
  split
  · exact ⟨hd.target, hd.premises, hd.params⟩
  · exact hd.add _ _ (hfields ps hps)

/-- Actions whose new pieces are as they should be keep a board as it should be. -/
theorem Declared.run (hd : b.Declared) (h : b.WellFormed) {a : Action} (ha : a.Declared) :
    (a.run b).Declared := by
  cases a with
  | check c =>
    have hremember : ∀ s, b.Retains (b.remember s) := fun s => retains_mapPieces fun _ => rfl
    rw [Action.run, review]
    split
    · exact hd.retains (hremember _)
    · exact hd.retains (hremember _)
  | edit e =>
    by_cases he : ∀ kind q fields, e ≠ .add kind q fields
    · exact hd.retains (retains_of_edited (edited_apply h e) (apply_ne_add h he))
    · push Not at he
      obtain ⟨kind, q, fields, rfl⟩ := he
      have hplace := hd.place kind q ha
      rw [Action.run, Edit.apply]
      rcases hb : b.place kind q fields with ⟨b', f | i⟩ <;> rw [hb] at hplace <;> exact hplace

theorem Declared.runAll (hd : b.Declared) (h : b.WellFormed) {as : List Action}
    (has : ∀ a ∈ as, a.Declared) : (Action.runAll b as).Declared := by
  induction as generalizing b with
  | nil => exact hd
  | cons a as ih =>
    exact ih (hd.run h (has a List.mem_cons_self)) (wellFormed_run h a)
      fun a' ha' => has a' (List.mem_cons_of_mem a ha')

/-- At every moment of a history on which target, premises and parameters are of the kinds they should
be, the strict check ends with the report of the review. Each piece has one status; what a cached
status rests on is there; the goal has a status; and incomplete is what lacks a wire or a derived
premise. -/
theorem check_total (o : Origin) (as : List Action) (hd : (Action.runAll o.board as).Declared)
    (c : CheckerSettings) :
    let b := Action.runAll o.board as
    ∃ r, b.strictCheck c = .ok r ∧ (b.review c).1 = .ok r ∧
      (r.statuses.map Prod.fst).Nodup ∧ (∀ i, i ∈ r.statuses.map Prod.fst ↔ i ∈ b.ids) ∧
      (∀ p ∈ b.pieces, ∀ f open_, p.cache = some (.derived f open_) → ∀ a ∈ open_,
        ∃ q g, b.piece? a = some q ∧ q.kind = .assumption ∧ q.params.formula = some g) ∧
      (∀ g, b.goal = some g → ∃ st, r.statuses.status? g = some st) ∧
      ∀ p ∈ b.pieces,
        ((∃ missing blocked, r.statuses.status? p.id = some (.incomplete missing blocked)) ↔
          none ∈ p.slots ∨ ∃ j, some j ∈ p.slots ∧
            ¬ ∃ f open_, r.statuses.status? j = some (.derived f open_)) := by
  intro b
  obtain ⟨hb, hc⟩ : b.WellFormed ∧ b.Current := invariant_runAll (invariant_origin o) as
  have hrules : ∀ i p, b.piece? i = some p →
      b.statuses.status? i = some (statusOf b p b.statuses) :=
    fun i p hp => hc.status?_statuses hb hp
  obtain ⟨r, hr⟩ := hd.typed.exists_review hc c
  have hreport : r = b.reportOf c b.statuses := (report_of_review hr).2
  have hstatuses : r.statuses = b.statuses := statuses_of_review hr
  have hstrict := hd.typed.strictCheck_eq hb (fun i d hi => hd.upholds hb hc hi) c
  refine ⟨r, hstrict.trans (congrArg Except.ok hreport.symm), hr, ?_⟩
  rw [hstatuses]
  refine ⟨nodup_statuses hb, fun i => ?_, fun p hp f open_ hcache a ha => ?_, fun g hg => ?_,
    fun p hp => ?_⟩
  · rw [map_fst_statuses hb, mem_order hb]
  · have hpiece := piece?_of_mem hb.nodup hp
    have hstatus : b.statuses.status? p.id = some (.derived f open_) := by
      rw [status?_statuses hb hpiece, hcache]
      rfl
    exact exists_assumption hb hrules (mem_ids_of_piece? hpiece)
      (d := ⟨f, open_⟩) (Statuses.conclusion?_eq_some_iff.mpr hstatus) ha
  · obtain ⟨p, hp, -⟩ := hb.goal g hg
    exact ⟨_, hrules g p hp⟩
  · have hpiece := piece?_of_mem hb.nodup hp
    have hderived : ∀ j, (¬ ∃ f open_, b.statuses.status? j = some (.derived f open_)) ↔
        b.statuses.conclusion? j = none := by
      intro j
      rw [Statuses.conclusion?]
      cases b.statuses.status? j with
      | none => simp
      | some st => cases st <;> simp
    simp only [hderived, hrules p.id p hpiece, Option.some.injEq, ← mem_premises]
    exact statusOf_incomplete_iff (hb.arity p.id p hpiece)

/-- A universal over a name with the reserved mark, an existential over the empty name and an
implication without a hypothesis, all on one assumption, and a conjunction that loses a premise after
it was reviewed. -/
def blemished : List Action :=
  let place (kind : String) (column : Int) (fields : List (String × ParamValue)) : Action :=
    .edit (.add (.text kind) (some (.cell (column, 0))) fields)
  [place "assumption" 0 [("formula", .formula (some (.atom "P" ["a"])))],
    place "forall_intro" 1 [("variable", .raw (.text "x!")), ("term", .raw (.text "a"))],
    place "exists_intro" 2 [("variable", .raw (.text ""))], place "implies_intro" 3 [],
    place "goal" 4 [], place "assumption" 5 [("formula", .formula (some (.atom "Q" [])))],
    place "and_intro" 6 [], .edit (.wire 2 0 1), .edit (.wire 3 0 1), .edit (.wire 4 0 1),
    .edit (.wire 5 0 2), .edit (.wire 7 0 1), .edit (.wire 7 1 6), .check .standard,
    .edit (.remove 6)]

theorem declared_blemished : ∀ a ∈ blemished, a.Declared := by
  have hnames : isUsableName "P" = true ∧ isUsableName "a" = true ∧ isUsableName "Q" = true := by
    decide
  simpa [blemished, Action.Declared, Params.ofFields, Params.set, Params.empty, Params.declared_iff,
    Params.TextNames, Formula.WellNamed, and_assoc] using hnames

def blemishedBoard : Board :=
  Action.runAll (Origin.fresh (some (.atom "P" [])) none none Palette.full).board blemished

theorem check_total_blemished :
    ∃ r, blemishedBoard.strictCheck .standard = .ok r ∧ (blemishedBoard.review .standard).1 = .ok r ∧
      r.statuses.status? 2 = some (.violated ⟨some 2, .unusableName (.text "x!")⟩) ∧
      (∃ missing blocked, r.statuses.status? 5 = some (.incomplete missing blocked)) ∧
      ∃ missing blocked, r.statuses.status? 7 = some (.incomplete missing blocked) := by
  have ho : (Origin.fresh (some (.atom "P" [])) none none Palette.full).board.Declared :=
    ⟨rfl, by simp [Origin.board, empty], by simp [Origin.board, empty]⟩
  obtain ⟨r, hstrict, hr, -, -, -, -, hincomplete⟩ :=
    check_total _ blemished (ho.runAll (wellFormed_origin _) declared_blemished) .standard
  have htwo : r.statuses.status? 2 = some (.violated ⟨some 2, .unusableName (.text "x!")⟩) := by
    rw [statuses_of_review hr]
    decide_cbv
  have hfive : (blemishedBoard.piece? 5).map Piece.slots = some [some 2] := by decide_cbv
  have hseven : (blemishedBoard.piece? 7).map Piece.slots = some [some 1, none] := by decide_cbv
  obtain ⟨p, hp, hslots⟩ := Option.map_eq_some_iff.mp hfive
  obtain ⟨q, hq, hslots'⟩ := Option.map_eq_some_iff.mp hseven
  have hgoal := (hincomplete p (mem_of_piece? hp)).mpr (.inr ⟨2, by simp [hslots], by simp [htwo]⟩)
  have hconjunction := (hincomplete q (mem_of_piece? hq)).mpr (.inl (by simp [hslots']))
  rw [id_of_piece? hp] at hgoal
  rw [id_of_piece? hq] at hconjunction
  exact ⟨r, hstrict, hr, htwo, hgoal, hconjunction⟩

end Board

end DeductionBoard
