import DeductionBoard.Derivation.Goal
import DeductionBoard.Proofs.Derivation.Incremental
import DeductionBoard.Proofs.Derivation.Soundness
import DeductionBoard.Proofs.Query.Header

/-! Open assumptions. What a piece of a board rests on is found from its premises, step by step; seen
from the whole board, an assumption is open under a piece exactly when some path of wires leads from
the one to the other without a piece that discharges it. The hypotheses of the goal are its open
assumptions by ascending number, each formula once, and they are the hypotheses of its query. -/

namespace DeductionBoard

open DeductionBoard.Derivation Relation

variable {b : Board} {a i j : PieceId} {p : Piece} {d : Conclusion} {s : Statuses}
  {c : CheckerSettings} {r : Report}

/-- The piece closes what is assumed. -/
def Piece.Discharges (p : Piece) (assumed : Option Formula) : Prop :=
  p.kind.discharges = true ∧ p.params.hypothesis = assumed

/-! ### One step -/

namespace Derivation.Context

variable {x : Context} {ps : List Conclusion}

theorem mem_discharge {h : Formula} {open_ : List PieceId} (hk : x.piece.kind.discharges = true)
    (hh : x.piece.params.hypothesis = some h) :
    a ∈ x.discharge h open_ ↔ a ∈ open_ ∧ ¬ x.piece.Discharges (x.board.assumed? a) := by
  rw [discharge, List.mem_filter, decide_eq_true_eq, Piece.Discharges, hh]
  simp only [hk, true_and, ne_eq, eq_comm]

/-- An assumption rests on itself. Every other piece rests on what its premises rest on and it does
not discharge. -/
theorem Derives.mem_assumptions_iff (h : Derives x ps d) :
    a ∈ d.assumptions ↔ (x.piece.kind = .assumption ∧ a = x.piece.id) ∨
      x.piece.kind ≠ .assumption ∧ (∃ e ∈ ps, a ∈ e.assumptions) ∧
        ¬ x.piece.Discharges (x.board.assumed? a) := by
  -- a rule that discharges nothing hands on what is open in its premises
  have hpass : x.piece.kind.discharges = false → x.piece.kind ≠ .assumption → ∀ {open_ : Prop},
      open_ ↔ (x.piece.kind = .assumption ∧ a = x.piece.id) ∨
        x.piece.kind ≠ .assumption ∧ open_ ∧ ¬ x.piece.Discharges (x.board.assumed? a) := by
    intro hk hne open_
    simp [Piece.Discharges, hk, hne]
  cases h with
  | assumption hk hf => simp [hk]
  | goal hk => simpa using hpass (by simp [hk, RuleKind.discharges]) (by simp [hk])
  | conjunction hk =>
    simpa [Ascending.mem_union] using hpass (by simp [hk, RuleKind.discharges]) (by simp [hk])
  | disjunctionLeft hk ho hs =>
    simpa using hpass (by simp [hk, RuleKind.discharges]) (by simp [hk])
  | disjunctionRight hk ho hs =>
    simpa using hpass (by simp [hk, RuleKind.discharges]) (by simp [hk])
  | implication hk hh => simp [mem_discharge (by rw [hk]; rfl) hh, hk]
  | negation hk hh hq => simp [mem_discharge (by rw [hk]; rfl) hh, hk, Ascending.mem_union]
  | @quantification p q v t body hk hv ht huv hut hfree hbody hapart =>
    cases q <;> simpa using hpass (by rw [hk]; rfl) (by simp [hk, Construction.quantifierKind])
  | vacuous hk hv ht huv hut hfree hapart =>
    have hkind : x.piece.kind.discharges = false ∧ x.piece.kind ≠ .assumption := by
      cases hkind : x.piece.kind <;> simp_all [RuleKind.binds, RuleKind.discharges]
    simpa using hpass hkind.1 hkind.2

/-- Every rule lists the open assumptions by ascending number. -/
theorem Derives.ascending (h : Derives x ps d)
    (hps : ∀ e ∈ ps, e.assumptions.Pairwise (· < ·)) : d.assumptions.Pairwise (· < ·) := by
  cases h with
  | assumption => exact List.pairwise_singleton _ _
  | conjunction => exact Ascending.pairwise_union (hps _ List.mem_cons_self)
  | implication => exact (hps _ List.mem_cons_self).filter _
  | negation => exact (Ascending.pairwise_union (hps _ List.mem_cons_self)).filter _
  | goal => exact hps d List.mem_cons_self
  | @disjunctionLeft p | @disjunctionRight p | @quantification p | @vacuous p =>
    exact hps p List.mem_cons_self

end Derivation.Context

/-! ### The whole board -/

namespace Board

/-- A path of wires on which no piece behind the first one discharges what is assumed. -/
def Carries (b : Board) (assumed : Option Formula) : PieceId → PieceId → Prop :=
  ReflTransGen fun j i => b.Feeds j i ∧ ∀ p, b.piece? i = some p → ¬ p.Discharges assumed

/-- In a table that follows the rules, the open assumptions of a piece are the assumptions from which
a path leads to it that does not discharge them. -/
theorem mem_assumptions_iff (h : b.WellFormed)
    (hs : ∀ i p, b.piece? i = some p → s.status? i = some (statusOf b p s)) (hi : i ∈ b.ids)
    (hd : s.conclusion? i = some d) :
    a ∈ d.assumptions ↔
      ∃ p, b.piece? a = some p ∧ p.kind = .assumption ∧ b.Carries p.params.formula a i := by
  constructor
  · intro ha
    induction i using h.wellFounded.induction generalizing d with
    | _ i ih =>
    obtain ⟨p, hp⟩ := exists_piece? hi
    obtain ⟨-, hrule⟩ := derives_of_conclusion? hs hp hd
    rcases hrule.mem_assumptions_iff.mp ha with ⟨hk, rfl⟩ | ⟨-, ⟨e, he, hae⟩, hkeeps⟩
    · exact ⟨p, id_of_piece? hp ▸ hp, hk, id_of_piece? hp ▸ .refl⟩
    · obtain ⟨j, hj, hje⟩ := List.mem_filterMap.mp he
      have hji := feeds_of_mem_premises hp hj
      obtain ⟨q, hq, hk, hpath⟩ := ih j hji (h.wired j i hji) hje hae
      refine ⟨q, hq, hk, hpath.tail ⟨hji, fun p' hp' => ?_⟩⟩
      obtain rfl := Option.some.inj (hp.symm.trans hp')
      rwa [show (Context.mk b p).board.assumed? a = q.params.formula by
        rw [assumed?, hq, Option.bind_some]] at hkeeps
  · rintro ⟨q, hq, hk, hpath⟩
    induction hpath generalizing d with
    | refl =>
      obtain ⟨-, hrule⟩ := derives_of_conclusion? hs hq hd
      exact hrule.mem_assumptions_iff.mpr (.inl ⟨hk, (id_of_piece? hq).symm⟩)
    | @tail j i _ hji ih =>
      obtain ⟨p, hp, hj⟩ := feeds_iff.mp hji.1
      obtain ⟨hall, hrule⟩ := derives_of_conclusion? hs hp hd
      obtain ⟨e, he⟩ := Option.isSome_iff_exists.mp (hall j (mem_premises.mpr hj))
      refine hrule.mem_assumptions_iff.mpr (.inr ⟨?_, ⟨e, ?_, ih (h.wired j i hji.1) he⟩, ?_⟩)
      · -- a piece with a premise is no assumption
        intro hkind
        have hlength := h.arity i p hp
        rw [show p.kind = .assumption from hkind] at hlength
        rw [List.length_eq_zero_iff.mp hlength] at hj
        exact absurd hj List.not_mem_nil
      · exact List.mem_filterMap.mpr ⟨j, mem_premises.mpr hj, he⟩
      · rw [show (Context.mk b p).board.assumed? a = q.params.formula by
          rw [assumed?, hq, Option.bind_some]]
        exact hji.2 p hp

theorem ascending_of_conclusion? (h : b.WellFormed)
    (hs : ∀ i p, b.piece? i = some p → s.status? i = some (statusOf b p s)) (hi : i ∈ b.ids)
    (hd : s.conclusion? i = some d) : d.assumptions.Pairwise (· < ·) := by
  induction i using h.wellFounded.induction generalizing d with
  | _ i ih =>
  obtain ⟨p, hp⟩ := exists_piece? hi
  refine (derives_of_conclusion? hs hp hd).2.ascending fun e he => ?_
  obtain ⟨j, hj, hje⟩ := List.mem_filterMap.mp he
  have hji := feeds_of_mem_premises hp hj
  exact ih j hji (h.wired j i hji) hje

end Board

/-! ### The hypotheses of the goal -/

namespace Report

section Repeats
variable {seen : List Formula} {l : List (PieceId × Formula)} {f : Formula}

theorem withoutRepeats_sublist (seen : List Formula) (l : List (PieceId × Formula)) :
    (withoutRepeats seen l).Sublist l := by
  induction l generalizing seen with
  | nil => exact .slnil
  | cons e l ih =>
    rw [withoutRepeats]
    split
    · exact (ih seen).cons e
    · exact (ih (e.2 :: seen)).cons_cons e

/-- What is left of a formula is its first entry. -/
@[simp] theorem mem_withoutRepeats : (i, f) ∈ withoutRepeats seen l ↔
    f ∉ seen ∧ l.find? (fun e => e.2 = f) = some (i, f) := by
  induction l generalizing seen with
  | nil => simp [withoutRepeats]
  | cons e l ih =>
    obtain ⟨j, g⟩ := e
    rw [withoutRepeats]
    by_cases hg : g = f
    · subst hg
      split
      · next hseen => simp [ih, hseen]
      · next hseen => simp [ih, hseen, eq_comm]
    · have hgf : f ≠ g := Ne.symm hg
      split
      · simp [ih, hg]
      · simp [ih, hg, hgf]

theorem nodup_withoutRepeats : ((withoutRepeats seen l).map Prod.snd).Nodup := by
  induction l generalizing seen with
  | nil => exact List.nodup_nil
  | cons e l ih =>
    rw [withoutRepeats]
    split
    · exact ih
    · refine List.nodup_cons.mpr ⟨fun hmem => ?_, ih⟩
      obtain ⟨⟨i, f⟩, hf, rfl⟩ := List.mem_map.mp hmem
      exact (mem_withoutRepeats.mp hf).1 List.mem_cons_self

/-- In a list by ascending number, the first entry of a formula has the least number. -/
theorem find?_eq_some_iff_isLeast (h : l.Pairwise fun e e' => e.1 < e'.1) :
    l.find? (fun e => e.2 = f) = some (i, f) ↔ IsLeast {a | (a, f) ∈ l} i := by
  induction l with
  | nil => simp [IsLeast]
  | cons e l ih =>
    obtain ⟨j, g⟩ := e
    obtain ⟨hj, hl⟩ := List.pairwise_cons.mp h
    by_cases hg : g = f
    · subst hg
      have hleast : IsLeast {a | (a, g) ∈ (j, g) :: l} j := by
        refine ⟨List.mem_cons_self, fun a ha => ?_⟩
        rcases List.mem_cons.mp ha with heq | ha
        · exact (congrArg Prod.fst heq).ge
        · exact (hj _ ha).le
      rw [List.find?_cons_of_pos (by simp), Option.some.injEq]
      constructor
      · rintro ⟨⟩
        exact hleast
      · intro hi
        rw [hi.unique hleast]
    · have hset : {a | (a, f) ∈ (j, g) :: l} = {a | (a, f) ∈ l} := by
        ext a
        simp [Ne.symm hg]
      rw [List.find?_cons_of_neg (by simpa using hg), ih hl, hset]

end Repeats

end Report

namespace Board

theorem mem_assumptionFormulas (h : b.ids.Nodup) {f : Formula} :
    (a, f) ∈ b.assumptionFormulas ↔
      ∃ p, b.piece? a = some p ∧ p.kind = .assumption ∧ p.params.formula = some f := by
  simp only [assumptionFormulas, piecesOfKind, List.mem_filterMap, List.mem_filter,
    decide_eq_true_eq, Option.map_eq_some_iff, Prod.mk.injEq]
  constructor
  · rintro ⟨p, ⟨hp, hk⟩, g, hg, rfl, rfl⟩
    exact ⟨p, piece?_of_mem h hp, hk, hg⟩
  · rintro ⟨p, hp, hk, hf⟩
    exact ⟨p, ⟨mem_of_piece? hp, hk⟩, f, hf, id_of_piece? hp, rfl⟩

/-- A report knows what each assumption of its board assumes. -/
theorem lookup_assumptionFormulas (h : b.ids.Nodup) {f : Formula} (hp : b.piece? a = some p)
    (hk : p.kind = .assumption) (hf : p.params.formula = some f) :
    b.assumptionFormulas.lookup a = some f := by
  have hmem := (mem_assumptionFormulas h).mpr ⟨p, hp, hk, hf⟩
  cases hl : b.assumptionFormulas.lookup a with
  | none => exact absurd (List.lookup_eq_none_iff.mp hl _ hmem) (by simp)
  | some g =>
    obtain ⟨l, r, heq, -⟩ := List.lookup_eq_some_iff.mp hl
    obtain ⟨q, hq, -, hg⟩ := (mem_assumptionFormulas h).mp
      (heq ▸ List.mem_append_right _ List.mem_cons_self : (a, g) ∈ b.assumptionFormulas)
    obtain rfl := Option.some.inj (hp.symm.trans hq)
    exact hg.symm.trans hf

/-- The formulas of open assumptions by ascending number, each formula once, with the lowest number
that carries it. -/
structure Lists (b : Board) (open_ : List PieceId) (hs : List (PieceId × Formula)) : Prop where
  ascending : (hs.map Prod.fst).Pairwise (· < ·)
  once : (hs.map Prod.snd).Nodup
  lowest : ∀ i f, (i, f) ∈ hs ↔ IsLeast {a | a ∈ open_ ∧ b.assumed? a = some f} i
  complete : ∀ a ∈ open_, ∃ f ∈ hs.map Prod.snd, b.assumed? a = some f

/-- Without repeats, what the open assumptions assume is listed as it should be. -/
theorem lists_withoutRepeats {open_ : List PieceId} {l : List (PieceId × Formula)}
    (hl : l.Pairwise fun e e' => e.1 < e'.1)
    (hmem : ∀ a f, (a, f) ∈ l ↔ a ∈ open_ ∧ b.assumed? a = some f)
    (hall : ∀ a ∈ open_, ∃ f, b.assumed? a = some f) :
    b.Lists open_ (Report.withoutRepeats [] l) where
  ascending := List.pairwise_map.mpr (hl.sublist (Report.withoutRepeats_sublist _ _))
  once := Report.nodup_withoutRepeats
  lowest i f := by
    rw [Report.mem_withoutRepeats, Report.find?_eq_some_iff_isLeast hl]
    simp [hmem]
  complete a ha := by
    obtain ⟨f, hf⟩ := hall a ha
    have hfound : (l.find? fun e => e.2 = f).isSome = true :=
      List.find?_isSome.mpr ⟨(a, f), (hmem a f).mpr ⟨ha, hf⟩, by simp⟩
    obtain ⟨⟨i, g⟩, he⟩ := Option.isSome_iff_exists.mp hfound
    obtain rfl : g = f := by simpa using List.find?_some he
    exact ⟨g, List.mem_map_of_mem (Report.mem_withoutRepeats.mpr ⟨List.not_mem_nil, he⟩), hf⟩

theorem lists_hypotheses (hb : b.Reachable) (hr : (b.review c).1 = .ok r)
    (hd : r.goalConclusion = some d) : b.Lists d.assumptions r.hypotheses := by
  obtain ⟨hwf, hcurrent⟩ := hb.invariant
  obtain ⟨-, rfl⟩ := report_of_review hr
  obtain ⟨g, hg, hgd⟩ := Option.bind_eq_some_iff.mp hd
  have hgd : b.statuses.conclusion? g = some d := hgd
  have hs := fun i p hp => hcurrent.status?_statuses (i := i) (p := p) hwf hp
  obtain ⟨goal, hgoal, -⟩ := hwf.goal g hg
  have hids := mem_ids_of_piece? hgoal
  have hformula : ∀ a ∈ d.assumptions, ∃ f, b.assumed? a = some f ∧
      b.assumptionFormulas.lookup a = some f := by
    intro a ha
    obtain ⟨p, f, hp, hk, hf⟩ := exists_assumption hwf hs hids hgd ha
    refine ⟨f, ?_, lookup_assumptionFormulas hwf.nodup hp hk hf⟩
    rw [assumed?, hp, Option.bind_some, hf]
  rw [Report.hypotheses, hd]
  refine lists_withoutRepeats ?_ (fun a f => ?_) fun a ha => ?_
  · refine (ascending_of_conclusion? hwf hs hids hgd).filterMap _ fun a a' haa' e he e' he' => ?_
    obtain ⟨f, -, rfl⟩ := Option.map_eq_some_iff.mp he
    obtain ⟨f', -, rfl⟩ := Option.map_eq_some_iff.mp he'
    exact haa'
  · simp only [List.mem_filterMap, Option.map_eq_some_iff, Prod.mk.injEq]
    constructor
    · rintro ⟨a, ha, f, hf, rfl, rfl⟩
      obtain ⟨g, hg, hlookup⟩ := hformula a ha
      exact ⟨ha, hg.trans (hlookup.symm.trans hf)⟩
    · rintro ⟨ha, hf⟩
      obtain ⟨g, hg, hlookup⟩ := hformula a ha
      exact ⟨a, ha, f, hlookup.trans (hg.symm.trans hf), rfl, rfl⟩
  · obtain ⟨f, hf, -⟩ := hformula a ha
    exact ⟨f, hf⟩

end Board

namespace Report

/-- The query of a derived goal has the hypotheses of the report, in their order, under the numbers
of their pieces. -/
theorem hypotheses_queryUnder {st : EncoderSettings} {title : Option String} {q : Query}
    (hd : r.goalConclusion = some d) (hq : r.queryUnder st title = .ok q) :
    q.hypotheses = r.hypotheses.map Prod.snd ∧ q.conclusion = d.formula ∧
      q.script.labels = r.hypotheses.map (fun h => "hyp_" ++ toString h.1) ++ ["goal"] := by
  rw [queryUnder, hd] at hq
  cases ho : st.options with
  | error f =>
    rw [ho] at hq
    exact absurd hq (by simp)
  | ok o =>
    simp only [ho, query, hd, Query.Entailment.query] at hq
    split at hq
    · exact absurd hq (by simp)
    · obtain rfl := Except.ok.inj hq
      refine ⟨?_, rfl, ?_⟩
      · simp [Query.Entailment.formulas, entailment]
      · simp [Query.Entailment.labels_script, Query.Entailment.allLabels, entailment,
          Query.goalLabel]

end Report

namespace Board

/-- What is open under a derived piece is what some path of wires carries to it past every piece that
could discharge it. A report lists what is open under the goal by ascending number, each formula
once, and so does the query of the goal. -/
theorem open_iff_carried (hb : b.Reachable) :
    (∀ i f open_, b.statuses.status? i = some (.derived f open_) → ∀ a, a ∈ open_ ↔
      ∃ p, b.piece? a = some p ∧ p.kind = .assumption ∧ b.Carries p.params.formula a i) ∧
    ∀ c r, (b.review c).1 = .ok r → r.statuses = b.statuses ∧
      ∀ d, r.goalConclusion = some d → b.Lists d.assumptions r.hypotheses ∧
        ∀ st title q, r.queryUnder st title = .ok q →
          q.hypotheses = r.hypotheses.map Prod.snd ∧ q.conclusion = d.formula ∧
            q.script.labels = r.hypotheses.map (fun h => "hyp_" ++ toString h.1) ++ ["goal"] := by
  obtain ⟨hwf, hcurrent⟩ := hb.invariant
  refine ⟨fun i f open_ hi a => ?_, fun c r hr => ⟨statuses_of_review hr, fun d hd => ?_⟩⟩
  · have hd : b.statuses.conclusion? i = some ⟨f, open_⟩ := Statuses.conclusion?_eq_some_iff.mpr hi
    exact mem_assumptions_iff hwf (fun j p hp => hcurrent.status?_statuses hwf hp)
      (mem_ids_of_status? hwf hi) hd
  · exact ⟨lists_hypotheses hb hr hd, fun st title q => Report.hypotheses_queryUnder hd⟩

/-- A board on which an assumption reaches the goal both through a piece that discharges it and past
that piece, next to a second assumption of the same formula. -/
def reassumed : Board :=
  let f : Formula := .atom "P" []
  Action.runAll (empty (some (.conj (.conj (.imp f f) f) f)) (some [some f]) none Palette.full)
    [.edit (.add (.text "assumption") (some (.cell (0, 0))) [("formula", .formula (some f))]),
      .edit (.add (.text "implies_intro") (some (.cell (0, 1)))
        [("hypothesis", .formula (some f))]),
      .edit (.add (.text "and_intro") (some (.cell (0, 2))) []),
      .edit (.add (.text "assumption") (some (.cell (0, 3))) [("formula", .formula (some f))]),
      .edit (.add (.text "and_intro") (some (.cell (0, 4))) []),
      .edit (.add (.text "goal") (some (.cell (0, 5))) []),
      .edit (.wire 2 0 1), .edit (.wire 3 0 2), .edit (.wire 3 1 1), .edit (.wire 5 0 3),
      .edit (.wire 5 1 4), .edit (.wire 6 0 5)]

theorem open_iff_carried_reassumed :
    (∀ a, a ∈ [1, 4] ↔ ∃ p, reassumed.piece? a = some p ∧ p.kind = .assumption ∧
      reassumed.Carries p.params.formula a 6) ∧
    (¬ ∃ a p, reassumed.piece? a = some p ∧ p.kind = .assumption ∧
      reassumed.Carries p.params.formula a 2) ∧
    ∃ r, (reassumed.review .standard).1 = .ok r ∧ r.hypotheses = [(1, .atom "P" [])] ∧
      reassumed.Lists [1, 4] r.hypotheses ∧
      ∀ q, r.queryUnder .standard none = .ok q →
        q.hypotheses = [.atom "P" []] ∧ q.script.labels = ["hyp_1", "goal"] := by
  have hb : reassumed.Reachable := ⟨_, _, _, _, _, rfl⟩
  obtain ⟨hopen, hreport⟩ := open_iff_carried hb
  have hr : (reassumed.review .standard).1 = .ok (reassumed.check .standard).1 :=
    congrArg Prod.fst (review_eq_check (by decide_cbv) (by decide_cbv))
  have hp : reassumed.statuses.status? 2 = some (.derived (.imp (.atom "P" []) (.atom "P" [])) []) :=
    by decide_cbv
  have hg : reassumed.statuses.status? 6 = some (.derived
      (.conj (.conj (.imp (.atom "P" []) (.atom "P" [])) (.atom "P" [])) (.atom "P" [])) [1, 4]) := by
    decide_cbv
  have hhyps : (reassumed.check .standard).1.hypotheses = [(1, .atom "P" [])] := by decide_cbv
  have hd : (reassumed.check .standard).1.goalConclusion =
      some ⟨.conj (.conj (.imp (.atom "P" []) (.atom "P" [])) (.atom "P" [])) (.atom "P" []),
        [1, 4]⟩ := by
    decide_cbv
  obtain ⟨-, hgoal⟩ := hreport .standard _ hr
  obtain ⟨hlists, hquery⟩ := hgoal _ hd
  refine ⟨hopen 6 _ _ hg, ?_, _, hr, hhyps, hlists, fun q hq => ?_⟩
  · rintro ⟨a, hcarried⟩
    exact absurd ((hopen 2 _ _ hp a).mpr hcarried) List.not_mem_nil
  · obtain ⟨hfs, -, hlabels⟩ := hquery _ _ q hq
    rw [hhyps] at hfs hlabels
    exact ⟨hfs, hlabels⟩

end Board

end DeductionBoard
