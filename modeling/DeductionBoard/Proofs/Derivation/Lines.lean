import DeductionBoard.Derivation.Steps
import DeductionBoard.Proofs.Board.Revision
import DeductionBoard.Proofs.Board.Schedule
import DeductionBoard.Proofs.Derivation.Strict
import Mathlib

/-! A derivation as numbered lines. A line gives the numbers of the lines of its premises as far as
there are any, so that a missing number would not show. None is missing: a piece that derives
something has all its slots wired from pieces that derive something, and these are checked before
it. Main result: with the current report of a board, each piece that derives something among the
goal and what it depends on has one line, and no other piece has; a line cites the lines of all its
premises in slot order, and only earlier ones; and where the goal is derived, everything above it is
listed and the goal comes last. -/

namespace DeductionBoard

open DeductionBoard.Derivation Relation

/-- What is found for every value stands in the order of the values. -/
theorem forall₂_filterMap {α β : Type} {R : α → β → Prop} {f : α → Option β} {xs : List α}
    (h : ∀ x ∈ xs, ∃ y, f x = some y ∧ R x y) : List.Forall₂ R xs (xs.filterMap f) := by
  induction xs with
  | nil => exact .nil
  | cons x xs ih =>
    obtain ⟨hx, hxs⟩ := List.forall_mem_cons.mp h
    obtain ⟨y, hy, hxy⟩ := hx
    rw [List.filterMap_cons_some hy]
    exact .cons hxy (ih hxs)

namespace Board

variable {b : Board} {c : CheckerSettings} {r : Report} {g i j : PieceId} {p : Piece}
  {l : List PieceId} {ls : List Line}

/-- The line cites the lines of its premises in slot order, and all of them among the first `n`. -/
def Line.Cites (ls : List Line) (n : Nat) (l : Line) : Prop :=
  List.Forall₂ (fun slot k => 1 ≤ k ∧ k ≤ n ∧ ∃ l', ls[k - 1]? = some l' ∧ slot = some l'.piece.id)
    l.piece.slots l.references

/-- Lines that present the derivation of the goal. -/
structure Presents (b : Board) (r : Report) (ls : List Line) : Prop where
  /-- No piece has two lines. -/
  nodup : (ls.map fun l => l.piece.id).Nodup
  /-- The pieces with a line: those that derive something among the goal and what it depends on. -/
  listed : ∀ i, (i ∈ ls.map fun l => l.piece.id) ↔ ∃ g, r.goal = some g ∧ ReflTransGen b.Feeds i g ∧
    ∃ f open_, r.statuses.status? i = some (.derived f open_)
  /-- A line shows its piece and what that derives. -/
  shown : ∀ l ∈ ls, b.piece? l.piece.id = some l.piece ∧
    ∃ open_, r.statuses.status? l.piece.id = some (.derived l.formula open_)
  /-- Lines cite earlier lines. -/
  cites : ∀ n (l : Line), ls[n]? = some l → l.Cites ls n
  /-- Where the goal is derived, everything above it is listed. -/
  complete : ∀ g f open_, r.goal = some g → r.statuses.status? g = some (.derived f open_) →
    ∀ i, TransGen b.Feeds i g → i ∈ ls.map fun l => l.piece.id
  last : ∀ g f open_, r.goal = some g → r.statuses.status? g = some (.derived f open_) →
    (ls.map fun l => l.piece.id).getLast? = some g

/-! ### One line after another -/

/-- The lines of a list of pieces. -/
def linesOf (b : Board) (r : Report) (l : List PieceId) : List Line :=
  l.foldl (fun ls i => ls ++ (b.lineOf? r ls i).toList) []

@[simp] theorem linesOf_concat (b : Board) (r : Report) (l : List PieceId) (i : PieceId) :
    b.linesOf r (l ++ [i]) = b.linesOf r l ++ (b.lineOf? r (b.linesOf r l) i).toList := by
  rw [linesOf, List.foldl_concat]
  rfl

theorem lineOf?_of_none (hi : r.statuses.conclusion? i = none) : b.lineOf? r ls i = none := by
  rw [lineOf?, hi]

theorem lineOf?_of_some {d : Conclusion} (hi : r.statuses.conclusion? i = some d)
    (hp : b.piece? i = some p) :
    b.lineOf? r ls i = some ⟨p, p.premises.filterMap (lineNumber? ls), d.formula⟩ := by
  rw [lineOf?, hi, hp]

/-- The pieces that get a line are those that derive something. -/
theorem map_id_linesOf (hl : ∀ i ∈ l, i ∈ b.ids) :
    ((b.linesOf r l).map fun l => l.piece.id) =
      l.filter fun i => (r.statuses.conclusion? i).isSome := by
  induction l using List.reverseRecOn with
  | nil => rfl
  | append_singleton l i ih =>
    obtain ⟨p, hp⟩ := exists_piece? (hl i (by simp))
    rw [linesOf_concat, List.map_append, List.filter_append,
      ih fun j hj => hl j (List.mem_append_left _ hj)]
    cases hi : r.statuses.conclusion? i with
    | none => simp [lineOf?_of_none hi, hi]
    | some d => simp [lineOf?_of_some hi hp, hi, id_of_piece? hp]

/-- A piece with a line is found under its number. -/
theorem exists_lineNumber? (hj : j ∈ ls.map fun l => l.piece.id) :
    ∃ k, lineNumber? ls j = some k ∧ 1 ≤ k ∧ k ≤ ls.length ∧
      ∃ l', ls[k - 1]? = some l' ∧ some j = some l'.piece.id := by
  obtain ⟨l', hl', hid⟩ := List.mem_map.mp hj
  have hsome : (ls.findIdx? fun l => l.piece.id = j).isSome = true := by
    rw [List.findIdx?_isSome, List.any_eq_true]
    exact ⟨l', hl', decide_eq_true hid⟩
  obtain ⟨n, hn⟩ := Option.isSome_iff_exists.mp hsome
  obtain ⟨hlt, hfound, -⟩ := List.findIdx?_eq_some_iff_getElem.mp hn
  refine ⟨n + 1, by rw [lineNumber?, hn]; rfl, by omega, hlt, ls[n], ?_, ?_⟩
  · exact List.getElem?_eq_getElem hlt
  · rw [of_decide_eq_true hfound]

/-- A line keeps its premises when lines are added. -/
theorem Line.Cites.append {n : Nat} {x : Line} (h : x.Cites ls n) (hn : n ≤ ls.length)
    (ts : List Line) : x.Cites (ls ++ ts) n := by
  refine List.Forall₂.imp (fun slot k hk => ?_) h
  obtain ⟨hpos, hle, l', hl', hslot⟩ := hk
  exact ⟨hpos, hle, l', by rw [List.getElem?_append_left (by omega), hl'], hslot⟩

/-- The line of a piece cites all its premises, since these derive something and have lines. -/
theorem cites_of_listed
    (hs : ∀ i p, b.piece? i = some p → r.statuses.status? i = some (statusOf b p r.statuses))
    (hp : b.piece? i = some p) {d : Conclusion} (hi : r.statuses.conclusion? i = some d)
    (hlisted : ∀ j, b.Feeds j i → (r.statuses.conclusion? j).isSome →
      j ∈ ls.map fun l => l.piece.id) :
    Line.Cites ls ls.length ⟨p, p.premises.filterMap (lineNumber? ls), d.formula⟩ := by
  have hstatus : statusOf b p r.statuses = d.status := by
    rw [← Option.some.injEq, ← hs i p hp, Statuses.conclusion?_eq_some_iff.mp hi]
  obtain ⟨hcomplete, hpremises, -⟩ := statusOf_eq_status_iff.mp hstatus
  rw [Line.Cites, slots_eq_of_isComplete hcomplete, List.forall₂_map_left_iff]
  refine forall₂_filterMap fun j hj => ?_
  exact exists_lineNumber? (hlisted j (feeds_of_mem_premises hp hj) (hpremises j hj))

theorem ProducersFirst.of_concat (h : b.ProducersFirst (l ++ [i])) : b.ProducersFirst l :=
  fun l₁ k l₂ heq => h l₁ k (l₂ ++ [i]) (by rw [heq, List.append_assoc, List.cons_append])

/-- Where producers come first, each line cites the lines of all its premises. -/
theorem cites_linesOf
    (hs : ∀ i p, b.piece? i = some p → r.statuses.status? i = some (statusOf b p r.statuses))
    (hl : ∀ i ∈ l, i ∈ b.ids) (hfirst : b.ProducersFirst l) {n : Nat} {x : Line}
    (hx : (b.linesOf r l)[n]? = some x) : x.Cites (b.linesOf r l) n := by
  -- a line looks at the lines before it only, so the list is taken from its end
  induction l using List.reverseRecOn generalizing n x with
  | nil => exact absurd hx (by simp [linesOf])
  | append_singleton l i ih =>
    have hl' : ∀ j ∈ l, j ∈ b.ids := fun j hj => hl j (List.mem_append_left _ hj)
    rw [linesOf_concat] at hx ⊢
    rcases Nat.lt_or_ge n (b.linesOf r l).length with hn | hn
    · rw [List.getElem?_append_left hn] at hx
      exact (ih hl' hfirst.of_concat hx).append hn.le _
    rw [List.getElem?_append_right hn] at hx
    obtain ⟨p, hp⟩ := exists_piece? (hl i (by simp))
    cases hi : r.statuses.conclusion? i with
    | none => exact absurd hx (by simp [lineOf?_of_none hi])
    | some d =>
      rw [lineOf?_of_some hi hp] at hx ⊢
      rw [Option.toList_some, List.getElem?_singleton] at hx
      split at hx
      · next hzero =>
        obtain rfl := Option.some.inj hx
        obtain rfl : n = (b.linesOf r l).length := by omega
        refine (cites_of_listed hs hp hi fun j hji hj => ?_).append le_rfl _
        rw [map_id_linesOf hl', List.mem_filter]
        exact ⟨hfirst l i [] rfl j hji, hj⟩
      · exact absurd hx (by simp)

/-- A line shows its piece and what that derives. -/
theorem shown_linesOf {x : Line} (hx : x ∈ b.linesOf r l) :
    b.piece? x.piece.id = some x.piece ∧
      ∃ open_, r.statuses.status? x.piece.id = some (.derived x.formula open_) := by
  induction l using List.reverseRecOn with
  | nil => exact absurd hx List.not_mem_nil
  | append_singleton l i ih =>
    rw [linesOf_concat, List.mem_append, Option.mem_toList] at hx
    rcases hx with hx | hx
    · exact ih hx
    rw [lineOf?] at hx
    split at hx
    · next d p hi hp =>
      obtain rfl := Option.some.inj hx
      obtain rfl := id_of_piece? hp
      exact ⟨hp, d.assumptions, Statuses.conclusion?_eq_some_iff.mp hi⟩
    · exact absurd hx (by simp)

/-! ### The pieces of the goal -/

theorem mem_contributing (h : b.WellFormed) : i ∈ b.contributing g ↔ ReflTransGen b.Feeds i g := by
  rw [contributing, List.mem_cons, mem_dependencies h.nodup h.wired,
    reflTransGen_iff_eq_or_transGen, eq_comm]

/-- Everything that a piece depends on stands before it. -/
theorem ProducersFirst.mem_of_transGen (h : b.ProducersFirst l) {l₁ l₂ : List PieceId}
    (heq : l = l₁ ++ g :: l₂) (hi : TransGen b.Feeds i g) : i ∈ l₁ := by
  induction hi using TransGen.head_induction_on with
  | single hig => exact h l₁ g l₂ heq _ hig
  | head hik _ ih =>
    obtain ⟨l₃, l₄, rfl⟩ := List.append_of_mem ih
    rw [List.append_assoc, List.cons_append] at heq
    exact List.mem_append_left _ (h l₃ _ _ heq _ hik)

/-- Pieces are left out together with what hangs on them. -/
theorem ProducersFirst.filter {P : PieceId → Bool} (h : b.ProducersFirst l)
    (hP : ∀ i j, P i = true → b.Feeds j i → P j = true) : b.ProducersFirst (l.filter P) := by
  intro l₁ i l₂ heq j hji
  obtain ⟨m₁, m₂, rfl, hm₁, hm₂⟩ := List.filter_eq_append_iff.mp heq
  obtain ⟨n₁, n₂, rfl, hnot, hi, -⟩ := List.filter_eq_cons_iff.mp hm₂
  have hj : P j = true := hP i j hi hji
  have hmem : j ∈ m₁ ++ n₁ := h (m₁ ++ n₁) i n₂ (List.append_assoc m₁ n₁ (i :: n₂)).symm j hji
  rcases List.mem_append.mp hmem with hj₁ | hj₂
  · exact hm₁ ▸ List.mem_filter.mpr ⟨hj₁, hj⟩
  · exact absurd hj (hnot j hj₂)

/-- The pieces of the goal in the order of checking. -/
def goalOrder (b : Board) (g : PieceId) : List PieceId :=
  b.order.filter fun i => i ∈ b.contributing g

theorem mem_goalOrder (h : b.WellFormed) (hg : g ∈ b.ids) :
    i ∈ b.goalOrder g ↔ ReflTransGen b.Feeds i g := by
  rw [goalOrder, List.mem_filter, decide_eq_true_eq, mem_contributing h, mem_order h]
  refine and_iff_right_of_imp fun hi => ?_
  rcases reflTransGen_iff_eq_or_transGen.mp hi with rfl | hig
  · exact hg
  · exact h.wired.mem_ids_of_transGen hig

theorem producersFirst_goalOrder (h : b.WellFormed) (g : PieceId) :
    b.ProducersFirst (b.goalOrder g) := by
  refine (schedules_order h).producersFirst.filter fun i j hi hji => ?_
  simp only [decide_eq_true_eq, mem_contributing h] at hi ⊢
  exact .head hji hi

/-- The goal is the last of its pieces. -/
theorem exists_goalOrder_eq (h : b.WellFormed) (hg : g ∈ b.ids) :
    ∃ l, b.goalOrder g = l ++ [g] := by
  obtain ⟨l₁, l₂, heq⟩ := List.append_of_mem ((mem_order h).mpr hg)
  obtain ⟨-, hnodup, hdisjoint⟩ := List.nodup_append.mp (heq ▸ order_nodup h)
  have hnone : l₂.filter (fun i => decide (i ∈ b.contributing g)) = [] := by
    refine List.filter_eq_nil_iff.mpr fun i hi hcontributes => ?_
    rw [decide_eq_true_eq, mem_contributing h, reflTransGen_iff_eq_or_transGen] at hcontributes
    rcases hcontributes with rfl | hig
    · exact (List.nodup_cons.mp hnodup).1 hi
    · have hbefore := (schedules_order h).producersFirst.mem_of_transGen heq hig
      exact hdisjoint i hbefore i (List.mem_cons_of_mem _ hi) rfl
  refine ⟨l₁.filter fun i => i ∈ b.contributing g, ?_⟩
  rw [goalOrder, heq, List.filter_append, List.filter_cons_of_pos, hnone]
  exact decide_eq_true List.mem_cons_self

/-- What a piece that derives something depends on derives something, too. -/
theorem isSome_conclusion?_of_transGen
    (hs : ∀ i p, b.piece? i = some p → r.statuses.status? i = some (statusOf b p r.statuses))
    (hig : TransGen b.Feeds i g) (hg : (r.statuses.conclusion? g).isSome) :
    (r.statuses.conclusion? i).isSome := by
  have hstep : ∀ j k, b.Feeds j k → (r.statuses.conclusion? k).isSome →
      (r.statuses.conclusion? j).isSome := by
    intro j k hjk hk
    obtain ⟨p, hp, hj⟩ := feeds_iff.mp hjk
    obtain ⟨d, hd⟩ := Option.isSome_iff_exists.mp hk
    exact (derives_of_conclusion? hs hp hd).1 j (mem_premises.mpr hj)
  induction hig using TransGen.head_induction_on with
  | single hig => exact hstep _ _ hig hg
  | head hjk _ ih => exact hstep _ _ hjk ih

/-- The lines of a table that follows the rules. -/
theorem presents_lines (h : b.WellFormed)
    (hs : ∀ i p, b.piece? i = some p → r.statuses.status? i = some (statusOf b p r.statuses))
    (hgoal : r.goal = b.goal) : b.Presents r (b.lines r) := by
  cases hg : r.goal with
  | none =>
    have hlines : b.lines r = [] := by rw [lines, hg]
    rw [hlines]
    constructor <;> simp [hg]
  | some g =>
    have hlines : b.lines r = b.linesOf r (b.goalOrder g) := by
      rw [lines, hg]
      rfl
    obtain ⟨p, hp, -⟩ := h.goal g (hgoal.symm.trans hg)
    have hids := mem_ids_of_piece? hp
    have horder : ∀ i ∈ b.goalOrder g, i ∈ b.ids := fun i hi =>
      (mem_order h).mp (List.mem_of_mem_filter hi)
    have hmap := map_id_linesOf (r := r) horder
    rw [hlines]
    constructor
    · rw [hmap]
      exact ((order_nodup h).filter _).filter _
    · intro i
      rw [hmap, List.mem_filter, mem_goalOrder h hids, Statuses.isSome_conclusion?_iff]
      simp [hg]
    · exact fun l hl => shown_linesOf hl
    · exact fun n l hl => cites_linesOf hs horder (producersFirst_goalOrder h g) hl
    · intro g' f open_ hg' hst i hi
      obtain rfl := Option.some.inj (hg.symm.trans hg')
      have hd := isSome_conclusion?_of_transGen hs hi (Statuses.isSome_conclusion?_iff.mpr ⟨f, open_, hst⟩)
      rw [hmap, List.mem_filter, mem_goalOrder h hids]
      exact ⟨hi.to_reflTransGen, hd⟩
    · intro g' f open_ hg' hst
      obtain rfl := Option.some.inj (hg.symm.trans hg')
      obtain ⟨l, hl⟩ := exists_goalOrder_eq h hids
      rw [hmap, hl, List.filter_append, List.filter_cons_of_pos, List.filter_nil,
        List.getLast?_concat]
      exact Statuses.isSome_conclusion?_iff.mpr ⟨f, open_, hst⟩

/-- Each line begins with its number. -/
theorem exists_text_eq (n : Nat) (x : Line) : ∃ rest, x.text n = toString n ++ ". " ++ rest := by
  simp only [Line.text, String.append_assoc]
  exact ⟨_, rfl⟩

/-- At every moment of a history and with a report that is current there, the steps are the lines of
a derivation of the goal, numbered from one. -/
theorem steps_present (o : Origin) (as : List Action) (m n : Nat) (c : CheckerSettings) (r : Report)
    (hr : ((moment o as m).review c).1 = .ok r) (hcurrent : (moment o as n).revision = r.revision) :
    let b := moment o as n
    b.Presents r (b.lines r) ∧ (b.steps r).length = (b.lines r).length ∧
      ∀ k (l : Line), (b.lines r)[k]? = some l → (b.steps r)[k]? = some (l.text (k + 1)) ∧
        ∃ rest, l.text (k + 1) = toString (k + 1) ++ ". " ++ rest := by
  intro b
  obtain ⟨hb, hc⟩ : b.WellFormed ∧ b.Current := invariant_moment o as n
  have hrevision : (moment o as m).revision = (moment o as n).revision :=
    (revision_of_review hr).symm.trans hcurrent.symm
  have hr : (b.review c).1 = .ok r := ((moment_of_revision_eq hrevision).2.1 c).symm.trans hr
  have hstatuses : r.statuses = b.statuses := statuses_of_review hr
  have hgoal : r.goal = b.goal := by
    rw [(report_of_review hr).2]
    rfl
  refine ⟨presents_lines hb (fun i p hp => ?_) hgoal, List.length_mapIdx, fun k l hl => ⟨?_, ?_⟩⟩
  · rw [hstatuses]
    exact hc.status?_statuses hb hp
  · rw [steps, List.getElem?_mapIdx, hl]
    rfl
  · exact exists_text_eq (k + 1) l

/-- A conjunction that uses one assumption twice, discharged on the way to the goal, next to an
assumption that nothing uses; then a check and an edit that fails. -/
def doubled : List Action :=
  let place (kind : String) (column : Int) (fields : List (String × ParamValue)) : Action :=
    .edit (.add (.text kind) (some (.cell (column, 0))) fields)
  [place "goal" 0 [], place "assumption" 1 [("formula", .formula (some (.atom "P" [])))],
    place "assumption" 2 [("formula", .formula (some (.atom "Q" [])))],
    place "implies_intro" 3 [("hypothesis", .formula (some (.atom "P" [])))],
    place "and_intro" 4 [], .edit (.wire 1 0 4), .edit (.wire 4 0 5), .edit (.wire 5 0 2),
    .edit (.wire 5 1 2), .check .standard, .edit (.remove 9)]

def tautology : Origin :=
  .fresh (some (.imp (.atom "P" []) (.conj (.atom "P" []) (.atom "P" [])))) none none Palette.full

theorem steps_present_doubled :
    ∃ r, ((moment tautology doubled 9).review .standard).1 = .ok r ∧
      (moment tautology doubled 11).Presents r ((moment tautology doubled 11).lines r) ∧
      (moment tautology doubled 11).steps r = ["1. ASSUME ⊢ P", "2. ∧I [1, 1] ⊢ P ∧ P",
        "3. →I (discharging P) [2] ⊢ P → P ∧ P", "4. GOAL [3] ⊢ P → P ∧ P"] := by
  have hr := review_eq_check (b := moment tautology doubled 9) (c := .standard)
    (by decide_cbv) (by decide_cbv)
  have hrevision : (moment tautology doubled 11).revision =
      ((moment tautology doubled 9).check .standard).1.revision := by
    decide_cbv
  have hsteps : (moment tautology doubled 11).steps ((moment tautology doubled 9).check .standard).1 =
      ["1. ASSUME ⊢ P", "2. ∧I [1, 1] ⊢ P ∧ P", "3. →I (discharging P) [2] ⊢ P → P ∧ P",
        "4. GOAL [3] ⊢ P → P ∧ P"] := by
    decide_cbv
  have hpresents := (steps_present tautology doubled 9 11 .standard _ (congrArg Prod.fst hr)
    hrevision).1
  exact ⟨_, congrArg Prod.fst hr, hpresents, hsteps⟩

end Board

end DeductionBoard
