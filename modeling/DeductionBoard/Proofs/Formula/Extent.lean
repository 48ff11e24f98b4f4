import DeductionBoard.Proofs.Formula.Grammar
import Mathlib.Data.List.Forall2

/-! How far the bodies of quantifiers go. The room of a body ends at the parenthesis that closes one
around it, or at the end of the text. No derivation gives a body more, and the parser never gives it
less. Main result: the parser accepts the texts whose tokens have a derivation, and returns the
formula of the one in which every body goes as far as in any. -/

namespace DeductionBoard

namespace Parser

/-- A derivation of all the tokens in which no body of a quantifier is shorter than in any other. -/
structure Furthest (ts : List Token) (f : Formula) (ns : List Nat) : Prop where
  derives : Derives (.layer .implication) ts f ns
  longest : ∀ {g ms}, Derives (.layer .implication) ts g ms → List.Forall₂ (· ≤ ·) ms ns

variable {l : Layer} {c : Chain} {q : Quantifier} {p : Place} {f g : Formula}
  {ts us rest : List Token} {t u v d : Token} {as : List String} {ns ms : List Nat}

/-! ### The room of a body -/

/-- The number of tokens before the parenthesis that closes one more than were opened, or before
the end. -/
def reach (depth : Nat) : List Token → Nat
  | [] => 0
  | t :: ts =>
    if t.kind = .endOfText then 0
    else if t.kind = .opening then reach (depth + 1) ts + 1
    else if t.kind = .closing then
      match depth with
      | 0 => 0
      | depth + 1 => reach depth ts + 1
    else reach depth ts + 1

/-- The room for the body of each quantifier in `ts`, behind its variable and dot, when `rest` comes
next. -/
def rooms : List Token → List Token → List Nat
  | [], _ => []
  | t :: ts, rest =>
    if t.kind = .all ∨ t.kind = .exist then reach 0 ((ts ++ rest).drop 2) :: rooms ts rest
    else rooms ts rest

variable {depth : Nat}

theorem reach_opening (ht : t.kind = .opening) :
    reach depth (t :: ts) = reach (depth + 1) ts + 1 := by
  simp [reach, ht]

theorem reach_closing (ht : t.kind = .closing) :
    reach (depth + 1) (t :: ts) = reach depth ts + 1 := by
  simp [reach, ht]

theorem reach_other (ht : t.kind ∉ [.endOfText, .opening, .closing]) :
    reach depth (t :: ts) = reach depth ts + 1 := by
  simp only [List.mem_cons, not_or] at ht
  simp [reach, ht]

@[simp] theorem rooms_append (ts us rest : List Token) :
    rooms (ts ++ us) rest = rooms ts (us ++ rest) ++ rooms us rest := by
  induction ts with
  | nil => rfl
  | cons t ts ih =>
    simp only [List.cons_append, rooms, ih, List.append_assoc]
    split <;> rfl

theorem rooms_other (ht : t.kind ∉ [.all, .exist]) : rooms (t :: ts) rest = rooms ts rest := by
  simp only [List.mem_cons, not_or] at ht
  simp [rooms, ht]

theorem rooms_quantified (ht : t.kind = quantifierToken q) (hv : v.kind = .identifier)
    (hd : d.kind = .dot) :
    rooms (t :: v :: d :: ts) rest = reach 0 (ts ++ rest) :: rooms ts rest := by
  cases q <;> simp [rooms, ht, hv, hd, quantifierToken]

theorem ReadsArguments.reach (h : ReadsArguments ts as rest) :
    reach (depth + 1) (ts ++ us) + rest.length = ts.length + reach depth (rest ++ us) := by
  induction h with
  | @last a u rest ha hu =>
    rw [List.cons_append, reach_other (by rw [ha]; decide), List.cons_append, reach_closing hu]
    simp only [List.length_cons]
    omega
  | @cons a c r rest as ha hc _ ih =>
    rw [List.cons_append, reach_other (by rw [ha]; decide), List.cons_append,
      reach_other (by rw [hc]; decide)]
    simp only [List.length_cons]
    omega

theorem ReadsArguments.rooms (h : ReadsArguments ts as []) : rooms ts rest = [] := by
  generalize hend : ([] : List Token) = r at h
  induction h with
  | @last a u r ha hu =>
    rw [← hend, rooms_other (by rw [ha]; decide), rooms_other (by rw [hu]; decide)]
    rfl
  | @cons a c r r' as ha hc _ ih =>
    rw [rooms_other (by rw [ha]; decide), rooms_other (by rw [hc]; decide)]
    exact ih hend

theorem rooms_parens (ht : t.kind = .opening) (hu : u.kind = .closing) :
    rooms (t :: (ts ++ [u])) rest = rooms ts (u :: rest) := by
  rw [rooms_other (by rw [ht]; decide), rooms_append, rooms_other (by rw [hu]; decide), rooms,
    List.append_nil]
  rfl

theorem rooms_application (ht : t.kind = .identifier) (hu : u.kind = .opening)
    (has : ReadsArguments ts as []) : rooms (t :: u :: ts) rest = [] := by
  rw [rooms_other (by rw [ht]; decide), rooms_other (by rw [hu]; decide), has.rooms]

/-- Parentheses in a derivation are matched. -/
theorem Derives.reach (h : Derives p ts f ns) :
    reach depth (ts ++ rest) = ts.length + reach depth rest := by
  induction h generalizing depth rest with
  | imp _ ht _ ihf ihg =>
    rw [List.append_assoc, ihf, List.cons_append, reach_other (by rw [ht]; decide), ihg]
    simp only [List.length_append, List.length_cons]
    omega
  | disjunct _ ih => exact ih
  | chain _ _ ihf ihg =>
    rw [List.append_assoc, ihf, ihg, List.length_append]
    omega
  | stop => simp
  | @step c _ _ _ _ _ _ _ _ ht _ _ ihg ihk =>
    rw [List.cons_append, List.append_assoc, reach_other (by rw [ht]; cases c <;> decide), ihg, ihk]
    simp only [List.length_append, List.length_cons]
    omega
  | neg ht _ ih =>
    rw [List.cons_append, reach_other (by rw [ht]; decide), ih, List.length_cons]
    omega
  | @quantified q _ _ _ _ _ _ ht hv hd _ ih =>
    simp only [List.cons_append]
    rw [reach_other (by rw [ht]; cases q <;> decide), reach_other (by rw [hv]; decide),
      reach_other (by rw [hd]; decide), ih]
    simp only [List.length_cons]
    omega
  | parens ht _ hu ih =>
    rw [List.cons_append, List.append_assoc, reach_opening ht, ih, List.cons_append,
      reach_closing hu]
    simp only [List.length_append, List.length_cons, List.length_nil, List.nil_append]
    omega
  | atom ht =>
    rw [List.cons_append, reach_other (by rw [ht]; decide)]
    simp only [List.length_cons, List.length_nil, List.nil_append]
    omega
  | application ht ho has =>
    have hargs := @ReadsArguments.reach _ rest _ _ depth has
    rw [List.length_nil, List.nil_append, Nat.add_zero] at hargs
    rw [List.cons_append, reach_other (by rw [ht]; decide), List.cons_append, reach_opening ho,
      hargs]
    simp only [List.length_cons]
    omega

theorem rooms_sign (ht : t.kind ∈ Layer.implication.joins) :
    rooms (t :: ts) rest = rooms ts rest := by
  refine rooms_other fun hkind => ?_
  revert ht hkind
  generalize t.kind = k
  cases k <;> decide

theorem Chain.token_mem_joins (c : Chain) : c.token ∈ Layer.implication.joins := by
  cases c <;> decide

/-- No body in a derivation has more than its room. -/
theorem Derives.le_rooms (h : Derives p ts f ns) :
    List.Forall₂ (· ≤ ·) ns (rooms ts rest) := by
  induction h generalizing rest with
  | imp _ ht _ ihf ihg =>
    rw [rooms_append, rooms_sign (by rw [ht]; decide)]
    exact List.rel_append ihf ihg
  | disjunct _ ih => exact ih
  | chain _ _ ihf ihg =>
    rw [rooms_append]
    exact List.rel_append ihf ihg
  | stop => exact .nil
  | step ht _ _ ihg ihk =>
    rw [rooms_sign (by rw [ht]; exact Chain.token_mem_joins _), rooms_append]
    exact List.rel_append ihg ihk
  | neg ht _ ih =>
    rw [rooms_other (by rw [ht]; decide)]
    exact ih
  | quantified ht hv hd hf ih =>
    rw [rooms_quantified ht hv hd, hf.reach]
    exact .cons (Nat.le_add_right _ _) ih
  | parens ht _ hu ih =>
    rw [rooms_parens ht hu]
    exact ih
  | atom ht =>
    rw [rooms_other (by rw [ht]; decide)]
    exact .nil
  | application ht ho has =>
    rw [rooms_application ht ho has]
    exact .nil

/-! ### The parser gives every body its room -/

/-- Tokens that can stand behind a formula. -/
def Closes (ts : List Token) : Prop :=
  ∀ t ∈ ts.head?, t.kind = .closing ∨ t.kind = .endOfText ∨ t.kind ∈ Layer.implication.joins

theorem closes_cons (ht : t.kind = .closing ∨ t.kind = .endOfText ∨
    t.kind ∈ Layer.implication.joins) : Closes (t :: ts) := by
  simpa [Closes] using ht

/-- There is no room where no formula can go on. -/
theorem Closes.reach_eq (h : Closes ts) (hend : Ended .implication ts) : reach 0 ts = 0 := by
  cases ts with
  | nil => rfl
  | cons t ts =>
    rcases h t rfl with ht | ht | ht
    · simp [reach, ht]
    · simp [reach, ht]
    · exact absurd (begins_cons.mpr rfl) (hend _ ht)

/-- In a chain, what stands behind an operand is the sign of the chain or what stands behind it. -/
theorem Reads.closes (h : Reads (.after c f) ts g rest) (hrest : Closes rest) : Closes ts := by
  cases h with
  | stop => exact hrest
  | step ht => exact closes_cons (.inr (.inr (by rw [ht]; exact c.token_mem_joins)))

/-- A reading is a derivation of the tokens that it takes, and each body has all its room. -/
theorem Reads.derives (h : Reads p ts f rest) (hrest : Closes rest) :
    ∃ us, ts = us ++ rest ∧ Derives p us f (rooms us rest) := by
  induction h with
  | @imp ts r rest t f g _ ht _ ihf ihg =>
    have hjoin : t.kind ∈ Layer.implication.joins := by rw [ht]; decide
    obtain ⟨vs, rfl, hg⟩ := ihg hrest
    obtain ⟨us, rfl, hf⟩ := ihf (closes_cons (.inr (.inr hjoin)))
    refine ⟨us ++ t :: vs, by simp, ?_⟩
    rw [rooms_append, rooms_sign hjoin]
    exact .imp hf ht hg
  | disjunct _ _ ih =>
    obtain ⟨us, rfl, hf⟩ := ih hrest
    exact ⟨us, rfl, .disjunct hf⟩
  | chain _ hread ihf ihg =>
    obtain ⟨us, rfl, hf⟩ := ihf (hread.closes hrest)
    obtain ⟨vs, rfl, hg⟩ := ihg hrest
    refine ⟨us ++ vs, by simp, ?_⟩
    rw [rooms_append]
    exact .chain hf hg
  | stop => exact ⟨[], rfl, .stop⟩
  | @step c t r r' rest f g k ht _ hread ihg ihk =>
    obtain ⟨us, rfl, hg⟩ := ihg (hread.closes hrest)
    obtain ⟨vs, rfl, hk⟩ := ihk hrest
    refine ⟨t :: (us ++ vs), by simp, ?_⟩
    rw [rooms_sign (by rw [ht]; exact c.token_mem_joins), rooms_append]
    exact .step ht hg hk
  | @neg t r rest f ht _ ih =>
    obtain ⟨us, rfl, hf⟩ := ih hrest
    refine ⟨t :: us, rfl, ?_⟩
    rw [rooms_other (by rw [ht]; decide)]
    exact .neg ht hf
  | @quantified q t v d r rest f ht hv hd hread ih =>
    obtain ⟨us, rfl, hf⟩ := ih hrest
    refine ⟨t :: v :: d :: us, rfl, ?_⟩
    rw [rooms_quantified ht hv hd, hf.reach, hrest.reach_eq hread.ended]
    exact .quantified ht hv hd hf
  | @parens t u r rest f ht _ hu ih =>
    obtain ⟨us, rfl, hf⟩ := ih (closes_cons (.inl hu))
    refine ⟨t :: (us ++ [u]), by simp, ?_⟩
    rw [rooms_parens ht hu]
    exact .parens ht hf hu
  | @atom t rest ht _ =>
    refine ⟨[t], rfl, ?_⟩
    rw [rooms_other (by rw [ht]; decide)]
    exact .atom ht
  | @application t o r rest as ht ho has =>
    obtain ⟨us, rfl, hus⟩ := has.exists_append
    refine ⟨t :: o :: us, rfl, ?_⟩
    rw [rooms_application ht ho hus]
    exact .application ht ho hus

/-- The part of the bodies and the part of the rooms agree when the whole does. -/
theorem Derives.eq_rooms (h : Derives p ts f ns) {ms ks : List Nat} {vs : List Token}
    (heq : ns ++ ms = rooms ts vs ++ ks) : ns = rooms ts vs ∧ ms = ks :=
  List.append_inj heq h.le_rooms.length_eq

/-- Nothing goes on with what is derived at a place. -/
def Place.Followed (p : Place) (ts : List Token) : Prop :=
  match p with
  | .layer l => Follows l ts
  | .after c _ => Follows c.layer ts

theorem follows_of_reach (h : reach 0 ts = 0) : Follows .implication ts := by
  cases ts with
  | nil => exact fun k _ => not_begins_nil
  | cons t ts =>
    refine follows_cons fun ht => ?_
    have hkind : t.kind ≠ .endOfText ∧ t.kind ≠ .closing := by
      constructor <;> intro hkind <;> rw [hkind] at ht <;> exact absurd ht (by decide)
    unfold reach at h
    rw [if_neg hkind.1] at h
    split at h
    · exact absurd h (Nat.succ_ne_zero _)
    · rw [if_neg hkind.2] at h
      exact absurd h (Nat.succ_ne_zero _)

/-- In a chain, behind an operand comes the sign of the chain or what follows the chain. -/
theorem Derives.follows (h : Derives (.after c f) us g ms) (hrest : Follows c.layer rest) :
    Follows c.operand (us ++ rest) := by
  cases h with
  | stop => exact hrest.mono (by cases c <;> decide)
  | step ht => exact follows_cons (by rw [ht]; cases c <;> decide)

/-- A derivation in which every body has all its room is what the parser reads. -/
theorem Derives.reads (h : Derives p ts f ns) (hns : ns = rooms ts rest)
    (hrest : p.Followed rest) : Reads p (ts ++ rest) f rest := by
  induction h generalizing rest with
  | imp hf ht _ ihf ihg =>
    rw [rooms_append, rooms_sign (by rw [ht]; decide)] at hns
    obtain ⟨hns, hms⟩ := hf.eq_rooms hns
    have hread := ihf hns (follows_cons (by rw [ht]; decide))
    rw [List.append_assoc]
    exact .imp hread ht (ihg hms hrest)
  | disjunct _ ih => exact .disjunct (ih hns (Follows.mono hrest (by decide))) (hrest _ (by decide))
  | chain hf hg ihf ihg =>
    rw [rooms_append] at hns
    obtain ⟨hns, hms⟩ := hf.eq_rooms hns
    rw [List.append_assoc]
    exact .chain (ihf hns (hg.follows hrest)) (ihg hms hrest)
  | @stop c f => exact .stop (hrest _ (by cases c <;> decide))
  | @step c _ _ _ _ _ _ _ _ ht hg hk ihg ihk =>
    rw [rooms_sign (by rw [ht]; exact c.token_mem_joins), rooms_append] at hns
    obtain ⟨hns, hms⟩ := hg.eq_rooms hns
    rw [List.cons_append, List.append_assoc]
    exact .step ht (ihg hns (hk.follows hrest)) (ihk hms hrest)
  | neg ht _ ih =>
    rw [rooms_other (by rw [ht]; decide)] at hns
    exact .neg ht (ih hns hrest)
  | quantified ht hv hd hf ih =>
    rw [rooms_quantified ht hv hd, hf.reach] at hns
    obtain ⟨hroom, hns⟩ := List.cons.inj hns
    exact .quantified ht hv hd (ih hns (follows_of_reach (by omega)))
  | @parens t u ts f ns ht _ hu ih =>
    rw [rooms_parens ht hu] at hns
    rw [List.cons_append, List.append_assoc]
    exact .parens ht (ih hns (follows_cons (by rw [hu]; decide))) hu
  | atom ht => exact .atom ht (hrest _ (by decide))
  | application ht ho has => exact .application ht ho (has.append _)

/-! ### Whole texts -/

theorem reach_le (ht : t.kind = .endOfText) (us ts : List Token) :
    reach depth (us ++ t :: ts) ≤ us.length := by
  induction us generalizing depth with
  | nil => simp [reach, ht]
  | cons u us ih =>
    rw [List.cons_append, List.length_cons]
    unfold reach
    split
    · exact Nat.zero_le _
    split
    · exact Nat.succ_le_succ ih
    split
    · split
      · exact Nat.zero_le _
      · exact Nat.succ_le_succ ih
    · exact Nat.succ_le_succ ih

/-- No token of a derivation marks the end. -/
theorem Derives.kind_ne_endOfText (h : Derives p ts f ns) : ∀ t ∈ ts, t.kind ≠ .endOfText := by
  intro t ht hkind
  obtain ⟨us, vs, rfl⟩ := List.append_of_mem ht
  have hall := @Derives.reach _ _ _ [] _ 0 h
  have hle := @reach_le _ 0 hkind us vs
  simp only [List.append_nil, List.length_append, List.length_cons] at hall
  omega

theorem Furthest.unique {ms : List Nat} (h : Furthest ts f ns) (h' : Furthest ts g ms) :
    ns = ms := by
  have heq : List.Forall₂ (· = ·) ns ms :=
    List.Forall₂.mp (fun _ _ hle hge => Nat.le_antisymm hle hge) (h'.longest h.derives)
      (List.Forall₂.flip (h.longest h'.derives))
  rwa [List.forall₂_eq_eq_eq] at heq

section Formula

variable {e : Token} (hts : ∀ t ∈ ts, t.kind ≠ .endOfText) (he : e.kind = .endOfText)

include he

theorem Derives.formula (h : Derives (.layer .implication) ts f ns) :
    ∃ g, formula (ts ++ [e]) = .ok g := by
  have hflow := h.flow .nil
  rw [List.append_nil] at hflow
  obtain ⟨g, rest, hread, hrest, -⟩ :=
    hflow.reads .implication [e] (follows_cons (by rw [he]; decide))
  obtain rfl := hrest.eq_nil hread.ended
  exact ⟨g, formula_eq_ok_iff.mpr ⟨[e], hread, by simpa using he⟩⟩

include hts

/-- The formula that is read has a derivation in which every body has all its room. -/
theorem furthest_of_formula (h : Parser.formula (ts ++ [e]) = .ok f) :
    Furthest ts f (rooms ts [e]) := by
  obtain ⟨rest, hread, hend⟩ := formula_eq_ok_iff.mp h
  obtain ⟨us, heq, hderives⟩ := hread.derives fun t ht => .inr (.inl (hend t ht))
  obtain ⟨rfl, rfl⟩ : us = ts ∧ rest = [e] := by
    cases rest using List.reverseRecOn with
    | nil =>
      rw [List.append_nil] at heq
      exact absurd he (hderives.kind_ne_endOfText e (heq ▸ by simp))
    | append_singleton rest t =>
      obtain ⟨rfl, ht⟩ := List.append_inj' ((List.append_assoc us rest [t]).trans heq.symm) rfl
      obtain rfl := List.singleton_inj.mp ht
      cases rest with
      | nil => simp
      | cons u rest => exact absurd (hend u rfl) (hts u (by simp))
  exact ⟨hderives, fun hg => hg.le_rooms⟩

theorem Furthest.formula (h : Furthest ts f ns) : Parser.formula (ts ++ [e]) = .ok f := by
  obtain ⟨g, hg⟩ := h.derives.formula he
  have hread := h.derives.reads (h.unique (furthest_of_formula hts he hg))
    (follows_cons (l := .implication) (by rw [he]; decide))
  exact formula_eq_ok_iff.mpr ⟨[e], hread, by simpa using he⟩

end Formula

end Parser

namespace Formula

open DeductionBoard.Parser

/-- The parser accepts a text of tokens exactly when the tokens, up to the mark at the end, have a
derivation, and its formula is that of the one derivation in which the body of every quantifier goes
as far as in any. -/
theorem parse_iff_derives {s : String} {ts : List Token} (h : Token.scan s.toList = .ok ts) :
    ((∃ f, parse s = .ok f) ↔ ∃ f ns, Derives (.layer .implication) ts.dropLast f ns) ∧
      ∀ f, parse s = .ok f ↔ ∃! ns, Furthest ts.dropLast f ns := by
  obtain ⟨us, e, rfl, hus, he⟩ := Token.exists_append_of_scan h
  rw [List.dropLast_concat]
  have hparse : ∀ f, parse s = .ok f ↔ formula (us ++ [e]) = .ok f := by
    intro f
    constructor
    · intro hf
      obtain ⟨ts, hts, hf⟩ := exists_tokens_of_parse hf
      obtain rfl := Except.ok.inj (h.symm.trans hts)
      exact hf
    · intro hf
      refine parse_of_scan (fun hblank => ?_) h hf
      -- a blank text has no token before the mark at its end, and these are no formula
      rw [Token.scan, Text.trimRight_eq_nil_iff.mpr (Text.trim_eq_nil_iff.mp hblank),
        Token.scanFrom_nil] at h
      obtain rfl : us = [] := by
        have hlength := congrArg List.length (Except.ok.inj h)
        simpa using hlength
      exact absurd (furthest_of_formula hus he hf).derives.ne_nil (by simp)
  refine ⟨⟨?_, ?_⟩, fun f => ⟨?_, ?_⟩⟩
  · rintro ⟨f, hf⟩
    exact ⟨f, _, (furthest_of_formula hus he ((hparse f).mp hf)).derives⟩
  · rintro ⟨f, ns, hf⟩
    obtain ⟨g, hg⟩ := hf.formula he
    exact ⟨g, (hparse g).mpr hg⟩
  · intro hf
    have hfurthest := furthest_of_formula hus he ((hparse f).mp hf)
    exact ⟨_, hfurthest, fun ms hms => hms.unique hfurthest⟩
  · rintro ⟨ns, hns, -⟩
    exact (hparse f).mpr (hns.formula hus he)

/-- A text with two derivations: the body of its quantifier may end before the last sign, and in the
formula that is read it does not. -/
theorem parse_iff_derives_ambiguous :
    let f : Formula := .conj (.atom "A" []) (.all "x" (.disj (.atom "B" []) (.atom "C" [])))
    let g : Formula := .disj (.conj (.atom "A" []) (.all "x" (.atom "B" []))) (.atom "C" [])
    ∃ ts, Token.scan "A∧∀x.B∨C".toList = .ok ts ∧
      Derives (.layer .implication) ts.dropLast g [1] ∧ parse "A∧∀x.B∨C" = .ok f ∧
        ∃! ns, Furthest ts.dropLast f ns := by
  intro f g
  have hscan : Token.scan "A∧∀x.B∨C".toList = .ok [⟨.identifier, "A", 0⟩, ⟨.and, "∧", 1⟩,
      ⟨.all, "∀", 2⟩, ⟨.identifier, "x", 3⟩, ⟨.dot, ".", 4⟩, ⟨.identifier, "B", 5⟩, ⟨.or, "∨", 6⟩,
      ⟨.identifier, "C", 7⟩, ⟨.endOfText, "", 8⟩] := by
    have htrim : Text.trimRight "A∧∀x.B∨C".toList = ['A', '∧', '∀', 'x', '.', 'B', '∨', 'C'] := by
      decide_cbv
    rw [Token.scan, htrim, Token.scanFrom_letter (k := .identifier) (by decide) (by decide),
      Token.scanFrom_letter (k := .and) (by decide) (by decide),
      Token.scanFrom_letter (k := .all) (by decide) (by decide),
      Token.scanFrom_letter (k := .identifier) (by decide) (by decide),
      Token.scanFrom_letter (k := .dot) (by decide) (by decide),
      Token.scanFrom_letter (k := .identifier) (by decide) (by decide),
      Token.scanFrom_letter (k := .or) (by decide) (by decide),
      Token.scanFrom_letter (k := .identifier) (by decide) (by decide), Token.scanFrom_nil]
    rfl
  have hparse : parse "A∧∀x.B∨C" = .ok f := parse_of_scan (by decide_cbv) hscan (by decide_cbv)
  have hatom : ∀ l (t : Token), t.kind = .identifier →
      Derives (.layer l) [t] (.atom t.text []) [] := by
    intro l t ht
    have hconj : Derives (.layer .conjunction) [t] (.atom t.text []) [] :=
      .chain (c := .and) (.atom ht) .stop
    have hdisj : Derives (.layer .disjunction) [t] (.atom t.text []) [] :=
      .chain (c := .or) hconj .stop
    cases l with
    | unary => exact .atom ht
    | conjunction => exact hconj
    | disjunction => exact hdisj
    | implication => exact .disjunct hdisj
  refine ⟨_, hscan, ?_, hparse, ((parse_iff_derives hscan).2 f).mp hparse⟩
  have hbody : Derives (.layer .unary) _ (.all "x" (.atom "B" [])) [1] :=
    .quantified (t := ⟨.all, "∀", 2⟩) (v := ⟨.identifier, "x", 3⟩) (d := ⟨.dot, ".", 4⟩) (q := .all)
      rfl rfl rfl (hatom .implication ⟨.identifier, "B", 5⟩ rfl)
  have hconj := Derives.chain (c := .and) (.atom (t := ⟨.identifier, "A", 0⟩) rfl)
    (.step (t := ⟨.and, "∧", 1⟩) rfl hbody .stop)
  exact .disjunct (.chain (c := .or) hconj
    (.step (c := .or) (t := ⟨.or, "∨", 6⟩) rfl (hatom .conjunction ⟨.identifier, "C", 7⟩ rfl) .stop))

end Formula

end DeductionBoard
