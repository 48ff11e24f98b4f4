import DeductionBoard.Proofs.Formula.Reading
import DeductionBoard.Proofs.Formula.Scanning
import Mathlib.Data.List.Permutation

/-! Printed formulas read back. At a layer that its strength allows, the parser reads a formula from
its own lexemes and stops where nothing continues it. Main result: the text of a formula is parsed as
that formula exactly when every name in it is a word that names no quantifier; whatever the parser
returns is such a formula. -/

namespace DeductionBoard

open Token (Kind Lexeme lexeme)

namespace Parser

/-- The least strength of what is read at a layer as it stands. -/
def Layer.place : Layer → Nat
  | .implication => 0
  | .disjunction => 2
  | .conjunction => 3
  | .unary => 4

/-- The tokens that would continue a formula of a layer. -/
def Layer.continuations : Layer → List Kind
  | .implication => [.opening, .and, .or, .arrow]
  | .disjunction => [.opening, .and, .or]
  | .conjunction => [.opening, .and]
  | .unary => [.opening]

/-- Nothing continues a formula of the layer. -/
def Follows (l : Layer) (ts : List Token) : Prop := ∀ k ∈ l.continuations, ¬ Begins k ts

variable {l m : Layer} {c : Chain} {f g : Formula} {ts r rest rest' : List Token} {t u : Token}

theorem follows_cons (ht : t.kind ∉ l.continuations) : Follows l (t :: r) := by
  intro k hk hbegins
  exact ht (begins_cons.mp hbegins ▸ hk)

theorem Follows.mono (h : Follows l rest) (hml : m.rank ≤ l.rank) : Follows m rest := by
  intro k hk
  refine h k ?_
  revert k
  cases m <;> cases l <;> first | decide | exact absurd hml (by decide)

/-- What is read at one layer is read at every looser layer that nothing continues. -/
theorem Reads.looser (h : Reads (.layer m) ts f rest) (hml : m.rank ≤ l.rank)
    (hrest : Follows l rest) : Reads (.layer l) ts f rest := by
  have hconj : Follows .conjunction rest → Reads (.layer .unary) ts f rest →
      Reads (.layer .conjunction) ts f rest :=
    fun hrest h => .chain (c := .and) h (.stop (hrest .and (by decide)))
  have hdisj : Follows .disjunction rest → Reads (.layer .conjunction) ts f rest →
      Reads (.layer .disjunction) ts f rest :=
    fun hrest h => .chain (c := .or) h (.stop (hrest .or (by decide)))
  have himp : Follows .implication rest → Reads (.layer .disjunction) ts f rest →
      Reads (.layer .implication) ts f rest :=
    fun hrest h => .disjunct h (hrest .arrow (by decide))
  cases m with
  | unary =>
    cases l with
    | unary => exact h
    | conjunction => exact hconj hrest h
    | disjunction => exact hdisj hrest (hconj (hrest.mono (by decide)) h)
    | implication =>
      exact himp hrest (hdisj (hrest.mono (by decide)) (hconj (hrest.mono (by decide)) h))
  | conjunction =>
    cases l with
    | unary => exact absurd hml (by decide)
    | conjunction => exact h
    | disjunction => exact hdisj hrest h
    | implication => exact himp hrest (hdisj (hrest.mono (by decide)) h)
  | disjunction =>
    cases l with
    | unary => exact absurd hml (by decide)
    | conjunction => exact absurd hml (by decide)
    | disjunction => exact h
    | implication => exact himp hrest h
  | implication =>
    cases l with
    | unary => exact absurd hml (by decide)
    | conjunction => exact absurd hml (by decide)
    | disjunction => exact absurd hml (by decide)
    | implication => exact h

/-- A formula is read from its own lexemes at the layers that its strength allows. As the first
operand of a chain of its own kind it is taken apart, and the chain goes on behind it. -/
structure Readable (f : Formula) : Prop where
  layer : ∀ {l ts rest}, ts.map lexeme = f.lexemes → l.place ≤ f.strength → Follows l rest →
    Reads (.layer l) (ts ++ rest) f rest
  chain : ∀ {c ts rest g rest'}, ts.map lexeme = f.lexemes → f.strength = c.layer.place →
    Follows c.operand rest → Reads (.after c f) rest g rest' →
      Reads (.layer c.layer) (ts ++ rest) g rest'

namespace Readable

/-- As the first operand of a chain, whole or taken apart. -/
theorem operand (h : Readable f) (hts : ts.map lexeme = f.lexemes)
    (hle : c.layer.place ≤ f.strength) (hrest : Follows c.operand rest)
    (hg : Reads (.after c f) rest g rest') : Reads (.layer c.layer) (ts ++ rest) g rest' := by
  rcases Nat.eq_or_lt_of_le hle with heq | hlt
  · exact h.chain hts heq.symm hrest hg
  · refine .chain (h.layer hts ?_ hrest) hg
    cases c <;> exact hlt

theorem parens (h : Readable f) (hts : ts.map lexeme = Formula.parenthesizedLexemes f.lexemes) :
    Reads (.layer .unary) (ts ++ rest) f rest := by
  obtain ⟨o, us, rfl, ho, hus⟩ := List.map_eq_cons_iff.mp hts
  obtain ⟨inside, closing, rfl, hinside, hclosing⟩ := List.map_eq_append_iff.mp hus
  obtain ⟨u, _, rfl, hu, hnil⟩ := List.map_eq_cons_iff.mp hclosing
  obtain rfl := List.map_eq_nil_iff.mp hnil
  have hkind : u.kind = .closing := congrArg Prod.fst hu
  have hread : Reads (.layer .implication) (inside ++ u :: rest) f (u :: rest) :=
    h.layer hinside (Nat.zero_le _) (follows_cons (by rw [hkind]; decide))
  have hsplit : o :: (inside ++ [u]) ++ rest = o :: (inside ++ u :: rest) := by simp
  rw [hsplit]
  exact .parens (congrArg Prod.fst ho) hread hkind

/-- A part is read at a layer that its place allows, in parentheses where it needs them. -/
theorem wrapped {place : Nat} (h : Readable f)
    (hts : ts.map lexeme = Formula.wrappedLexemes f.strength place f.lexemes)
    (hl : l.place ≤ place) (hrest : Follows l rest) : Reads (.layer l) (ts ++ rest) f rest := by
  unfold Formula.wrappedLexemes at hts
  split at hts
  · exact (h.parens hts).looser (by cases l <;> decide) hrest
  · exact h.layer hts (by omega) hrest

theorem wrapped_operand (h : Readable f)
    (hts : ts.map lexeme = Formula.wrappedLexemes f.strength c.layer.place f.lexemes)
    (hrest : Follows c.operand rest) (hg : Reads (.after c f) rest g rest') :
    Reads (.layer c.layer) (ts ++ rest) g rest' := by
  unfold Formula.wrappedLexemes at hts
  split at hts
  · exact .chain ((h.parens hts).looser (by cases c <;> decide) hrest) hg
  · exact h.operand hts (by omega) hrest hg

end Readable

/-! ### The kinds of formulas -/

theorem reads_arguments {as : List String} (hne : as ≠ [])
    (hts : ts.map lexeme = Formula.separatedLexemes as) (hu : u.kind = .closing) :
    ReadsArguments (ts ++ u :: rest) as rest := by
  induction as generalizing ts with
  | nil => exact absurd rfl hne
  | cons a as ih =>
    cases as with
    | nil =>
      obtain ⟨t, _, rfl, ht, hnil⟩ := List.map_eq_cons_iff.mp hts
      obtain rfl := List.map_eq_nil_iff.mp hnil
      obtain ⟨hkind, rfl⟩ := Prod.mk.inj ht
      exact .last hkind hu
    | cons b as =>
      obtain ⟨t, us, rfl, ht, hus⟩ := List.map_eq_cons_iff.mp hts
      obtain ⟨c, more, rfl, hc, hmore⟩ := List.map_eq_cons_iff.mp hus
      obtain ⟨hkind, rfl⟩ := Prod.mk.inj ht
      exact .cons hkind (congrArg Prod.fst hc) (ih (by simp) hmore)

theorem readable_atom (n : String) (args : List String) : Readable (.atom n args) where
  layer := by
    intro l ts rest hts _ hrest
    obtain ⟨t, us, rfl, ht, hus⟩ := List.map_eq_cons_iff.mp hts
    obtain ⟨hkind, rfl⟩ := Prod.mk.inj ht
    refine Reads.looser (m := .unary) ?_ (by cases l <;> decide) hrest
    split at hus
    · next hargs =>
      obtain rfl := List.isEmpty_iff.mp hargs
      obtain rfl := List.map_eq_nil_iff.mp hus
      exact .atom hkind (hrest.mono (m := .unary) (by cases l <;> decide) .opening (by decide))
    · next hargs =>
      obtain ⟨o, vs, rfl, ho, hvs⟩ := List.map_eq_cons_iff.mp hus
      obtain ⟨inside, closing, rfl, hinside, hclosing⟩ := List.map_eq_append_iff.mp hvs
      obtain ⟨u, _, rfl, hu, hnil⟩ := List.map_eq_cons_iff.mp hclosing
      obtain rfl := List.map_eq_nil_iff.mp hnil
      have hne : args ≠ [] := fun heq => hargs (List.isEmpty_iff.mpr heq)
      have hsplit : t :: o :: (inside ++ [u]) ++ rest = t :: o :: (inside ++ u :: rest) := by simp
      rw [hsplit]
      exact .application hkind (congrArg Prod.fst ho)
        (reads_arguments hne hinside (congrArg Prod.fst hu))
  chain := by
    intro c ts rest g rest' _ hstrength
    change 5 = c.layer.place at hstrength
    cases c <;> exact absurd hstrength (by decide)

theorem readable_neg (h : Readable f) : Readable (.neg f) where
  layer := by
    intro l ts rest hts _ hrest
    obtain ⟨t, us, rfl, ht, hus⟩ := List.map_eq_cons_iff.mp hts
    have hunary := hrest.mono (m := .unary) (by cases l <;> decide)
    have hneg : Reads (.layer .unary) (t :: (us ++ rest)) (.neg f) rest :=
      .neg (congrArg Prod.fst ht) (h.wrapped hus (by decide) hunary)
    exact hneg.looser (by cases l <;> decide) hrest
  chain := by
    intro c ts rest g rest' _ hstrength
    change 4 = c.layer.place at hstrength
    cases c <;> exact absurd hstrength (by decide)

theorem Chain.rank_layer_le (h : l.place ≤ c.layer.place) : c.layer.rank ≤ l.rank := by
  cases c <;> cases l <;> first | decide | exact absurd h (by decide)

theorem readable_chain (c : Chain) (hf : Readable f) (hg : Readable g) :
    Readable (.binary c.connective f g) := by
  have hstrength : (Formula.binary c.connective f g).strength = c.layer.place := by
    cases c <;> rfl
  have hplaces : c.connective.operandStrengths = (c.layer.place, c.operand.place) := by
    cases c <;> rfl
  have hsign : c.connective.lexeme.1 = c.token := by cases c <;> rfl
  have hchain : ∀ {ts rest k rest'}, ts.map lexeme = (Formula.binary c.connective f g).lexemes →
      Follows c.operand rest → Reads (.after c (.binary c.connective f g)) rest k rest' →
        Reads (.layer c.layer) (ts ++ rest) k rest' := by
    intro ts rest k rest' hts hrest hk
    rw [Formula.lexemes, hplaces] at hts
    obtain ⟨left, more, rfl, hleft, hmore⟩ := List.map_eq_append_iff.mp hts
    obtain ⟨o, right, rfl, ho, hright⟩ := List.map_eq_cons_iff.mp hmore
    have hkind : o.kind = c.token := (congrArg Prod.fst ho).trans hsign
    have hread : Reads (.layer c.operand) (right ++ rest) g rest :=
      hg.wrapped hright (Nat.le_refl _) hrest
    rw [List.append_assoc]
    refine hf.wrapped_operand hleft (follows_cons ?_) (.step hkind hread hk)
    rw [hkind]
    cases c <;> decide
  refine ⟨fun {l ts rest} hts hl hrest => ?_, fun {c' ts rest k rest'} hts heq hrest hk => ?_⟩
  · have hrank := Chain.rank_layer_le (hstrength ▸ hl)
    have hlayer := hrest.mono hrank
    have hend : ¬ Begins c.token rest := hlayer _ (by cases c <;> decide)
    exact (hchain hts (hlayer.mono (by cases c <;> decide)) (.stop hend)).looser hrank hrest
  · obtain rfl : c' = c := by
      rw [hstrength] at heq
      cases c <;> cases c' <;> first | rfl | exact absurd heq (by decide)
    exact hchain hts hrest hk

theorem readable_imp (hf : Readable f) (hg : Readable g) : Readable (.imp f g) where
  layer := by
    intro l ts rest hts hl hrest
    change l.place ≤ 1 at hl
    obtain rfl : l = .implication := by
      cases l <;> first | rfl | exact absurd hl (by decide)
    obtain ⟨left, more, rfl, hleft, hmore⟩ := List.map_eq_append_iff.mp hts
    obtain ⟨o, right, rfl, ho, hright⟩ := List.map_eq_cons_iff.mp hmore
    have hkind : o.kind = .arrow := congrArg Prod.fst ho
    have hread : Reads (.layer .disjunction) (left ++ o :: (right ++ rest)) f (o :: (right ++ rest)) :=
      hf.wrapped hleft (Nat.le_refl _) (follows_cons (by rw [hkind]; decide))
    rw [List.append_assoc]
    exact .imp hread hkind (hg.wrapped hright (Nat.zero_le _) hrest)
  chain := by
    intro c ts rest k rest' _ hstrength
    change 1 = c.layer.place at hstrength
    cases c <;> exact absurd hstrength (by decide)

theorem readable_quantified (q : Quantifier) (v : String) (h : Readable f) :
    Readable (.quantified q v f) where
  layer := by
    intro l ts rest hts hl hrest
    change l.place ≤ 0 at hl
    obtain rfl : l = .implication := by
      cases l <;> first | rfl | exact absurd hl (by decide)
    obtain ⟨t, us, rfl, ht, hus⟩ := List.map_eq_cons_iff.mp hts
    obtain ⟨x, vs, rfl, hx, hvs⟩ := List.map_eq_cons_iff.mp hus
    obtain ⟨d, body, rfl, hd, hbody⟩ := List.map_eq_cons_iff.mp hvs
    obtain ⟨hname, rfl⟩ := Prod.mk.inj hx
    have hkind : t.kind = quantifierToken q := by
      rw [show t.kind = q.lexeme.1 from congrArg Prod.fst ht]
      cases q <;> rfl
    have hread : Reads (.layer .unary) (t :: x :: d :: (body ++ rest)) (.quantified q x.text f)
        rest :=
      .quantified hkind hname (congrArg Prod.fst hd) (h.layer hbody (Nat.zero_le _) hrest)
    exact hread.looser (by decide) hrest
  chain := by
    intro c ts rest g rest' _ hstrength
    change 0 = c.layer.place at hstrength
    cases c <;> exact absurd hstrength (by decide)

theorem readable (f : Formula) : Readable f := by
  induction f with
  | atom n args => exact readable_atom n args
  | neg f ih => exact readable_neg ih
  | binary op l r ihl ihr =>
    cases op with
    | and => exact readable_chain .and ihl ihr
    | or => exact readable_chain .or ihl ihr
    | implies => exact readable_imp ihl ihr
  | quantified q v f ih => exact readable_quantified q v ih

/-! ### Names of what is read -/

/-- Identifiers among the tokens are names that can be written. -/
def NamesWritable (ts : List Token) : Prop := ∀ t ∈ ts, t.kind = .identifier → IsWritable t.text

theorem NamesWritable.tail (h : NamesWritable (t :: r)) : NamesWritable r :=
  fun u hu => h u (List.mem_cons_of_mem t hu)

theorem NamesWritable.head (h : NamesWritable (t :: r)) (ht : t.kind = .identifier) :
    IsWritable t.text :=
  h t List.mem_cons_self ht

theorem isWritable_of_readsArguments {as : List String} (h : ReadsArguments ts as rest)
    (hts : NamesWritable ts) : (∀ n ∈ as, IsWritable n) ∧ NamesWritable rest := by
  induction h with
  | last ha hu =>
    refine ⟨?_, hts.tail.tail⟩
    rw [List.forall_mem_singleton]
    exact hts.head ha
  | cons ha hc h ih =>
    obtain ⟨has, hrest⟩ := ih hts.tail.tail
    refine ⟨?_, hrest⟩
    rw [List.forall_mem_cons]
    exact ⟨hts.head ha, has⟩

/-- The names in what has been read before a place. -/
def Place.names : Place → List String
  | .layer _ => []
  | .after _ f => f.names

theorem isWritable_of_reads {p : Place} (h : Reads p ts f rest) (hts : NamesWritable ts)
    (hp : ∀ n ∈ p.names, IsWritable n) : (∀ n ∈ f.names, IsWritable n) ∧ NamesWritable rest := by
  induction h with
  | imp hf ht hg ihf ihg =>
    obtain ⟨hfnames, hr⟩ := ihf hts (by simp [Place.names])
    obtain ⟨hgnames, hrest⟩ := ihg hr.tail (by simp [Place.names])
    exact ⟨List.forall_mem_append.mpr ⟨hfnames, hgnames⟩, hrest⟩
  | disjunct hf hrest ih => exact ih hts hp
  | chain hf hg ihf ihg =>
    obtain ⟨hfnames, hr⟩ := ihf hts (by simp [Place.names])
    exact ihg hr hfnames
  | stop => exact ⟨hp, hts⟩
  | step ht hg hk ihg ihk =>
    obtain ⟨hgnames, hr⟩ := ihg hts.tail (by simp [Place.names])
    exact ihk hr (List.forall_mem_append.mpr ⟨hp, hgnames⟩)
  | neg ht hf ih => exact ih hts.tail hp
  | quantified ht hv hd hf ih =>
    obtain ⟨hfnames, hrest⟩ := ih hts.tail.tail.tail (by simp [Place.names])
    exact ⟨List.forall_mem_cons.mpr ⟨hts.tail.head hv, hfnames⟩, hrest⟩
  | parens ht hf hu ih =>
    obtain ⟨hfnames, hrest⟩ := ih hts.tail (by simp [Place.names])
    exact ⟨hfnames, hrest.tail⟩
  | atom ht hrest => exact ⟨List.forall_mem_singleton.mpr (hts.head ht), hts.tail⟩
  | application ht ho has =>
    obtain ⟨hnames, hrest⟩ := isWritable_of_readsArguments has hts.tail.tail
    exact ⟨List.forall_mem_cons.mpr ⟨hts.head ht, hnames⟩, hrest⟩

end Parser

namespace Formula

open DeductionBoard.Parser

variable {f : Formula} {s : String}

theorem parse_of_scan {ts : List Token} (hblank : Text.trim s.toList ≠ [])
    (hts : Token.scan s.toList = .ok ts) (hf : formula ts = .ok f) : parse s = .ok f := by
  simp [parse, hblank, hts, hf]

theorem exists_tokens_of_parse (h : parse s = .ok f) :
    ∃ ts, Token.scan s.toList = .ok ts ∧ formula ts = .ok f := by
  simp only [parse] at h
  split at h
  · exact absurd h (by simp)
  split at h
  · exact absurd h (by simp)
  next ts hts =>
  split at h
  · exact absurd h (by simp)
  next g hg =>
  obtain rfl := Except.ok.inj h
  exact ⟨ts, hts, hg⟩

/-- A printed formula is read back where all its names can be written. -/
theorem parse_pretty (h : ∀ n ∈ f.names, IsWritable n) : parse f.pretty = .ok f := by
  obtain ⟨ts, hscan, hts⟩ := scan_chars h
  obtain ⟨us, es, rfl, hus, hes⟩ := List.map_eq_append_iff.mp hts
  obtain ⟨e, _, rfl, he, hnil⟩ := List.map_eq_cons_iff.mp hes
  obtain rfl := List.map_eq_nil_iff.mp hnil
  have hend : e.kind = .endOfText := congrArg Prod.fst he
  have hread : Reads (.layer .implication) (us ++ [e]) f [e] :=
    (readable f).layer hus (Nat.zero_le _) (follows_cons (by rw [hend]; decide))
  have hchars : f.pretty.toList = f.chars := String.toList_ofList
  have htokens : Token.scan f.pretty.toList = .ok (us ++ [e]) := by
    rw [hchars, hscan]
  refine parse_of_scan ?_ htokens ?_
  · rw [hchars]
    exact (endsInk_chars h).trim_ne_nil
  · exact formula_eq_ok_iff.mpr ⟨[e], hread, by simpa using hend⟩

/-- All names of a formula that was read from text can be written. -/
theorem isWritable_of_parse (h : parse s = .ok f) : ∀ n ∈ f.names, IsWritable n := by
  obtain ⟨ts, hts, hf⟩ := exists_tokens_of_parse h
  obtain ⟨rest, hread, -⟩ := formula_eq_ok_iff.mp hf
  exact (isWritable_of_reads hread (Token.isWritable_of_scanFrom hts) (by simp [Place.names])).1

/-- Printing and parsing are inverse wherever the names of a formula can be written, and nowhere
else; what is parsed is always such a formula. -/
theorem parse_pretty_iff :
    (∀ f : Formula, parse f.pretty = .ok f ↔ ∀ n ∈ f.names, IsWritable n) ∧
      ∀ s f, parse s = .ok f → parse f.pretty = .ok f :=
  ⟨fun _ => ⟨isWritable_of_parse, parse_pretty⟩, fun _ _ h => parse_pretty (isWritable_of_parse h)⟩

/-- Superfluous parentheses are not printed again, and a formula whose predicate is called like a
quantifier is not read back. -/
theorem parse_pretty_iff_shadowed :
    let f : Formula := .imp (.disj (.atom "P" ["x"]) (.disj (.atom "Q" []) (.neg (.atom "Q" []))))
      (.neg (.all "x" (.conj (.exist "x" (.atom "R" ["x", "y"])) (.atom "P" ["x"]))))
    f.pretty = "P(x) ∨ (Q ∨ ¬Q) → ¬(∀x. (∃x. R(x, y)) ∧ P(x))" ∧ parse f.pretty = .ok f ∧
      parse "~(P)" = .ok (.neg (.atom "P" [])) ∧ (neg (.atom "P" [])).pretty = "¬P" ∧
      parse (neg (.atom "P" [])).pretty = .ok (.neg (.atom "P" [])) ∧
      parse (atom "exists" []).pretty ≠ .ok (.atom "exists" []) := by
  intro f
  have hscan : Token.scan "~(P)".toList = .ok [⟨.not, "~", 0⟩, ⟨.opening, "(", 1⟩,
      ⟨.identifier, "P", 2⟩, ⟨.closing, ")", 3⟩, ⟨.endOfText, "", 4⟩] := by
    have htrim : Text.trimRight "~(P)".toList = ['~', '(', 'P', ')'] := by decide_cbv
    rw [Token.scan, htrim, Token.scanFrom_letter (k := .not) (by decide) (by decide),
      Token.scanFrom_letter (k := .opening) (by decide) (by decide),
      Token.scanFrom_letter (k := .identifier) (by decide) (by decide),
      Token.scanFrom_letter (k := .closing) (by decide) (by decide), Token.scanFrom_nil]
    rfl
  have hparse : parse "~(P)" = .ok (.neg (.atom "P" [])) :=
    parse_of_scan (by decide_cbv) hscan (by decide_cbv)
  refine ⟨by decide_cbv, (parse_pretty_iff.1 f).mpr (by decide), hparse, by decide_cbv,
    parse_pretty_iff.2 _ _ hparse, fun hkeyword => ?_⟩
  have hwritable := (parse_pretty_iff.1 (.atom "exists" [])).mp hkeyword "exists"
  exact absurd (hwritable (by simp [names])) (by decide)

end Formula

end DeductionBoard
