import DeductionBoard.Formula.Parser
import Mathlib.Data.List.Basic

/-! Reading formulas as a relation. `Reads place ts f rest` says that the parser, at some place of the
grammar, reads the formula `f` from the tokens `ts` and leaves `rest`. A place is a layer, or the
rest of a chain after a formula that has been read. Main result: the relation is what the functions
of the parser compute. -/

namespace DeductionBoard.Parser

/-- The layer that a chain makes up. -/
def Chain.layer : Chain → Layer
  | .and => .conjunction
  | .or => .disjunction

def quantifierToken : Quantifier → Token.Kind
  | .all => .all
  | .exist => .exist

/-- The next token is of this kind. -/
def Begins (k : Token.Kind) (ts : List Token) : Prop := ∃ t ∈ ts.head?, t.kind = k

/-- The names of an argument list, its closing parenthesis included. -/
inductive ReadsArguments : List Token → List String → List Token → Prop
  | last {a u : Token} {rest : List Token} (ha : a.kind = .identifier) (hu : u.kind = .closing) :
      ReadsArguments (a :: u :: rest) [a.text] rest
  | cons {a c : Token} {r rest : List Token} {as : List String} (ha : a.kind = .identifier)
      (hc : c.kind = .comma) (h : ReadsArguments r as rest) :
      ReadsArguments (a :: c :: r) (a.text :: as) rest

/-- Where the parser reads: at a layer, or in a chain after a formula. -/
inductive Place where
  | layer (l : Layer)
  | after (c : Chain) (f : Formula)

inductive Reads : Place → List Token → Formula → List Token → Prop
  | imp {ts r rest : List Token} {t : Token} {f g : Formula}
      (hf : Reads (.layer .disjunction) ts f (t :: r)) (ht : t.kind = .arrow)
      (hg : Reads (.layer .implication) r g rest) :
      Reads (.layer .implication) ts (.imp f g) rest
  | disjunct {ts rest : List Token} {f : Formula} (hf : Reads (.layer .disjunction) ts f rest)
      (hrest : ¬ Begins .arrow rest) : Reads (.layer .implication) ts f rest
  | chain {c : Chain} {ts r rest : List Token} {f g : Formula}
      (hf : Reads (.layer c.operand) ts f r) (hg : Reads (.after c f) r g rest) :
      Reads (.layer c.layer) ts g rest
  | stop {c : Chain} {ts : List Token} {f : Formula} (hts : ¬ Begins c.token ts) :
      Reads (.after c f) ts f ts
  | step {c : Chain} {t : Token} {r r' rest : List Token} {f g k : Formula} (ht : t.kind = c.token)
      (hg : Reads (.layer c.operand) r g r')
      (hk : Reads (.after c (.binary c.connective f g)) r' k rest) :
      Reads (.after c f) (t :: r) k rest
  | neg {t : Token} {r rest : List Token} {f : Formula} (ht : t.kind = .not)
      (hf : Reads (.layer .unary) r f rest) : Reads (.layer .unary) (t :: r) (.neg f) rest
  | quantified {q : Quantifier} {t v d : Token} {r rest : List Token} {f : Formula}
      (ht : t.kind = quantifierToken q) (hv : v.kind = .identifier) (hd : d.kind = .dot)
      (hf : Reads (.layer .implication) r f rest) :
      Reads (.layer .unary) (t :: v :: d :: r) (.quantified q v.text f) rest
  | parens {t u : Token} {r rest : List Token} {f : Formula} (ht : t.kind = .opening)
      (hf : Reads (.layer .implication) r f (u :: rest)) (hu : u.kind = .closing) :
      Reads (.layer .unary) (t :: r) f rest
  | atom {t : Token} {rest : List Token} (ht : t.kind = .identifier)
      (hrest : ¬ Begins .opening rest) : Reads (.layer .unary) (t :: rest) (.atom t.text []) rest
  | application {t o : Token} {r rest : List Token} {as : List String} (ht : t.kind = .identifier)
      (ho : o.kind = .opening) (has : ReadsArguments r as rest) :
      Reads (.layer .unary) (t :: o :: r) (.atom t.text as) rest

variable {ts rest r : List Token} {f g : Formula} {k : Token.Kind} {t : Token} {as : List String}

@[simp] theorem begins_cons : Begins k (t :: r) ↔ t.kind = k := by simp [Begins]

theorem not_begins_nil : ¬ Begins k [] := by simp [Begins]

/-! ### The functions read what the relation says -/

theorem take_of_kind {what : Expected} (ht : t.kind = k) :
    take k what (t :: r) = .ok (t, ⟨r, Nat.lt_succ_self _⟩) := by
  rw [take, if_pos ht]

theorem arguments_of_reads (h : ReadsArguments ts as rest) :
    ∃ hlt, arguments ts = .ok (as, ⟨rest, hlt⟩) := by
  induction h with
  | @last a u rest ha hu =>
    have hcomma : u.kind ≠ .comma := by simp [hu]
    refine ⟨by simp only [List.length_cons]; omega, ?_⟩
    rw [arguments, take_of_kind ha]
    simp only [if_neg hcomma, take_of_kind hu]
  | @cons a c r rest as ha hc h ih =>
    obtain ⟨hlt, ih⟩ := ih
    refine ⟨by simp only [List.length_cons]; omega, ?_⟩
    rw [arguments, take_of_kind ha]
    simp only [if_pos hc, ih]

/-- What the functions of the parser compute at a place. -/
def Computes (p : Place) (ts : List Token) (f : Formula) (rest : List Token) : Prop :=
  match p with
  | .layer l => ∃ hlt, layer l ts = .ok (f, ⟨rest, hlt⟩)
  | .after c g => ∃ hle, chain c g ts = .ok (f, ⟨rest, hle⟩)

section Constructors

variable {c : Chain} {q : Quantifier} {r' : List Token} {o u v d : Token}

theorem Computes.imp (hf : Computes (.layer .disjunction) ts f (t :: r)) (ht : t.kind = .arrow)
    (hg : Computes (.layer .implication) r g rest) :
    Computes (.layer .implication) ts (.imp f g) rest := by
  obtain ⟨hlt, hf⟩ := hf
  obtain ⟨hlt', hg⟩ := hg
  refine ⟨by simp at hlt; omega, ?_⟩
  rw [layer, hf]
  simp only [if_pos ht, hg]

theorem Computes.disjunct (hf : Computes (.layer .disjunction) ts f rest)
    (hrest : ¬ Begins .arrow rest) : Computes (.layer .implication) ts f rest := by
  obtain ⟨hlt, hf⟩ := hf
  refine ⟨hlt, ?_⟩
  rw [layer, hf]
  cases rest with
  | nil => rfl
  | cons t r => simp only [if_neg fun ht => hrest (begins_cons.mpr ht)]

theorem Computes.chain (hf : Computes (.layer c.operand) ts f r)
    (hg : Computes (.after c f) r g rest) : Computes (.layer c.layer) ts g rest := by
  obtain ⟨hlt, hf⟩ := hf
  obtain ⟨hle, hg⟩ := hg
  refine ⟨by omega, ?_⟩
  cases c <;> rw [Chain.operand] at hf <;> rw [Chain.layer, layer] <;> simp only [hf, hg]

theorem Computes.stop (hts : ¬ Begins c.token ts) : Computes (.after c f) ts f ts := by
  refine ⟨Nat.le_refl _, ?_⟩
  cases ts with
  | nil => rw [Parser.chain]
  | cons t r =>
    rw [Parser.chain]
    simp only [if_neg fun ht => hts (begins_cons.mpr ht)]

theorem Computes.step {k : Formula} (ht : t.kind = c.token)
    (hg : Computes (.layer c.operand) r g r')
    (hk : Computes (.after c (.binary c.connective f g)) r' k rest) :
    Computes (.after c f) (t :: r) k rest := by
  obtain ⟨hlt, hg⟩ := hg
  obtain ⟨hle, hk⟩ := hk
  refine ⟨by simp only [List.length_cons]; omega, ?_⟩
  rw [Parser.chain]
  simp only [if_pos ht, hg, hk]

theorem Computes.neg (ht : t.kind = .not) (hf : Computes (.layer .unary) r f rest) :
    Computes (.layer .unary) (t :: r) (.neg f) rest := by
  obtain ⟨hlt, hf⟩ := hf
  refine ⟨by simp only [List.length_cons]; omega, ?_⟩
  rw [layer]
  simp only [ht, hf]

theorem Computes.quantified (ht : t.kind = quantifierToken q) (hv : v.kind = .identifier)
    (hd : d.kind = .dot) (hf : Computes (.layer .implication) r f rest) :
    Computes (.layer .unary) (t :: v :: d :: r) (.quantified q v.text f) rest := by
  obtain ⟨hlt, hf⟩ := hf
  refine ⟨by simp only [List.length_cons]; omega, ?_⟩
  rw [layer]
  cases q <;> simp only [quantifierToken] at ht <;>
    simp only [ht, Parser.quantified, take_of_kind hv, take_of_kind hd, hf]

theorem Computes.parens (ht : t.kind = .opening)
    (hf : Computes (.layer .implication) r f (u :: rest)) (hu : u.kind = .closing) :
    Computes (.layer .unary) (t :: r) f rest := by
  obtain ⟨hlt, hf⟩ := hf
  refine ⟨by simp at hlt ⊢; omega, ?_⟩
  rw [layer]
  simp only [ht, hf, take_of_kind hu]

theorem Computes.atom (ht : t.kind = .identifier) (hrest : ¬ Begins .opening rest) :
    Computes (.layer .unary) (t :: rest) (.atom t.text []) rest := by
  refine ⟨by simp, ?_⟩
  rw [layer]
  simp only [ht]
  cases rest with
  | nil => simp only [Parser.atom]
  | cons o r => simp only [Parser.atom, if_neg fun ho => hrest (begins_cons.mpr ho)]

theorem Computes.application (ht : t.kind = .identifier) (ho : o.kind = .opening)
    (has : ReadsArguments r as rest) :
    Computes (.layer .unary) (t :: o :: r) (.atom t.text as) rest := by
  obtain ⟨hlt, has⟩ := arguments_of_reads has
  refine ⟨by simp only [List.length_cons]; omega, ?_⟩
  rw [layer]
  simp only [ht, Parser.atom, if_pos ho, has]

end Constructors

theorem computes_of_reads {p : Place} (h : Reads p ts f rest) : Computes p ts f rest := by
  induction h with
  | imp _ ht _ hf hg => exact hf.imp ht hg
  | disjunct _ hrest hf => exact hf.disjunct hrest
  | chain _ _ hf hg => exact hf.chain hg
  | stop hts => exact .stop hts
  | step ht _ _ hg hk => exact .step ht hg hk
  | neg ht _ hf => exact .neg ht hf
  | quantified ht hv hd _ hf => exact .quantified ht hv hd hf
  | parens ht _ hu hf => exact .parens ht hf hu
  | atom ht hrest => exact .atom ht hrest
  | application ht ho has => exact .application ht ho has

/-! ### The relation says what the functions read -/

theorem of_take {what : Expected} {u : Token} {hlt : rest.length < ts.length}
    (h : take k what ts = .ok (u, ⟨rest, hlt⟩)) : ts = u :: rest ∧ u.kind = k := by
  unfold take at h
  split at h
  · exact absurd h (by simp)
  · split at h
    · next ht =>
      obtain ⟨rfl, hrest⟩ := Prod.mk.inj (Except.ok.inj h)
      obtain rfl := congrArg Subtype.val hrest
      exact ⟨rfl, ht⟩
    · exact absurd h (by simp)

theorem reads_of_arguments {hlt : rest.length < ts.length}
    (h : arguments ts = .ok (as, ⟨rest, hlt⟩)) : ReadsArguments ts as rest := by
  induction hn : ts.length using Nat.strongRecOn generalizing ts as rest with
  | _ n ih =>
    subst hn
    rw [arguments] at h
    split at h
    · exact absurd h (by simp)
    · exact absurd h (by simp)
    next a t r hr htake =>
    obtain ⟨rfl, ha⟩ := of_take htake
    split at h
    · next hc =>
      split at h
      · exact absurd h (by simp)
      next as' r' hr' hargs =>
      obtain ⟨rfl, hrest⟩ := Prod.mk.inj (Except.ok.inj h)
      obtain rfl := congrArg Subtype.val hrest
      exact .cons ha hc (ih r.length (by simp only [List.length_cons]; omega) hargs rfl)
    · split at h
      · exact absurd h (by simp)
      next u r' hr' hclose =>
      obtain ⟨heq, hu⟩ := of_take hclose
      obtain ⟨rfl, rfl⟩ := List.cons.inj heq
      obtain ⟨rfl, hrest⟩ := Prod.mk.inj (Except.ok.inj h)
      obtain rfl := congrArg Subtype.val hrest
      exact .last ha hu

/-- What decreases while the parser runs. -/
def Place.weight (ts : List Token) : Place → Nat
  | .layer l => 5 * ts.length + l.rank
  | .after _ _ => 5 * ts.length

/-- A result with the tokens that are left, taken apart. -/
theorem eq_of_ok {α β : Type} {q : β → Prop} {x y : α} {b b' : β} {hb : q b} {hb' : q b'}
    {ε : Type} (h : (Except.ok (x, ⟨b, hb⟩) : Except ε (α × Subtype q)) = .ok (y, ⟨b', hb'⟩)) :
    x = y ∧ b = b' := by
  obtain ⟨hx, hb⟩ := Prod.mk.inj (Except.ok.inj h)
  exact ⟨hx, congrArg Subtype.val hb⟩

/-- Places of less weight are read as the relation says. -/
def ReadsBelow (n : Nat) : Prop :=
  ∀ p ts f rest, p.weight ts < n → Computes p ts f rest → Reads p ts f rest

section Steps

variable {n : Nat} {hlt : rest.length < ts.length} {c : Chain} {q : Quantifier}

theorem ReadsBelow.layer {l : Layer} (ih : ReadsBelow n)
    (h : Parser.layer l ts = .ok (f, ⟨rest, hlt⟩)) (hn : 5 * ts.length + l.rank < n) :
    Reads (.layer l) ts f rest := ih (.layer l) ts f rest hn ⟨hlt, h⟩

theorem ReadsBelow.after {hle : rest.length ≤ ts.length} (ih : ReadsBelow n)
    (h : chain c g ts = .ok (f, ⟨rest, hle⟩)) (hn : 5 * ts.length < n) :
    Reads (.after c g) ts f rest := ih (.after c g) ts f rest hn ⟨hle, h⟩

theorem reads_implication (ih : ReadsBelow (5 * ts.length + 4))
    (h : layer .implication ts = .ok (f, ⟨rest, hlt⟩)) : Reads (.layer .implication) ts f rest := by
  rw [layer] at h
  split at h
  · exact absurd h (by simp)
  · next g hr hg =>
    obtain ⟨rfl, rfl⟩ := eq_of_ok h
    exact .disjunct (ih.layer hg (by simp [Layer.rank])) not_begins_nil
  · next g t r hr hg =>
    have hread := ih.layer hg (by simp [Layer.rank])
    split at h
    · next ht =>
      split at h
      · exact absurd h (by simp)
      · next k r' hr' hk =>
        obtain ⟨rfl, rfl⟩ := eq_of_ok h
        rw [List.length_cons] at hr
        exact .imp hread ht (ih.layer hk (by simp [Layer.rank]; omega))
    · next ht =>
      obtain ⟨rfl, rfl⟩ := eq_of_ok h
      exact .disjunct hread fun hbegins => ht (begins_cons.mp hbegins)

theorem reads_chain (ih : ReadsBelow (5 * ts.length + c.layer.rank))
    (h : layer c.layer ts = .ok (f, ⟨rest, hlt⟩)) : Reads (.layer c.layer) ts f rest := by
  have hoperand : c.operand.rank < c.layer.rank := by cases c <;> decide
  have hsplit : ∃ g r hr hle, layer c.operand ts = .ok (g, ⟨r, hr⟩) ∧
      chain c g r = .ok (f, ⟨rest, hle⟩) := by
    cases c <;> simp only [Chain.layer] at h <;> rw [layer] at h <;> split at h
    · exact absurd h (by simp)
    · next g r hr hg =>
      split at h
      · exact absurd h (by simp)
      · next k r' hr' hk =>
        obtain ⟨rfl, rfl⟩ := eq_of_ok h
        exact ⟨g, r, hr, hr', hg, hk⟩
    · exact absurd h (by simp)
    · next g r hr hg =>
      split at h
      · exact absurd h (by simp)
      · next k r' hr' hk =>
        obtain ⟨rfl, rfl⟩ := eq_of_ok h
        exact ⟨g, r, hr, hr', hg, hk⟩
  obtain ⟨g, r, hr, hle, hg, hk⟩ := hsplit
  exact .chain (ih.layer hg (by omega)) (ih.after hk (by omega))

theorem reads_quantified {hr : r.length < ts.length} (ih : ReadsBelow (5 * ts.length + 1))
    (h : quantified q ts r hr = .ok (f, ⟨rest, hlt⟩)) :
    ∃ v d more g, r = v :: d :: more ∧ v.kind = .identifier ∧ d.kind = .dot ∧
      f = .quantified q v.text g ∧ Reads (.layer .implication) more g rest := by
  rw [quantified] at h
  split at h
  · exact absurd h (by simp)
  next v r' hr' htake =>
  obtain ⟨rfl, hv⟩ := of_take htake
  split at h
  · exact absurd h (by simp)
  next d more hmore htake =>
  obtain ⟨rfl, hd⟩ := of_take htake
  split at h
  · exact absurd h (by simp)
  next g out hout hg =>
  obtain ⟨rfl, rfl⟩ := eq_of_ok h
  refine ⟨v, d, more, g, rfl, hv, hd, rfl, ih.layer hg ?_⟩
  simp [Layer.rank] at hr ⊢
  omega

theorem reads_atom {hle : rest.length ≤ ts.length} (ht : t.kind = .identifier)
    (h : atom t.text ts = .ok (f, ⟨rest, hle⟩)) : Reads (.layer .unary) (t :: ts) f rest := by
  unfold Parser.atom at h
  split at h
  · obtain ⟨rfl, rfl⟩ := eq_of_ok h
    exact .atom ht not_begins_nil
  · next o r =>
    split at h
    · next ho =>
      split at h
      · exact absurd h (by simp)
      next as r' hr' has =>
      obtain ⟨rfl, rfl⟩ := eq_of_ok h
      exact .application ht ho (reads_of_arguments has)
    · next ho =>
      obtain ⟨rfl, rfl⟩ := eq_of_ok h
      exact .atom ht fun hbegins => ho (begins_cons.mp hbegins)

theorem reads_unary (ih : ReadsBelow (5 * ts.length + 1))
    (h : layer .unary ts = .ok (f, ⟨rest, hlt⟩)) : Reads (.layer .unary) ts f rest := by
  cases ts with
  | nil =>
    rw [layer] at h
    exact absurd h (by simp)
  | cons t r =>
    rw [layer] at h
    split at h
    · next ht =>
      split at h
      · exact absurd h (by simp)
      next g r' hr' hg =>
      obtain ⟨rfl, rfl⟩ := eq_of_ok h
      exact .neg ht (ih.layer hg (by simp [Layer.rank]))
    · next ht =>
      obtain ⟨v, d, more, g, rfl, hv, hd, rfl, hg⟩ := reads_quantified ih h
      exact .quantified (q := .all) ht hv hd hg
    · next ht =>
      obtain ⟨v, d, more, g, rfl, hv, hd, rfl, hg⟩ := reads_quantified ih h
      exact .quantified (q := .exist) ht hv hd hg
    · next ht =>
      split at h
      · exact absurd h (by simp)
      next g r' hr' hg =>
      split at h
      · exact absurd h (by simp)
      next u more hmore htake =>
      obtain ⟨rfl, hu⟩ := of_take htake
      obtain ⟨rfl, rfl⟩ := eq_of_ok h
      exact .parens ht (ih.layer hg (by simp [Layer.rank]; omega)) hu
    · next ht =>
      split at h
      · exact absurd h (by simp)
      next g r' hr' hg =>
      obtain ⟨rfl, rfl⟩ := eq_of_ok h
      exact reads_atom ht hg
    · exact absurd h (by simp)

theorem reads_after {hle : rest.length ≤ ts.length} (ih : ReadsBelow (5 * ts.length))
    (h : chain c g ts = .ok (f, ⟨rest, hle⟩)) : Reads (.after c g) ts f rest := by
  cases ts with
  | nil =>
    rw [chain] at h
    obtain ⟨rfl, rfl⟩ := eq_of_ok h
    exact .stop not_begins_nil
  | cons t r =>
    rw [chain] at h
    split at h
    · next ht =>
      split at h
      · exact absurd h (by simp)
      next k r' hr' hk =>
      split at h
      · exact absurd h (by simp)
      next j more hmore hj =>
      obtain ⟨rfl, rfl⟩ := eq_of_ok h
      have hrank := c.operand.rank_le
      refine .step ht (ih.layer hk ?_) (ih.after hj ?_) <;> rw [List.length_cons] <;> omega
    · next ht =>
      obtain ⟨rfl, rfl⟩ := eq_of_ok h
      exact .stop fun hbegins => ht (begins_cons.mp hbegins)

end Steps

theorem readsBelow (n : Nat) : ReadsBelow n := by
  induction n with
  | zero => exact fun p ts f rest hn => absurd hn (Nat.not_lt_zero _)
  | succ n ih =>
    have ih : ∀ m ≤ n, ReadsBelow m := fun m hm p ts f rest hn => ih p ts f rest (by omega)
    intro p ts f rest hn h
    have ih := ih (p.weight ts) (by omega)
    cases p with
    | after c g =>
      obtain ⟨hle, h⟩ := h
      exact reads_after ih h
    | layer l =>
      obtain ⟨hlt, h⟩ := h
      cases l with
      | implication => exact reads_implication ih h
      | disjunction => exact reads_chain (c := .or) ih h
      | conjunction => exact reads_chain (c := .and) ih h
      | unary => exact reads_unary ih h

/-- The parser computes what the relation says, and nothing else. -/
theorem computes_iff_reads {p : Place} : Computes p ts f rest ↔ Reads p ts f rest :=
  ⟨readsBelow _ p ts f rest (Nat.lt_succ_self _), computes_of_reads⟩

theorem formula_eq_ok_iff :
    formula ts = .ok f ↔
      ∃ rest, Reads (.layer .implication) ts f rest ∧ ∀ t ∈ rest.head?, t.kind = .endOfText := by
  rw [formula]
  constructor
  · intro h
    split at h
    · exact absurd h (by simp)
    · next g hlt hg =>
      obtain rfl := Except.ok.inj h
      exact ⟨[], computes_iff_reads.mp ⟨hlt, hg⟩, by simp⟩
    · next g t r hlt hg =>
      split at h
      · next ht =>
        obtain rfl := Except.ok.inj h
        refine ⟨t :: r, computes_iff_reads.mp ⟨hlt, hg⟩, ?_⟩
        simpa using ht
      · exact absurd h (by simp)
  · rintro ⟨rest, hread, hrest⟩
    obtain ⟨hlt, h⟩ := computes_iff_reads.mpr hread
    rw [h]
    cases rest with
    | nil => rfl
    | cons t r => simp [hrest t rfl]

end DeductionBoard.Parser
