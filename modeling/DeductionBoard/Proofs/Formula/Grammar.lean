import DeductionBoard.Proofs.Formula.RoundTrip

/-! The grammar of formulas, without a parser. A derivation uses up a whole list of tokens and looks
at no token behind it, so the body of a quantifier may end at any sign that can follow it, and a
text can have several derivations. Main result: where there is a derivation, the parser reads some
formula, and what it leaves begins with a sign that no layer takes. -/

namespace DeductionBoard

open Token (Kind)

namespace Parser

/-- `Derives p ts f ns`: by the rules of the place `p` the tokens `ts` make up `f`. The lengths of
the bodies of the quantifiers, in the order of the text, are `ns`. -/
inductive Derives : Place → List Token → Formula → List Nat → Prop
  | imp {ts us : List Token} {t : Token} {f g : Formula} {ns ms : List Nat}
      (hf : Derives (.layer .disjunction) ts f ns) (ht : t.kind = .arrow)
      (hg : Derives (.layer .implication) us g ms) :
      Derives (.layer .implication) (ts ++ t :: us) (.imp f g) (ns ++ ms)
  | disjunct {ts : List Token} {f : Formula} {ns : List Nat}
      (hf : Derives (.layer .disjunction) ts f ns) : Derives (.layer .implication) ts f ns
  | chain {c : Chain} {ts us : List Token} {f g : Formula} {ns ms : List Nat}
      (hf : Derives (.layer c.operand) ts f ns) (hg : Derives (.after c f) us g ms) :
      Derives (.layer c.layer) (ts ++ us) g (ns ++ ms)
  | stop {c : Chain} {f : Formula} : Derives (.after c f) [] f []
  | step {c : Chain} {t : Token} {ts us : List Token} {f g k : Formula} {ns ms : List Nat}
      (ht : t.kind = c.token) (hg : Derives (.layer c.operand) ts g ns)
      (hk : Derives (.after c (.binary c.connective f g)) us k ms) :
      Derives (.after c f) (t :: (ts ++ us)) k (ns ++ ms)
  | neg {t : Token} {ts : List Token} {f : Formula} {ns : List Nat} (ht : t.kind = .not)
      (hf : Derives (.layer .unary) ts f ns) : Derives (.layer .unary) (t :: ts) (.neg f) ns
  | quantified {q : Quantifier} {t v d : Token} {ts : List Token} {f : Formula} {ns : List Nat}
      (ht : t.kind = quantifierToken q) (hv : v.kind = .identifier) (hd : d.kind = .dot)
      (hf : Derives (.layer .implication) ts f ns) :
      Derives (.layer .unary) (t :: v :: d :: ts) (.quantified q v.text f) (ts.length :: ns)
  | parens {t u : Token} {ts : List Token} {f : Formula} {ns : List Nat} (ht : t.kind = .opening)
      (hf : Derives (.layer .implication) ts f ns) (hu : u.kind = .closing) :
      Derives (.layer .unary) (t :: (ts ++ [u])) f ns
  | atom {t : Token} (ht : t.kind = .identifier) :
      Derives (.layer .unary) [t] (.atom t.text []) []
  | application {t o : Token} {ts : List Token} {as : List String} (ht : t.kind = .identifier)
      (ho : o.kind = .opening) (has : ReadsArguments ts as []) :
      Derives (.layer .unary) (t :: o :: ts) (.atom t.text as) []

variable {l : Layer} {c : Chain} {q : Quantifier} {p : Place} {f g : Formula} {k : Kind}
  {ts us rest stop : List Token} {t u v d : Token} {as : List String} {ns ms : List Nat}

theorem ReadsArguments.append (h : ReadsArguments ts as rest) (us : List Token) :
    ReadsArguments (ts ++ us) as (rest ++ us) := by
  induction h with
  | last ha hu => exact .last ha hu
  | cons ha hc _ ih => exact .cons ha hc ih

theorem ReadsArguments.exists_append (h : ReadsArguments ts as rest) :
    ∃ us, ts = us ++ rest ∧ ReadsArguments us as [] := by
  induction h with
  | @last a u rest ha hu => exact ⟨[a, u], rfl, .last ha hu⟩
  | @cons a c r rest as ha hc h ih =>
    obtain ⟨us, rfl, hus⟩ := ih
    exact ⟨a :: c :: us, rfl, .cons ha hc hus⟩

/-! ### What can stand behind a reading -/

/-- The signs that join what is derived at a layer. -/
def Layer.joins (l : Layer) : List Kind := l.continuations.tail

/-- No sign goes on with what was read at a layer. -/
def Ended (l : Layer) (ts : List Token) : Prop := ∀ k ∈ l.joins, ¬ Begins k ts

theorem Chain.mem_joins : k ∈ c.layer.joins ↔ k = c.token ∨ k ∈ c.operand.joins := by
  cases c <;> cases k <;> decide

/-- The parser stops at no sign of the layer that it reads. In a chain this presupposes that the
operand before it was read to its end. -/
theorem Reads.ended (h : Reads p ts f rest) :
    match p with
    | .layer l => Ended l rest
    | .after c _ => Ended c.operand ts → Ended c.layer rest := by
  induction h with
  | imp _ _ _ _ ihg => exact ihg
  | disjunct _ hrest ih =>
    intro k hk
    by_cases hkind : k = .arrow
    · rwa [hkind]
    · exact ih k (by revert hk hkind; cases k <;> decide)
  | chain _ _ ihf ihg => exact ihg ihf
  | stop hts =>
    intro hoperand k hk
    rcases Chain.mem_joins.mp hk with rfl | hk
    · exact hts
    · exact hoperand k hk
  | step _ _ _ ihg ihk => exact fun _ => ihk ihg
  | neg | quantified | parens | atom | application => exact fun k hk => absurd hk (by decide +revert)

/-! ### Every derivation leaves a reading

Where the bodies of quantifiers end is of no account for this, so a derivation is reduced to the
order in which operands and signs follow each other. -/

/-- What the next token has to be. -/
inductive Awaits where
  | operand
  | sign

/-- The tokens are operands with signs between them, and what is in parentheses is so, too. -/
inductive Flow : Awaits → List Token → Prop
  | nil : Flow .sign []
  | sign {t : Token} {ts : List Token} (ht : t.kind ∈ Layer.implication.joins)
      (h : Flow .operand ts) : Flow .sign (t :: ts)
  | neg {t : Token} {ts : List Token} (ht : t.kind = .not) (h : Flow .operand ts) :
      Flow .operand (t :: ts)
  | quantified {q : Quantifier} {t v d : Token} {ts : List Token} (ht : t.kind = quantifierToken q)
      (hv : v.kind = .identifier) (hd : d.kind = .dot) (h : Flow .operand ts) :
      Flow .operand (t :: v :: d :: ts)
  | parens {t u : Token} {ts us : List Token} (ht : t.kind = .opening) (hts : Flow .operand ts)
      (hu : u.kind = .closing) (hus : Flow .sign us) : Flow .operand (t :: (ts ++ u :: us))
  | atom {t : Token} {ts : List Token} (ht : t.kind = .identifier) (h : Flow .sign ts) :
      Flow .operand (t :: ts)
  | application {t o : Token} {ts us : List Token} {as : List String} (ht : t.kind = .identifier)
      (ho : o.kind = .opening) (has : ReadsArguments ts as us) (h : Flow .sign us) :
      Flow .operand (t :: o :: ts)

def Place.awaits : Place → Awaits
  | .layer _ => .operand
  | .after _ _ => .sign

theorem Derives.flow (h : Derives p ts f ns) (hus : Flow .sign us) : Flow p.awaits (ts ++ us) := by
  induction h generalizing us with
  | imp _ ht _ ihf ihg =>
    rw [List.append_assoc]
    exact ihf (.sign (by rw [ht]; decide) (ihg hus))
  | disjunct _ ih => exact ih hus
  | chain _ _ ihf ihg =>
    rw [List.append_assoc]
    exact ihf (ihg hus)
  | stop => exact hus
  | @step c _ _ _ _ _ _ _ _ ht _ _ ihg ihk =>
    rw [List.cons_append, List.append_assoc]
    exact .sign (by rw [ht]; cases c <;> decide) (ihg (ihk hus))
  | neg ht _ ih => exact .neg ht (ih hus)
  | quantified ht hv hd _ ih => exact .quantified ht hv hd (ih hus)
  | parens ht _ hu ih =>
    have hinside := ih .nil
    rw [List.append_nil] at hinside
    rw [List.cons_append, List.append_assoc]
    exact .parens ht hinside hu hus
  | atom ht => exact .atom ht hus
  | application ht ho has => exact .application ht ho (has.append us) hus

theorem Derives.ne_nil (h : Derives (.layer l) ts f ns) : ts ≠ [] := by
  rintro rfl
  have hflow : Flow .operand [] := h.flow .nil
  cases hflow

/-- Behind an operand stands a sign of some layer, or what stands behind all. -/
theorem Flow.begins (h : Flow .sign ts) (hstop : ¬ Begins k stop)
    (hk : k ∉ Layer.implication.joins) : ¬ Begins k (ts ++ stop) := by
  cases h with
  | nil => exact hstop
  | sign ht _ => exact fun hbegins => hk (begins_cons.mp hbegins ▸ ht)

theorem Flow.eq_nil (h : Flow .sign ts) (hend : Ended .implication (ts ++ stop)) : ts = [] := by
  cases h with
  | nil => rfl
  | sign ht _ => exact absurd (begins_cons.mpr rfl) (hend _ ht)

/-- At every layer the parser reads something from tokens in the right order, and what it leaves
begins with a sign. -/
def ReadsFlow (l : Layer) (ts : List Token) : Prop :=
  ∀ stop, Follows .implication stop → ∃ f rest,
    Reads (.layer l) (ts ++ stop) f (rest ++ stop) ∧ Flow .sign rest ∧ rest.length < ts.length

/-- The tokens that are shorter than `n` are read. -/
def ReadsShorter (n : Nat) : Prop := ∀ l ts, ts.length < n → Flow .operand ts → ReadsFlow l ts

theorem ReadsShorter.mono {m n : Nat} (h : ReadsShorter n) (hmn : m ≤ n) : ReadsShorter m :=
  fun l ts hlt => h l ts (Nat.lt_of_lt_of_le hlt hmn)

theorem Flow.reads_unary (h : Flow .operand ts) (ih : ReadsShorter ts.length) :
    ReadsFlow .unary ts := by
  intro stop hstop
  cases h with
  | neg ht h =>
    obtain ⟨f, rest, hread, hrest, hlt⟩ := ih .unary _ (by simp) h stop hstop
    exact ⟨.neg f, rest, .neg ht hread, hrest, Nat.lt_succ_of_lt hlt⟩
  | @quantified q t v d ts ht hv hd h =>
    obtain ⟨f, rest, hread, hrest, hlt⟩ := ih .implication ts (by grind) h stop hstop
    exact ⟨.quantified q v.text f, rest, .quantified ht hv hd hread, hrest, by grind⟩
  | @parens t u ts us ht hts hu hus =>
    -- inside parentheses the reading cannot end before the closing one
    have hclosing : Follows .implication (u :: (us ++ stop)) := follows_cons (by rw [hu]; decide)
    obtain ⟨f, rest, hread, hrest, -⟩ := ih .implication ts (by grind) hts _ hclosing
    obtain rfl := hrest.eq_nil hread.ended
    refine ⟨f, us, ?_, hus, by grind⟩
    rw [List.cons_append, List.append_assoc]
    exact .parens ht hread hu
  | @atom t ts ht h =>
    exact ⟨.atom t.text [], ts, .atom ht (h.begins (hstop _ (by decide)) (by decide)), h, by simp⟩
  | @application t o ts us as ht ho has h =>
    obtain ⟨args, rfl, -⟩ := has.exists_append
    exact ⟨.atom t.text as, us, .application ht ho (has.append stop), h, by grind⟩

/-- A chain goes on as long as its sign comes. -/
theorem Flow.reads_after (h : Flow .sign ts) (ih : ReadsShorter ts.length) (f : Formula)
    (stop : List Token) (hstop : Follows .implication stop) :
    ∃ g rest, Reads (.after c f) (ts ++ stop) g (rest ++ stop) ∧ Flow .sign rest ∧
      rest.length ≤ ts.length := by
  induction hn : ts.length using Nat.strongRecOn generalizing ts f with
  | _ n hind =>
    subst hn
    cases h with
    | nil =>
      exact ⟨f, [], .stop (hstop _ (by cases c <;> decide)), .nil, Nat.le_refl _⟩
    | @sign t ts ht h =>
      by_cases hc : t.kind = c.token
      · obtain ⟨g, r, hread, hr, hlt⟩ := ih c.operand ts (by simp) h stop hstop
        have hshorter : r.length < (t :: ts).length := Nat.lt_succ_of_lt hlt
        obtain ⟨k, rest, hchain, hrest, hle⟩ :=
          hind r.length hshorter hr (ih.mono (Nat.le_of_lt hshorter))
            (.binary c.connective f g) rfl
        exact ⟨k, rest, .step hc hread hchain, hrest, by omega⟩
      · exact ⟨f, t :: ts, .stop fun hbegins => hc (begins_cons.mp hbegins), .sign ht h,
          Nat.le_refl _⟩

theorem ReadsFlow.chain (h : ReadsFlow c.operand ts) (ih : ReadsShorter ts.length) :
    ReadsFlow c.layer ts := by
  intro stop hstop
  obtain ⟨f, r, hread, hr, hlt⟩ := h stop hstop
  obtain ⟨g, rest, hchain, hrest, hle⟩ :=
    hr.reads_after (c := c) (ih.mono (Nat.le_of_lt hlt)) f stop hstop
  exact ⟨g, rest, .chain hread hchain, hrest, by omega⟩

theorem ReadsFlow.implication (h : ReadsFlow .disjunction ts) (ih : ReadsShorter ts.length) :
    ReadsFlow .implication ts := by
  intro stop hstop
  obtain ⟨f, r, hread, hr, hlt⟩ := h stop hstop
  cases hr with
  | nil => exact ⟨f, [], .disjunct hread (hstop _ (by decide)), .nil, hlt⟩
  | @sign t r ht hr =>
    by_cases harrow : t.kind = .arrow
    · rw [List.length_cons] at hlt
      obtain ⟨g, rest, hg, hrest, hlt'⟩ := ih .implication r (by omega) hr stop hstop
      exact ⟨.imp f g, rest, .imp hread harrow hg, hrest, by omega⟩
    · exact ⟨f, t :: r, .disjunct hread fun hbegins => harrow (begins_cons.mp hbegins),
        .sign ht hr, hlt⟩

theorem Flow.reads (h : Flow .operand ts) (l : Layer) : ReadsFlow l ts := by
  induction hn : ts.length using Nat.strongRecOn generalizing ts l with
  | _ n hind =>
    subst hn
    have ih : ReadsShorter ts.length := fun m us hlt hus => hind us.length hlt hus m rfl
    have hunary := h.reads_unary ih
    have hconj : ReadsFlow .conjunction ts := ReadsFlow.chain (c := .and) hunary ih
    have hdisj : ReadsFlow .disjunction ts := ReadsFlow.chain (c := .or) hconj ih
    cases l with
    | unary => exact hunary
    | conjunction => exact hconj
    | disjunction => exact hdisj
    | implication => exact hdisj.implication ih

end Parser

end DeductionBoard
