import DeductionBoard.Proofs.Formula.Grammar

/-! What a formula may begin with. It is enough to know what the next token has to be and how many
parentheses are open: this makes an automaton with a counter, which refuses a token exactly if no
formula goes on with it. Main result: the parser stops with a fault at the first token that is
refused, and the tokens before it are the beginning of a formula. -/

namespace DeductionBoard.Parser

open Token (Kind)

/-! ### The automaton -/

/-- What is asked for next. -/
inductive Demand where
  | operand
  /-- A sign, or the arguments of the name that was read last. -/
  | arguments
  | sign
  | variable
  | dot
  | term
  /-- The next term of an argument list, or its end. -/
  | comma
  /-- The end was marked. -/
  | nothing
  deriving DecidableEq

structure Stage where
  demand : Demand
  /-- The number of open parentheses around formulas. -/
  depth : Nat
  deriving DecidableEq

namespace Stage

def start : Stage := ⟨.operand, 0⟩

/-- What a sign behind an operand leads to. -/
def afterOperand (depth : Nat) : Kind → Option Stage
  | .arrow | .and | .or => some ⟨.operand, depth⟩
  | .closing => if depth = 0 then none else some ⟨.sign, depth - 1⟩
  | .endOfText => if depth = 0 then some ⟨.nothing, 0⟩ else none
  | _ => none

/-- What a token leads to, unless it is refused. -/
def step (s : Stage) (k : Kind) : Option Stage :=
  match s.demand with
  | .operand => match k with
    | .not => some ⟨.operand, s.depth⟩
    | .all | .exist => some ⟨.variable, s.depth⟩
    | .opening => some ⟨.operand, s.depth + 1⟩
    | .identifier => some ⟨.arguments, s.depth⟩
    | _ => none
  | .arguments => if k = .opening then some ⟨.term, s.depth⟩ else afterOperand s.depth k
  | .sign => afterOperand s.depth k
  | .variable => if k = .identifier then some ⟨.dot, s.depth⟩ else none
  | .dot => if k = .dot then some ⟨.operand, s.depth⟩ else none
  | .term => if k = .identifier then some ⟨.comma, s.depth⟩ else none
  | .comma => match k with
    | .comma => some ⟨.term, s.depth⟩
    | .closing => some ⟨.sign, s.depth⟩
    | _ => none
  | .nothing => some s

def run : Stage → List Kind → Option Stage
  | s, [] => some s
  | s, k :: ks => (s.step k).bind (run · ks)

variable {s s' s'' : Stage} {d : Nat} {k : Kind} {ks ls : List Kind}

theorem run_cons (h : s.step k = some s') : s.run (k :: ks) = s'.run ks := by
  rw [run, h, Option.bind_some]

@[simp] theorem run_append (s : Stage) (ks ls : List Kind) :
    s.run (ks ++ ls) = (s.run ks).bind (run · ls) := by
  induction ks generalizing s with
  | nil => rfl
  | cons k ks ih =>
    rw [List.cons_append, run, run, Option.bind_assoc]
    exact congrArg _ (funext fun s' => ih s')

theorem run_append_of_some (h : s.run ks = some s') : s.run (ks ++ ls) = s'.run ls := by
  rw [run_append, h, Option.bind_some]

/-- A run through a token that is refused comes to nothing. -/
theorem run_refused (h : s.run ks = some s') (hk : s'.step k = none) (ls : List Kind) :
    s.run (ks ++ k :: ls) = none := by
  rw [run_append_of_some h, run, hk, Option.bind_none]

theorem run_nothing (d : Nat) (ks : List Kind) : run ⟨.nothing, d⟩ ks = some ⟨.nothing, d⟩ := by
  induction ks with
  | nil => rfl
  | cons k ks ih => rwa [run_cons (show step ⟨.nothing, d⟩ k = some ⟨.nothing, d⟩ from rfl)]

/-- The mark at the end leads nowhere else. -/
theorem demand_of_step_endOfText (h : s.step .endOfText = some s') : s'.demand = .nothing := by
  obtain ⟨demand, depth⟩ := s
  cases demand <;> simp [step, afterOperand] at h
  case nothing => rw [← h]
  all_goals rw [← h.2]

end Stage

/-! ### Completions -/

/-- Tokens that make a formula of what was begun, but for the parentheses around it. -/
def Demand.completion : Demand → List Kind
  | .operand => [.identifier]
  | .arguments | .sign => [.and, .identifier]
  | .variable => [.identifier, .dot, .identifier]
  | .dot => [.dot, .identifier]
  | .term => [.identifier, .closing]
  | .comma => [.closing]
  | .nothing => []

namespace Stage

variable {s : Stage} {d : Nat}

def completion (s : Stage) : List Kind := s.demand.completion ++ List.replicate s.depth .closing

/-- An operand has been read to its end, up to arguments that may follow it. -/
def IsPastOperand (s : Stage) : Prop := s.demand = .sign ∨ s.demand = .arguments

theorem IsPastOperand.demand_ne (h : s.IsPastOperand) : s.demand ≠ .nothing := by
  rcases h with h | h <;> simp [h]

theorem IsPastOperand.step_closing (h : s.IsPastOperand) (hd : s.depth = d + 1) :
    s.step .closing = some ⟨.sign, d⟩ := by
  rcases h with h | h <;> simp [step, h, afterOperand, hd]

theorem IsPastOperand.step_endOfText (h : s.IsPastOperand) (hd : s.depth = 0) :
    s.step .endOfText = some ⟨.nothing, 0⟩ := by
  rcases h with h | h <;> simp [step, h, afterOperand, hd]

theorem IsPastOperand.run_closings (h : s.IsPastOperand) :
    s.run (List.replicate s.depth .closing ++ [.endOfText]) = some ⟨.nothing, 0⟩ := by
  induction hd : s.depth generalizing s with
  | zero => exact run_cons (h.step_endOfText hd)
  | succ d ih =>
    rw [List.replicate_succ, List.cons_append, run_cons (h.step_closing hd)]
    exact ih (.inl rfl) rfl

/-- Every beginning can be completed. -/
theorem run_completion (h : s.demand ≠ .nothing) :
    s.run (s.completion ++ [.endOfText]) = some ⟨.nothing, 0⟩ := by
  have hrun : ∃ s', s.run s.demand.completion = some s' ∧ s'.IsPastOperand ∧
      s'.depth = s.depth := by
    obtain ⟨demand, depth⟩ := s
    cases demand with
    | operand => exact ⟨⟨.arguments, depth⟩, rfl, .inr rfl, rfl⟩
    | arguments => exact ⟨⟨.arguments, depth⟩, rfl, .inr rfl, rfl⟩
    | sign => exact ⟨⟨.arguments, depth⟩, rfl, .inr rfl, rfl⟩
    | «variable» => exact ⟨⟨.arguments, depth⟩, rfl, .inr rfl, rfl⟩
    | dot => exact ⟨⟨.arguments, depth⟩, rfl, .inr rfl, rfl⟩
    | term => exact ⟨⟨.sign, depth⟩, rfl, .inl rfl, rfl⟩
    | comma => exact ⟨⟨.sign, depth⟩, rfl, .inl rfl, rfl⟩
    | nothing => exact absurd rfl h
  obtain ⟨s', hrun, hpast, hdepth⟩ := hrun
  rw [completion, List.append_assoc, run_append_of_some hrun, ← hdepth, hpast.run_closings]

end Stage

/-! ### What is read is taken -/

def kinds (ts : List Token) : List Kind := ts.map Token.kind

variable {ts us r rest : List Token} {t : Token} {k : Kind} {as : List String} {p : Place}
  {f g : Formula} {s s' : Stage} {d d' : Nat} {e : Stop}

@[simp] theorem kinds_append (ts us : List Token) : kinds (ts ++ us) = kinds ts ++ kinds us :=
  List.map_append

namespace Stage

/-- An operand at this depth has been read to its end. -/
def Settled (s : Stage) (d : Nat) (rest : List Token) : Prop :=
  s = ⟨.sign, d⟩ ∨ s = ⟨.arguments, d⟩ ∧ ¬ Begins .opening rest

theorem Settled.step (h : s.Settled d (t :: r)) : s.step t.kind = afterOperand d t.kind := by
  rcases h with rfl | ⟨rfl, hopening⟩
  · rfl
  · exact if_neg fun ht => hopening (begins_cons.mpr ht)

theorem Settled.isPastOperand (h : s.Settled d rest) : s.IsPastOperand ∧ s.depth = d := by
  rcases h with rfl | ⟨rfl, -⟩
  · exact ⟨.inl rfl, rfl⟩
  · exact ⟨.inr rfl, rfl⟩

/-- Tokens are taken up to the end of an operand. -/
def Passes (s : Stage) (ts : List Token) (d : Nat) (rest : List Token) : Prop :=
  ∃ us s', ts = us ++ rest ∧ s.run (kinds us) = some s' ∧ s'.Settled d rest

theorem Settled.passes (h : s.Settled d rest) : s.Passes rest d rest := ⟨[], s, rfl, rfl, h⟩

theorem Passes.cons (ht : t.kind = k) (hstep : s.step k = some s') (h : s'.Passes r d rest) :
    s.Passes (t :: r) d rest := by
  subst ht
  obtain ⟨us, s'', rfl, hrun, hsettled⟩ := h
  exact ⟨t :: us, s'', rfl, (run_cons hstep).trans hrun, hsettled⟩

theorem Passes.trans (h : s.Passes ts d r)
    (h' : ∀ s' : Stage, s'.Settled d r → s'.Passes r d' rest) : s.Passes ts d' rest := by
  obtain ⟨us, s', rfl, hrun, hsettled⟩ := h
  obtain ⟨vs, s'', rfl, hrun', hsettled'⟩ := h' s' hsettled
  refine ⟨us ++ vs, s'', (List.append_assoc _ _ _).symm, ?_, hsettled'⟩
  rw [kinds_append, run_append_of_some hrun, hrun']

/-- Behind an operand a sign is taken, and what it leads to. -/
theorem Passes.trans_sign (h : s.Passes ts d (t :: r)) (ht : t.kind = k)
    (hstep : afterOperand d k = some s') (h' : s'.Passes r d' rest) : s.Passes ts d' rest :=
  h.trans fun _ hsettled => .cons rfl (hsettled.step.trans (ht ▸ hstep)) h'

end Stage

theorem passes_of_readsArguments (h : ReadsArguments ts as rest) (d : Nat) :
    (⟨.term, d⟩ : Stage).Passes ts d rest := by
  induction h with
  | last ha hu => exact .cons ha rfl (.cons hu rfl (Stage.Settled.passes (.inl rfl)))
  | cons ha hc _ ih => exact .cons ha rfl (.cons hc rfl ih)

theorem Stage.step_quantifierToken (q : Quantifier) (d : Nat) :
    (⟨.operand, d⟩ : Stage).step (quantifierToken q) = some ⟨.variable, d⟩ := by
  cases q <;> rfl

theorem Stage.afterOperand_token (c : Chain) (d : Nat) :
    afterOperand d c.token = some ⟨.operand, d⟩ := by
  cases c <;> rfl

/-- The stages at which the parser gets to a place. -/
def Place.Entered (p : Place) (d : Nat) (ts : List Token) (s : Stage) : Prop :=
  match p with
  | .layer _ => s = ⟨.operand, d⟩
  | .after _ _ => s.Settled d ts

/-- The tokens that the parser reads are taken. -/
theorem passes_of_reads (h : Reads p ts f rest) (hs : p.Entered d ts s) : s.Passes ts d rest := by
  induction h generalizing s d with
  | imp _ ht _ ihf ihg => exact (ihf hs).trans_sign ht rfl (ihg rfl)
  | disjunct _ _ ih => exact ih hs
  | chain _ _ ihf ihg => exact (ihf hs).trans fun _ hsettled => ihg hsettled
  | stop => exact Stage.Settled.passes hs
  | @step c _ _ _ _ _ _ _ ht _ _ ihg ihk =>
    exact (Stage.Settled.passes hs).trans_sign ht (Stage.afterOperand_token c d)
      ((ihg rfl).trans fun _ hsettled => ihk hsettled)
  | neg ht _ ih =>
    obtain rfl := hs
    exact .cons ht rfl (ih rfl)
  | @quantified q _ _ _ _ _ _ ht hv hd _ ih =>
    obtain rfl := hs
    exact .cons ht (Stage.step_quantifierToken q d) (.cons hv rfl (.cons hd rfl (ih rfl)))
  | parens ht _ hu ih =>
    obtain rfl := hs
    exact .cons ht rfl ((ih rfl).trans_sign hu rfl (Stage.Settled.passes (.inl rfl)))
  | atom ht hrest =>
    obtain rfl := hs
    exact .cons ht rfl (Stage.Settled.passes (.inr ⟨rfl, hrest⟩))
  | application ht ho has =>
    obtain rfl := hs
    exact .cons ht rfl (.cons ho rfl (passes_of_readsArguments has _))

/-! ### Where reading stops, a token is refused -/

namespace Stage

/-- Tokens are taken up to one that is refused, and that is where the fault is. -/
def Halts (s : Stage) (ts : List Token) (e : Stop) : Prop :=
  ∃ us rest s', ts = us ++ rest ∧ s.run (kinds us) = some s' ∧ s'.demand ≠ .nothing ∧
    ∀ t ∈ rest.head?, s'.step t.kind = none ∧ e.position = t.position

theorem halts_here (hs : s.demand ≠ .nothing)
    (h : ∀ t ∈ ts.head?, s.step t.kind = none ∧ e.position = t.position) : s.Halts ts e :=
  ⟨[], ts, s, rfl, rfl, hs, h⟩

theorem Halts.cons (ht : t.kind = k) (hstep : s.step k = some s') (h : s'.Halts r e) :
    s.Halts (t :: r) e := by
  subst ht
  obtain ⟨us, rest, s'', rfl, hrun, hdemand, hrefused⟩ := h
  exact ⟨t :: us, rest, s'', rfl, (run_cons hstep).trans hrun, hdemand, hrefused⟩

theorem Passes.halts (h : s.Passes ts d r) (h' : ∀ s' : Stage, s'.Settled d r → s'.Halts r e) :
    s.Halts ts e := by
  obtain ⟨us, s', rfl, hrun, hsettled⟩ := h
  obtain ⟨vs, rest, s'', rfl, hrun', hdemand, hrefused⟩ := h' s' hsettled
  refine ⟨us ++ vs, rest, s'', (List.append_assoc _ _ _).symm, ?_, hdemand, hrefused⟩
  rw [kinds_append, run_append_of_some hrun, hrun']

theorem Passes.halts_sign (h : s.Passes ts d (t :: r)) (ht : t.kind = k)
    (hstep : afterOperand d k = some s') (h' : s'.Halts r e) : s.Halts ts e :=
  h.halts fun _ hsettled => .cons rfl (hsettled.step.trans (ht ▸ hstep)) h'

/-- Behind a formula that was read to its end, only a closing parenthesis or the mark at the end is
taken, according to the depth. -/
theorem afterOperand_eq_none (h : Ended .implication (t :: r))
    (hclosing : t.kind = .closing → d = 0) (hend : t.kind = .endOfText → d ≠ 0) :
    afterOperand d t.kind = none := by
  have hjoins : ∀ k ∈ Layer.implication.joins, t.kind ≠ k := fun k hk ht =>
    h k hk (begins_cons.mpr ht)
  generalize t.kind = k at *
  cases k with
  | closing => exact if_pos (hclosing rfl)
  | endOfText => exact if_neg (hend rfl)
  | arrow | and | or => exact absurd rfl (hjoins _ (by decide))
  | _ => rfl

end Stage

theorem of_take_error {what : Expected} (h : take k what ts = .error e) :
    ∀ t ∈ ts.head?, t.kind ≠ k ∧ e.position = t.position := by
  intro t ht
  cases ts with
  | nil => exact absurd ht (by simp)
  | cons u r =>
    obtain rfl := Option.some.inj ht
    rw [take] at h
    split at h
    · exact absurd h (by simp)
    · next hk =>
      obtain rfl := Except.error.inj h
      exact ⟨hk, rfl⟩

/-- Where a token of one kind has to come and does not, another is refused. -/
theorem halts_of_take {what : Expected} (h : take k what ts = .error e)
    (hs : s.demand ≠ .nothing) (hrefused : ∀ k' ≠ k, s.step k' = none) : s.Halts ts e :=
  Stage.halts_here hs fun t ht =>
    ⟨hrefused _ (of_take_error h t ht).1, (of_take_error h t ht).2⟩

theorem halts_arguments (h : arguments ts = .error e) (d : Nat) :
    (⟨.term, d⟩ : Stage).Halts ts e := by
  induction hn : ts.length using Nat.strongRecOn generalizing ts with
  | _ n ih =>
    subst hn
    rw [arguments] at h
    split at h
    · next htake =>
      obtain rfl := Except.error.inj h
      exact halts_of_take htake (by simp) fun k hk => if_neg hk
    · next a hr htake =>
      obtain ⟨rfl, ha⟩ := of_take htake
      exact .cons ha rfl (Stage.halts_here (by simp) (by simp))
    · next a t r hr htake =>
      obtain ⟨rfl, ha⟩ := of_take htake
      refine .cons ha rfl ?_
      split at h
      · next hc =>
        split at h
        · next hargs =>
          obtain rfl := Except.error.inj h
          exact .cons hc rfl (ih r.length (by simp only [List.length_cons]; omega) hargs rfl)
        · exact absurd h (by simp)
      · next hc =>
        split at h
        · next hclose =>
          obtain rfl := Except.error.inj h
          obtain ⟨hkind, hposition⟩ := of_take_error hclose t rfl
          refine Stage.halts_here (by simp) fun u hu => ?_
          obtain rfl := Option.some.inj hu
          refine ⟨?_, hposition⟩
          generalize t.kind = k at hc hkind
          cases k with
          | comma => exact absurd rfl hc
          | closing => exact absurd rfl hkind
          | _ => rfl
        · exact absurd h (by simp)

theorem halts_atom {name : String} (h : atom name ts = .error e) (d : Nat) :
    (⟨.arguments, d⟩ : Stage).Halts ts e := by
  cases ts with
  | nil => exact absurd h (by simp [Parser.atom])
  | cons o r =>
    rw [Parser.atom] at h
    split at h
    · next ho =>
      split at h
      · next hargs =>
        obtain rfl := Except.error.inj h
        exact .cons ho rfl (halts_arguments hargs d)
      · exact absurd h (by simp)
    · exact absurd h (by simp)

/-- What the functions of the parser stop with at a place. -/
def Faults (p : Place) (ts : List Token) (e : Stop) : Prop :=
  match p with
  | .layer l => layer l ts = .error e
  | .after c f => chain c f ts = .error e

/-- At places of less weight, reading stops where a token is refused. -/
def HaltsBelow (n : Nat) : Prop :=
  ∀ p ts e s d, p.weight ts < n → Faults p ts e → p.Entered d ts s → s.Halts ts e

section Steps

variable {n : Nat} {l : Layer} {c : Chain} {q : Quantifier}

theorem HaltsBelow.layer (ih : HaltsBelow n) (h : Parser.layer l ts = .error e)
    (hn : 5 * ts.length + l.rank < n) (d : Nat) : (⟨.operand, d⟩ : Stage).Halts ts e :=
  ih (.layer l) ts e _ d hn h rfl

theorem passes_layer {hlt : rest.length < ts.length} (h : layer l ts = .ok (f, ⟨rest, hlt⟩))
    (d : Nat) : (⟨.operand, d⟩ : Stage).Passes ts d rest :=
  passes_of_reads (p := .layer l) (computes_iff_reads.mp ⟨hlt, h⟩) rfl

/-- Behind a formula that was read to its end, no more than what its depth asks for is taken. -/
theorem halts_behind {hlt : rest.length < ts.length}
    (h : layer .implication ts = .ok (f, ⟨rest, hlt⟩))
    (hrest : ∀ t ∈ rest.head?, (t.kind = .closing → d = 0) ∧ (t.kind = .endOfText → d ≠ 0) ∧
      e.position = t.position) : (⟨.operand, d⟩ : Stage).Halts ts e := by
  have hended := (computes_iff_reads.mp ⟨hlt, h⟩ : Reads (.layer .implication) ts f rest).ended
  refine (passes_layer h d).halts fun s hsettled => ?_
  refine Stage.halts_here hsettled.isPastOperand.1.demand_ne fun t ht => ?_
  obtain ⟨hclosing, hend, hposition⟩ := hrest t ht
  obtain ⟨r, rfl⟩ : ∃ r, rest = t :: r := List.head?_eq_some_iff.mp ht
  exact ⟨hsettled.step.trans (Stage.afterOperand_eq_none hended hclosing hend), hposition⟩

theorem halts_implication (ih : HaltsBelow (5 * ts.length + 4))
    (h : layer .implication ts = .error e) (d : Nat) : (⟨.operand, d⟩ : Stage).Halts ts e := by
  rw [layer] at h
  split at h
  · next hf =>
    obtain rfl := Except.error.inj h
    exact ih.layer hf (by simp [Layer.rank]) d
  · exact absurd h (by simp)
  · next f t r hr hf =>
    split at h
    · next ht =>
      split at h
      · next hg =>
        obtain rfl := Except.error.inj h
        rw [List.length_cons] at hr
        exact (passes_layer hf d).halts_sign ht rfl
          (ih.layer hg (by simp [Layer.rank]; omega) d)
      · exact absurd h (by simp)
    · exact absurd h (by simp)

/-- Chains of both kinds are read alike: an operand, and what follows it. -/
theorem layer_chain (c : Chain) (ts : List Token) : layer c.layer ts =
    (layer c.operand ts).bind fun x =>
      (chain c x.1 x.2.1).map fun y => (y.1, ⟨y.2.1, y.2.2.trans_lt x.2.2⟩) := by
  cases c
  all_goals
    rw [Chain.layer, layer]
    split
    · next hf =>
      rw [Chain.operand, hf]
      rfl
    · next hf =>
      rw [Chain.operand, hf]
      dsimp only [Except.bind]
      split <;> next hg => rw [hg, Except.map]

theorem halts_chain (ih : HaltsBelow (5 * ts.length + c.layer.rank))
    (h : layer c.layer ts = .error e) (d : Nat) : (⟨.operand, d⟩ : Stage).Halts ts e := by
  have hoperand : c.operand.rank < c.layer.rank := by cases c <;> decide
  rw [layer_chain] at h
  cases hf : layer c.operand ts with
  | error e' =>
    rw [hf] at h
    obtain rfl := Except.error.inj h
    exact ih.layer hf (by omega) d
  | ok x =>
    obtain ⟨f, r, hr⟩ := x
    rw [hf] at h
    cases hg : chain c f r with
    | error e' =>
      rw [Except.bind, hg] at h
      obtain rfl := Except.error.inj h
      exact (passes_layer hf d).halts fun s hsettled =>
        ih (.after c f) r _ s d (by simp only [Place.weight]; omega) hg hsettled
    | ok y =>
      rw [Except.bind, hg] at h
      exact absurd h (by simp [Except.map])

theorem halts_after (ih : HaltsBelow (5 * ts.length)) (h : chain c f ts = .error e)
    (hs : s.Settled d ts) : s.Halts ts e := by
  cases ts with
  | nil =>
    rw [chain] at h
    exact absurd h (by simp)
  | cons t r =>
    rw [chain] at h
    have hrank := c.operand.rank_le
    split at h
    · next ht =>
      have hstep : s.step t.kind = some ⟨.operand, d⟩ :=
        hs.step.trans (ht ▸ Stage.afterOperand_token c d)
      split at h
      · next hg =>
        obtain rfl := Except.error.inj h
        exact .cons rfl hstep (ih.layer hg (by rw [List.length_cons]; omega) d)
      · next g r' hr' hg =>
        split at h
        · next hk =>
          obtain rfl := Except.error.inj h
          refine .cons rfl hstep ((passes_layer hg d).halts fun s' hsettled => ?_)
          exact ih (.after c _) r' _ s' d (by simp only [Place.weight, List.length_cons]; omega) hk
            hsettled
        · exact absurd h (by simp)
    · exact absurd h (by simp)

theorem halts_quantified {hr : r.length < ts.length} (ih : HaltsBelow (5 * ts.length + 1))
    (h : quantified q ts r hr = .error e) (d : Nat) : (⟨.variable, d⟩ : Stage).Halts r e := by
  rw [quantified] at h
  split at h
  · next htake =>
    obtain rfl := Except.error.inj h
    exact halts_of_take htake (by simp) fun k hk => if_neg hk
  next v r' hr' htake =>
  obtain ⟨rfl, hv⟩ := of_take htake
  refine .cons hv rfl ?_
  split at h
  · next htake =>
    obtain rfl := Except.error.inj h
    exact halts_of_take htake (by simp) fun k hk => if_neg hk
  next dot more hmore htake =>
  obtain ⟨rfl, hdot⟩ := of_take htake
  refine .cons hdot rfl ?_
  split at h
  · next hf =>
    obtain rfl := Except.error.inj h
    refine ih.layer hf ?_ d
    simp [Layer.rank] at hr ⊢
    omega
  · exact absurd h (by simp)

theorem halts_unary (ih : HaltsBelow (5 * ts.length + 1)) (h : layer .unary ts = .error e)
    (d : Nat) : (⟨.operand, d⟩ : Stage).Halts ts e := by
  cases ts with
  | nil => exact Stage.halts_here (by simp) (by simp)
  | cons t r =>
    rw [layer] at h
    split at h
    · next ht =>
      split at h
      · next hf =>
        obtain rfl := Except.error.inj h
        exact .cons ht rfl (ih.layer hf (by simp [Layer.rank]) d)
      · exact absurd h (by simp)
    · next ht =>
      exact .cons ht rfl (halts_quantified ih h d)
    · next ht =>
      exact .cons ht rfl (halts_quantified ih h d)
    · next ht =>
      split at h
      · next hf =>
        obtain rfl := Except.error.inj h
        exact .cons ht rfl (ih.layer hf (by simp [Layer.rank]; omega) (d + 1))
      · next f r' hr' hf =>
        split at h
        · next htake =>
          obtain rfl := Except.error.inj h
          -- a formula was read, but the parenthesis around it is not closed behind it
          refine .cons ht rfl (halts_behind (d := d + 1) hf fun u hu => ?_)
          obtain ⟨hkind, hposition⟩ := of_take_error htake u hu
          exact ⟨fun hu => absurd hu hkind, fun _ => Nat.succ_ne_zero d, hposition⟩
        · exact absurd h (by simp)
    · next ht =>
      split at h
      · next hatom =>
        obtain rfl := Except.error.inj h
        exact .cons ht rfl (halts_atom hatom d)
      · exact absurd h (by simp)
    · next hnot hall hexist hopening hidentifier =>
      obtain rfl := Except.error.inj h
      refine Stage.halts_here (by simp) fun u hu => ?_
      obtain rfl := Option.some.inj hu
      refine ⟨?_, rfl⟩
      generalize t.kind = k at *
      cases k with
      | not => exact absurd rfl hnot
      | all => exact absurd rfl hall
      | exist => exact absurd rfl hexist
      | opening => exact absurd rfl hopening
      | identifier => exact absurd rfl hidentifier
      | _ => rfl

end Steps

theorem haltsBelow (n : Nat) : HaltsBelow n := by
  induction n with
  | zero => exact fun p ts e s d hn => absurd hn (Nat.not_lt_zero _)
  | succ n ih =>
    have ih : ∀ m ≤ n, HaltsBelow m := fun m hm p ts e s d hn => ih p ts e s d (by omega)
    intro p ts e s d hn h hs
    have ih := ih (p.weight ts) (by omega)
    cases p with
    | after c f => exact halts_after ih h hs
    | layer l =>
      obtain rfl := hs
      cases l with
      | implication => exact halts_implication ih h d
      | disjunction => exact halts_chain (c := .or) ih h d
      | conjunction => exact halts_chain (c := .and) ih h d
      | unary => exact halts_unary ih h d

/-! ### Lists of tokens -/

/-- No token of a formula is refused, nor is what stands behind the mark at its end. -/
theorem exists_run_of_formula (h : formula ts = .ok f) :
    ∃ s, Stage.start.run (kinds ts) = some s := by
  obtain ⟨rest, hread, hend⟩ := formula_eq_ok_iff.mp h
  obtain ⟨us, s, rfl, hrun, hsettled⟩ := passes_of_reads (s := .start) (d := 0) hread rfl
  rw [kinds_append, Stage.run_append_of_some hrun]
  cases rest with
  | nil => exact ⟨s, rfl⟩
  | cons t r =>
    obtain ⟨hpast, hdepth⟩ := hsettled.isPastOperand
    have hstep := hpast.step_endOfText hdepth
    rw [← hend t rfl] at hstep
    exact ⟨_, (Stage.run_cons hstep).trans (Stage.run_nothing _ _)⟩

/-- Where the parser finds a fault, it is at the first token that is refused. -/
theorem halts_of_formula (h : formula ts = .error e) : Stage.start.Halts ts e := by
  rw [formula] at h
  split at h
  · next hf =>
    obtain rfl := Except.error.inj h
    exact haltsBelow _ (.layer .implication) ts _ .start 0 (Nat.lt_succ_self _) hf rfl
  · exact absurd h (by simp)
  · next f t r hr hf =>
    split at h
    · exact absurd h (by simp)
    · next ht =>
      obtain rfl := Except.error.inj h
      refine halts_behind (d := 0) hf fun u hu => ?_
      obtain rfl := Option.some.inj hu
      exact ⟨fun _ => rfl, fun hend => absurd hend ht, rfl⟩

/-- Tokens that are taken to the end are a formula. -/
theorem exists_formula_of_run (h : Stage.start.run (kinds ts) = some ⟨.nothing, 0⟩) :
    ∃ f, formula ts = .ok f := by
  cases hf : formula ts with
  | ok f => exact ⟨f, rfl⟩
  | error e =>
    obtain ⟨us, rest, s, rfl, hrun, hdemand, hrefused⟩ := halts_of_formula hf
    cases rest with
    | nil =>
      rw [List.append_nil, hrun] at h
      obtain rfl := Option.some.inj h
      exact absurd rfl hdemand
    | cons t r =>
      have hnone := Stage.run_refused hrun (hrefused t rfl).1 (kinds r)
      exact absurd ((kinds_append us (t :: r) ▸ h).symm.trans hnone) (by simp)

/-- All of these tokens are taken, and none of them marks the end. -/
def IsBeginning (ts : List Token) : Prop :=
  ∃ s, Stage.start.run (kinds ts) = some s ∧ s.demand ≠ .nothing

/-- No formula begins with these tokens, of which only the kinds are looked at. -/
def NeverBegins (ts : List Token) : Prop :=
  ∀ us f, kinds ts <+: kinds us → formula us ≠ .ok f

/-- A fault is at the first token with which what came before is no longer the beginning of a
formula. -/
theorem exists_fault_of_formula (h : formula ts = .error e) (hend : ∃ us t, ts = us ++ [t] ∧
    t.kind = .endOfText) :
    ∃ before t after, ts = before ++ t :: after ∧ e.position = t.position ∧
      IsBeginning before ∧ NeverBegins (before ++ [t]) := by
  obtain ⟨us, rest, s, rfl, hrun, hdemand, hrefused⟩ := halts_of_formula h
  cases rest with
  | nil =>
    obtain ⟨vs, t, heq, ht⟩ := hend
    rw [List.append_nil] at heq
    rw [heq, kinds_append, Stage.run_append] at hrun
    obtain ⟨s', -, hlast⟩ := Option.bind_eq_some_iff.mp hrun
    have hstep : s'.step .endOfText = some s := by simpa [kinds, Stage.run, ht] using hlast
    exact absurd (Stage.demand_of_step_endOfText hstep) hdemand
  | cons t r =>
    obtain ⟨hnone, hposition⟩ := hrefused t rfl
    refine ⟨us, t, r, rfl, hposition, ⟨s, hrun, hdemand⟩, ?_⟩
    rintro vs f ⟨ks, hks⟩ hf
    obtain ⟨s', hs'⟩ := exists_run_of_formula hf
    rw [← hks, kinds_append, List.append_assoc] at hs'
    exact absurd (hs'.symm.trans (Stage.run_refused hrun hnone ks)) (by simp)

end DeductionBoard.Parser
