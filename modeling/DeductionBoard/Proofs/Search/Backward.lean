import DeductionBoard.Proofs.Derivation.Rules
import DeductionBoard.Proofs.Search.Names

/-! Soundness of the search. What the search can find for a goal in a context is a relation, with one
case for each way to close a goal or to reduce it; the search finds nothing else. By induction on the
relation, everything that is found is a construction of its goal: every node follows its rule, with
all side conditions, and leaves only formulas of the context open. New nodes have rules of the
palette, and stand where no piece could be reused. -/

namespace DeductionBoard

open DeductionBoard.Derivation

/-- Every node follows its rule, where `known i f a` says that the piece `i` stands for a derivation of
`f` that leaves the formulas `a` open. -/
inductive Construction.Sound (known : PieceId → Formula → List Formula → Prop) :
    Construction → Prop
  | reused {i : PieceId} {k : RuleKind} {f : Formula} {a : List Formula} (h : known i f a) :
      Sound known (.reused i k f a)
  | assume (f : Formula) : Sound known (.assume f)
  | both {l r : Construction} (hl : l.Sound known) (hr : r.Sound known) : Sound known (.both l r)
  | leftOf {p : Construction} (other : Formula) (hp : p.Sound known) :
      Sound known (.leftOf p other)
  | rightOf {p : Construction} (other : Formula) (hp : p.Sound known) :
      Sound known (.rightOf other p)
  | implies {p : Construction} (h : Formula) (hp : p.Sound known) : Sound known (.implies h p)
  | refute {p c : Construction} (h : Formula) (hp : p.Sound known) (hc : c.Sound known)
      (hneg : c.formula = .neg p.formula) : Sound known (.refute h p c)
  | quantify {q : Quantifier} {v : String} {term : Option String} {body : Formula}
      {p : Construction} (hp : p.Sound known) (huv : isUsableName v = true)
      (hut : isUsableName (term.getD v) = true)
      (hfree : term.getD v ≠ v → v ∉ p.formula.freeVars)
      (hbody : p.formula.substitute (term.getD v) v = some body)
      (hapart : ∀ f ∈ p.assumptions, ∀ x ∈ Context.eigenNames q v (term.getD v),
        x ∉ f.freeVars) : Sound known (.quantify q v term body p)

/-- The hypothesis that the root closes. -/
def Construction.discharged : Construction → List Formula
  | .implies h _ => [h]
  | .refute h _ _ => [h]
  | _ => []

namespace Search

variable {α β : Type} {m : Trial α} {P Q : α → Prop} {known : PieceId → Formula → List Formula → Prop}
  {goal f g : Formula} {ctx : List Formula} {room : Room} {prove : Tactic} {r : Resources}

/-! ### Trials -/

/-- What a trial yields, if it yields anything, has a property. -/
def Yields (m : Trial α) (P : α → Prop) : Prop := ∀ n a, (m.run.run n).1 = .ok a → P a

theorem yields_pure {a : α} (h : P a) : Yields (pure a) P := by
  intro n b hb
  obtain rfl := Except.ok.inj hb
  exact h

theorem yields_throw (e : Stop) : Yields (throw e : Trial α) P := by
  intro n a ha
  exact absurd ha (by simp [throw, throwThe, MonadExceptOf.throw, ExceptT.run, ExceptT.mk])

@[simp] theorem run_bind (m : Trial α) (k : α → Trial β) (n : Nat) :
    (m >>= k).run.run n = match m.run.run n with
      | (.ok a, n') => (k a).run.run n'
      | (.error e, n') => (.error e, n') := by
  simp only [bind, ExceptT.bind, ExceptT.run, ExceptT.mk, StateT.run, StateT.bind]
  rcases m n with ⟨a | e, n'⟩ <;> rfl

theorem yields_bind {k : α → Trial β} {Q : β → Prop} (hm : Yields m P)
    (hk : ∀ a, P a → Yields (k a) Q) : Yields (m >>= k) Q := by
  intro n b hb
  rw [run_bind] at hb
  cases hrun : m.run.run n with
  | mk res n' =>
    rw [hrun] at hb
    cases res with
    | ok a => exact hk a (hm n a (by rw [hrun])) n' b hb
    | error e => exact absurd hb (by simp)

theorem yields_true (m : Trial α) : Yields m fun _ => True := fun _ _ _ => trivial

/-- What a trial finds, if it finds anything, has a property. -/
def Finds (m : Trial (Option α)) (P : α → Prop) : Prop := Yields m fun o => ∀ a, o = some a → P a

theorem finds_none : Finds (pure none) P := yields_pure fun _ h => absurd h (by simp)

theorem finds_some {a : α} (h : P a) : Finds (pure (some a)) P :=
  yields_pure fun _ hb => Option.some.inj hb ▸ h

/-- A trial goes on with nothing or with what was found. -/
theorem finds_bind {m : Trial (Option α)} {k : Option α → Trial (Option β)} {Q : β → Prop}
    (hm : Finds m P) (hnone : Finds (k none) Q) (hsome : ∀ a, P a → Finds (k (some a)) Q) :
    Finds (m >>= k) Q := by
  refine yields_bind hm fun o ho => ?_
  cases o with
  | none => exact hnone
  | some a => exact hsome a (ho a rfl)

/-- A trial that may be given up first finds nothing else. -/
theorem finds_unless {m : Trial (Option α)} {gap : Bool} {e : Stop} (h : Finds m P) :
    Finds (do
      if gap then throw e
      m) P := by
  dsimp only
  split
  · exact yields_bind (yields_true _) fun _ _ => h
  · exact h

theorem finds_firstOf {attempt : α → Trial (Option Construction)} {P : Construction → Prop}
    {l : List α} (h : ∀ a ∈ l, Finds (attempt a) P) : Finds (firstOf attempt l) P := by
  induction l with
  | nil => exact finds_none
  | cons a l ih =>
    rw [firstOf]
    refine finds_bind (h a List.mem_cons_self) ?_ fun c hc => finds_some hc
    exact ih fun b hb => h b (List.mem_cons_of_mem _ hb)

/-! ### What the search finds -/

/-- What can be found for a goal in a context: a piece at hand, or, where none can be reused, an
assumption of the context or the introduction rule of the goal over what can be found for its
premises. -/
inductive Found (r : Resources) : Formula → List Formula → Construction → Prop
  | reuse {goal : Formula} {ctx : List Formula} {p : Placed}
      (hp : List.lookup goal r.existing = some p) (hopen : ∀ f ∈ p.assumptions, f ∈ ctx) :
      Found r goal ctx (.reused p.piece p.kind goal p.assumptions)
  | assume {goal : Formula} {ctx : List Formula} (hnew : reuse? r goal ctx = none)
      (hr : r.palette.contains .assumption = true) (hctx : goal ∈ ctx) : Found r goal ctx (.assume goal)
  | both {f g : Formula} {ctx : List Formula} {c d : Construction}
      (hnew : reuse? r (.conj f g) ctx = none) (hr : r.palette.contains .andIntro = true)
      (hc : Found r f ctx c) (hd : Found r g ctx d) : Found r (.conj f g) ctx (.both c d)
  | leftOf {f : Formula} {ctx : List Formula} {c : Construction} (g : Formula)
      (hnew : reuse? r (.disj f g) ctx = none) (hr : r.palette.contains .orIntro = true)
      (hc : Found r f ctx c) : Found r (.disj f g) ctx (.leftOf c g)
  | rightOf {g : Formula} {ctx : List Formula} {c : Construction} (f : Formula)
      (hnew : reuse? r (.disj f g) ctx = none) (hr : r.palette.contains .orIntro = true)
      (hc : Found r g ctx c) : Found r (.disj f g) ctx (.rightOf f c)
  | implies {f g : Formula} {ctx : List Formula} {c : Construction}
      (hnew : reuse? r (.imp f g) ctx = none) (hr : r.palette.contains .impliesIntro = true)
      (hc : Found r g (Ascending.insert f ctx) c) : Found r (.imp f g) ctx (.implies f c)
  | refute {f g : Formula} {ctx : List Formula} {c d : Construction}
      (hnew : reuse? r (.neg f) ctx = none) (hr : r.palette.contains .notIntro = true)
      (hg : g ∈ contradictionCandidates (Ascending.insert f ctx))
      (hc : Found r g (Ascending.insert f ctx) c)
      (hd : Found r (.neg g) (Ascending.insert f ctx) d) :
      Found r (.neg f) ctx (.refute f c d)
  | universal {v : String} {body i : Formula} {ctx : List Formula} {c : Construction}
      (hnew : reuse? r (.all v body) ctx = none) (hr : r.palette.contains .forallIntro = true)
      (hi : instanceOf v (eigenTerm v body ctx) body = some i) (hc : Found r i ctx c)
      (hapart : ¬ occursIn [v, eigenTerm v body ctx] c.assumptions = true) :
      Found r (.all v body) ctx
        (.quantify .all v (otherTerm v (eigenTerm v body ctx)) body c)
  | existential {v t : String} {body i : Formula} {ctx : List Formula} {c : Construction}
      (hnew : reuse? r (.exist v body) ctx = none) (hr : r.palette.contains .existsIntro = true)
      (ht : t ∈ witnesses v ctx)
      (hi : witnessed v t body = some i) (hc : Found r i ctx c)
      (hapart : ¬ occursIn [v] c.assumptions = true) :
      Found r (.exist v body) ctx (.quantify .exist v (otherTerm v t) body c)

/-- A way to prove goals that finds nothing else. -/
def Tactic.Within (r : Resources) (prove : Tactic) : Prop :=
  ∀ goal ctx room, Finds (prove goal ctx room) (Found r goal ctx)

theorem finds_pair (hprove : prove.Within r) :
    Finds (pair prove f g ctx room) fun e => Found r f ctx e.1 ∧ Found r g ctx e.2 := by
  rw [pair]
  refine finds_bind (hprove f ctx room) finds_none fun c hc => ?_
  exact finds_bind (hprove g ctx _) finds_none fun d hd => finds_some ⟨hc, hd⟩

theorem finds_negation (hprove : prove.Within r) (hnew : reuse? r (.neg f) ctx = none)
    (hr : r.palette.contains .notIntro = true) :
    Finds (proveNegation prove f ctx room) (Found r (.neg f) ctx) := by
  refine finds_firstOf fun g hg => ?_
  exact finds_bind (finds_pair hprove) finds_none fun e he => finds_some (.refute hnew hr hg he.1 he.2)

theorem finds_universal {v : String} {body : Formula} (hprove : prove.Within r)
    (hnew : reuse? r (.all v body) ctx = none) (hr : r.palette.contains .forallIntro = true) :
    Finds (proveUniversal prove v body ctx room) (Found r (.all v body) ctx) := by
  rw [proveUniversal]
  cases hi : instanceOf v (eigenTerm v body ctx) body with
  | none => exact finds_none
  | some i =>
    refine finds_bind (hprove i ctx room) finds_none fun c hc => ?_
    refine yields_pure fun d hd => ?_
    split at hd
    · exact absurd hd (by simp)
    · next hoccurs =>
      obtain rfl := Option.some.inj hd
      exact .universal hnew hr hi hc hoccurs

theorem finds_existential {v : String} {body : Formula} (hprove : prove.Within r)
    (hnew : reuse? r (.exist v body) ctx = none) (hr : r.palette.contains .existsIntro = true) :
    Finds (proveExistential prove v body ctx room) (Found r (.exist v body) ctx) := by
  refine finds_firstOf fun t ht => ?_
  cases hi : witnessed v t body with
  | none => exact finds_none
  | some i =>
    refine finds_bind (hprove i ctx room) finds_none fun c hc => ?_
    refine yields_pure fun d hd => ?_
    split at hd
    · exact absurd hd (by simp)
    · next hoccurs =>
      obtain rfl := Option.some.inj hd
      exact .existential hnew hr ht hi hc hoccurs

theorem finds_introduce (hprove : prove.Within r) (hnew : reuse? r goal ctx = none) :
    Finds (introduce r prove goal ctx room) (Found r goal ctx) := by
  unfold introduce
  split
  · exact finds_none
  · next f g =>
    split
    · next hr =>
      exact finds_bind (finds_pair hprove) finds_none fun e he => finds_some (.both hnew hr he.1 he.2)
    · exact finds_none
  · next f g =>
    split
    · next hr =>
      refine finds_bind (hprove f ctx room) ?_ fun c hc => finds_some (.leftOf g hnew hr hc)
      exact finds_bind (hprove g ctx room) finds_none fun c hc => finds_some (.rightOf f hnew hr hc)
    · exact finds_none
  · next f g =>
    split
    · next hr =>
      exact finds_bind (hprove g _ room) finds_none fun c hc => finds_some (.implies hnew hr hc)
    · exact finds_none
  · next f =>
    split
    · next hr => exact finds_unless (finds_negation hprove hnew hr)
    · exact finds_none
  · next v f =>
    split
    · next hr => exact finds_unless (finds_universal hprove hnew hr)
    · exact finds_none
  · next v f =>
    split
    · next hr => exact finds_unless (finds_existential hprove hnew hr)
    · exact finds_none

theorem found_of_leaf {c : Construction} (hc : leaf? r goal ctx room = some c) :
    Found r goal ctx c := by
  rw [leaf?] at hc
  split at hc
  · next d hd =>
    obtain rfl := Option.some.inj hc
    rw [reuse?] at hd
    split at hd
    · exact absurd hd (by simp)
    next p hp =>
    split at hd
    · next hall =>
      obtain rfl := Option.some.inj hd
      exact .reuse hp fun f hf => by simpa using List.all_eq_true.mp hall f hf
    · exact absurd hd (by simp)
  · next hnew =>
    split at hc
    · exact absurd hc (by simp)
    split at hc
    · next hmem =>
      obtain rfl := Option.some.inj hc
      exact .assume hnew hmem.2 hmem.1
    · exact absurd hc (by simp)

/-- Rules are tried where no piece can be reused. -/
theorem reuse?_eq_none_of_leaf (h : leaf? r goal ctx room = none) : reuse? r goal ctx = none := by
  rw [leaf?] at h
  split at h
  · exact nomatch h
  · next hnew => exact hnew

/-- At every depth the search only finds what can be found. -/
theorem within_proveWithin (r : Resources) (n : Nat) : (proveWithin r n).Within r := by
  induction n with
  | zero =>
    intro goal ctx room
    rw [proveWithin]
    exact yields_bind (yields_true _) fun _ _ => yields_pure fun c hc => found_of_leaf hc
  | succ n ih =>
    intro goal ctx room
    rw [proveWithin]
    refine yields_bind (yields_true _) fun _ _ => ?_
    cases hleaf : leaf? r goal ctx room with
    | some c => exact finds_some (found_of_leaf hleaf)
    | none =>
      dsimp only
      split
      · exact finds_none
      · exact finds_introduce ih (reuse?_eq_none_of_leaf hleaf)

theorem within_proveTo (r : Resources) (depth : Limit) : Tactic.Within r (proveTo r depth) := by
  intro goal ctx room
  cases depth with
  | upTo d => exact within_proveWithin r _ goal ctx room
  | unbounded => exact within_proveWithin r _ goal ctx room
  | illTyped =>
    refine yields_bind (yields_true _) fun _ _ => ?_
    cases hleaf : leaf? r goal ctx room with
    | some c => exact finds_some (found_of_leaf hleaf)
    | none =>
      dsimp only
      split
      · exact finds_none
      · exact yields_throw _

theorem found_of_prove {depth : Limit} {premises : List Formula} {o : Outcome} {c : Construction}
    (ho : Search.prove r depth premises goal room = .ok o) (hc : o.found = some c) :
    Found r goal (Ascending.ofList premises) c := by
  rw [Search.prove] at ho
  split at ho
  · next found n hrun =>
    obtain rfl := Except.ok.inj ho
    exact within_proveTo r depth goal _ room 0 found (by rw [hrun]) c hc
  · obtain rfl := Except.ok.inj ho
    exact absurd hc (by simp)
  · exact absurd ho (by simp)

/-! ### Rules -/

/-- A construction of a goal that leaves only formulas of a context open. -/
structure Closes (known : PieceId → Formula → List Formula → Prop) (goal : Formula)
    (ctx : List Formula) (c : Construction) : Prop where
  sound : c.Sound known
  formula : c.formula = goal
  assumptions : ∀ f ∈ c.assumptions, f ∈ ctx

theorem wellNamed_insert (hf : f.WellNamed) (hctx : ∀ f ∈ ctx, f.WellNamed) :
    ∀ g ∈ Ascending.insert f ctx, g.WellNamed := by
  intro g hg
  rcases Ascending.mem_insert.mp hg with rfl | hg
  · exact hf
  · exact hctx g hg

/-- Candidates stand in the context, plain or negated. -/
theorem wellNamed_candidate (hctx : ∀ f ∈ ctx, f.WellNamed)
    (hf : f ∈ contradictionCandidates ctx) : f.WellNamed := by
  rcases List.mem_append.mp hf with hf | hf
  · rw [List.mem_eraseDups, List.mem_filterMap] at hf
    obtain ⟨g, hg, hgf⟩ := hf
    split at hgf
    · next g' =>
      obtain rfl := Option.some.inj hgf
      show (Formula.neg g').WellNamed
      exact hctx _ hg
    · exact absurd hgf (by simp)
  · exact hctx f (List.mem_of_mem_filter hf)

section Quantifiers

variable {v t : String} {body i : Formula}

theorem getD_otherTerm (v t : String) : (otherTerm v t).getD v = t := by
  rw [otherTerm]
  split
  · next htv => exact htv.symm
  · rfl

/-- An instance with a term that is not free in the body reads back as the body. -/
theorem instanceOf_spec (hbody : body.WellNamed) (ht : isUsableName t = true)
    (hfree : t ≠ v → t ∉ body.freeVars) (hi : instanceOf v t body = some i) :
    i.WellNamed ∧ (t ≠ v → v ∉ i.freeVars) ∧ i.substitute t v = some body := by
  rw [instanceOf] at hi
  split at hi
  · next htv =>
    obtain rfl := Option.some.inj hi
    exact ⟨hbody, fun hne => absurd htv hne, htv ▸ body.substitute_self t⟩
  · next hne =>
    refine ⟨hbody.substitute ht hi, fun _ hv => ?_, Formula.substitute_back hi (hfree hne)⟩
    rcases (Formula.mem_freeVars_substitute hi).mp hv with ⟨-, hvv⟩ | ⟨-, hvt⟩
    · exact hvv rfl
    · exact hne hvt.symm

theorem isUsableName_eigenTerm (hv : isUsableName v = true) :
    isUsableName (eigenTerm v body ctx) = true := by
  rw [eigenTerm]
  split
  · exact isUsableName_freshName hv _
  · exact hv

/-- A made-up term occurs neither in the body nor in the context. -/
theorem eigenTerm_notMem (hne : eigenTerm v body ctx ≠ v) :
    eigenTerm v body ctx ∉ body.freeVars := by
  rw [eigenTerm] at hne ⊢
  split at hne
  · next hany =>
    rw [if_pos hany]
    intro hmem
    refine freshName_notMem v (namesOf (.all v body :: ctx)) ?_
    refine List.mem_flatMap.mpr ⟨.all v body, List.mem_cons_self, List.mem_append_left _ ?_⟩
    exact List.mem_filter.mpr ⟨hmem, by simpa using hne⟩
  · exact absurd rfl hne

theorem not_mem_freeVars_of_occursIn {names : List String} {fs : List Formula}
    (h : ¬ occursIn names fs = true) : ∀ f ∈ fs, ∀ x ∈ names, x ∉ f.freeVars := by
  intro f hf x hx hxf
  refine h (List.any_eq_true.mpr ⟨f, hf, List.any_eq_true.mpr ⟨x, hx, ?_⟩⟩)
  exact decide_eq_true hxf

/-- A construction of an instance becomes one of the quantified formula. -/
theorem sound_quantify {q : Quantifier} {c : Construction} (hv : isUsableName v = true)
    (ht : isUsableName t = true) (hbody : body.WellNamed)
    (hfree : t ≠ v → t ∉ body.freeVars) (hi : instanceOf v t body = some i)
    (hc : c.Sound known) (hformula : c.formula = i)
    (hapart : ∀ f ∈ c.assumptions, ∀ x ∈ Context.eigenNames q v t, x ∉ f.freeVars) :
    (Construction.quantify q v (otherTerm v t) body c).Sound known := by
  obtain ⟨-, hvi, hback⟩ := instanceOf_spec hbody ht hfree hi
  refine .quantify hc hv ?_ ?_ ?_ ?_ <;> rw [getD_otherTerm]
  · exact ht
  · rwa [hformula]
  · rwa [hformula]
  · exact hapart

theorem witnessed_spec (h : witnessed v t body = some i) :
    (t ≠ v → t ∉ body.freeVars) ∧ instanceOf v t body = some i := by
  rw [witnessed] at h
  split at h
  · exact absurd h (by simp)
  next hnot =>
  refine ⟨fun hne hmem => hnot ⟨hne, hmem⟩, ?_⟩
  split at h
  · exact absurd h (by simp)
  next hi =>
  split at h
  · exact absurd h (by simp)
  · rw [hi, h]

theorem isUsableName_witness (hv : isUsableName v = true) (hctx : ∀ f ∈ ctx, f.WellNamed)
    (ht : t ∈ witnesses v ctx) : isUsableName t = true := by
  rcases List.mem_cons.mp ht with rfl | ht
  · exact hv
  · obtain ⟨f, hf, htf⟩ := List.mem_flatMap.mp (Ascending.mem_ofList.mp (List.mem_of_mem_filter ht))
    exact (hctx f hf).of_mem_freeVars htf

end Quantifiers

/-- The pieces at hand are known to derive the formulas they stand under. -/
def Resources.Known (known : PieceId → Formula → List Formula → Prop) (r : Resources) : Prop :=
  ∀ f p, List.lookup f r.existing = some p → known p.piece f p.assumptions

/-- What can be found derives its goal. -/
theorem Found.formula_eq {c : Construction} (h : Found r goal ctx c) : c.formula = goal := by
  induction h with
  | reuse | assume | refute | universal | existential => rfl
  | both _ _ _ _ ihc ihd => rw [Construction.formula, ihc, ihd]
  | leftOf _ _ _ _ ih | rightOf _ _ _ _ ih | implies _ _ _ ih => rw [Construction.formula, ih]

/-- What can be found leaves only formulas of the context open. -/
theorem Found.mem_of_assumptions {c : Construction} (h : Found r goal ctx c) :
    ∀ f ∈ c.assumptions, f ∈ ctx := by
  induction h with
  | reuse _ hopen => exact hopen
  | assume _ _ hmem => exact fun f hf => List.mem_singleton.mp hf ▸ hmem
  | both _ _ _ _ ihc ihd => exact fun f hf => (Ascending.mem_union.mp hf).elim (ihc f) (ihd f)
  | leftOf _ _ _ _ ih | rightOf _ _ _ _ ih | universal _ _ _ _ _ ih | existential _ _ _ _ _ _ ih =>
    exact ih
  | implies _ _ _ ih =>
    intro f hf
    obtain ⟨hf, hne⟩ := List.mem_filter.mp hf
    exact (Ascending.mem_insert.mp (ih f hf)).resolve_left (by simpa using hne)
  | refute _ _ _ _ _ ihc ihd =>
    intro f hf
    obtain ⟨hf, hne⟩ := List.mem_filter.mp hf
    have hf := (Ascending.mem_union.mp hf).elim (ihc f) (ihd f)
    exact (Ascending.mem_insert.mp hf).resolve_left (by simpa using hne)

/-- Every node of what can be found follows its rule. -/
theorem Found.sound {c : Construction} (h : Found r goal ctx c) (hr : r.Known known)
    (hgoal : goal.WellNamed) (hctx : ∀ f ∈ ctx, f.WellNamed) : c.Sound known := by
  induction h with
  | reuse hp => exact .reused (hr _ _ hp)
  | assume => exact .assume _
  | both _ _ _ _ ihc ihd => exact .both (ihc hgoal.1 hctx) (ihd hgoal.2 hctx)
  | leftOf g _ _ _ ih => exact .leftOf g (ih hgoal.1 hctx)
  | rightOf f _ _ _ ih => exact .rightOf f (ih hgoal.2 hctx)
  | @implies f _ _ _ _ _ _ ih => exact .implies f (ih hgoal.2 (wellNamed_insert hgoal.1 hctx))
  | @refute f _ ctx _ _ _ _ hg hc hd ihc ihd =>
    have hinner := wellNamed_insert (f := f) hgoal hctx
    have hnamed := wellNamed_candidate hinner hg
    exact .refute f (ihc hnamed hinner) (ihd hnamed hinner) (by rw [hd.formula_eq, hc.formula_eq])
  | @universal v body i ctx _ _ _ hi hc hapart ih =>
    obtain ⟨hv, hbody⟩ := hgoal
    have ht : isUsableName (eigenTerm v body ctx) = true := isUsableName_eigenTerm hv
    have hnamed := (instanceOf_spec hbody ht eigenTerm_notMem hi).1
    refine sound_quantify hv ht hbody eigenTerm_notMem hi (ih hnamed hctx) hc.formula_eq
      fun f hf x hx => ?_
    refine not_mem_freeVars_of_occursIn hapart f hf x ?_
    simpa [Context.eigenNames, or_comm] using hx
  | existential _ _ ht hi hc hapart ih =>
    obtain ⟨hv, hbody⟩ := hgoal
    have ht := isUsableName_witness hv hctx ht
    obtain ⟨hfree, hi⟩ := witnessed_spec hi
    have hnamed := (instanceOf_spec hbody ht hfree hi).1
    exact sound_quantify hv ht hbody hfree hi (ih hnamed hctx) hc.formula_eq
      (not_mem_freeVars_of_occursIn hapart)

/-- What can be found is a construction of its goal. -/
theorem Found.closes {c : Construction} (h : Found r goal ctx c) (hr : r.Known known)
    (hgoal : goal.WellNamed) (hctx : ∀ f ∈ ctx, f.WellNamed) : Closes known goal ctx c :=
  ⟨h.sound hr hgoal hctx, h.formula_eq, h.mem_of_assumptions⟩

/-- What a search from premises finds is a construction of the goal from them. -/
theorem closes_of_prove {depth : Limit} {premises : List Formula} {o : Outcome} {c : Construction}
    (hr : r.Known known) (hgoal : goal.WellNamed) (hpremises : ∀ f ∈ premises, f.WellNamed)
    (ho : Search.prove r depth premises goal room = .ok o) (hc : o.found = some c) :
    Closes known goal premises c := by
  have hctx : ∀ f ∈ Ascending.ofList premises, f.WellNamed := fun f hf =>
    hpremises f (Ascending.mem_ofList.mp hf)
  obtain ⟨hsound, hformula, hopen⟩ := (found_of_prove ho hc).closes hr hgoal hctx
  exact ⟨hsound, hformula, fun f hf => Ascending.mem_ofList.mp (hopen f hf)⟩

/-- What can be found and is new has a rule of the palette, and no piece could be reused for it. -/
theorem Found.of_new {c : Construction} (h : Found r goal ctx c) (hnew : c.piece? = none) :
    r.palette.contains c.kind = true ∧ reuse? r goal ctx = none := by
  cases h with
  | reuse => exact nomatch hnew
  | assume hreuse hr | both hreuse hr | leftOf _ hreuse hr | rightOf _ hreuse hr | implies hreuse hr
  | refute hreuse hr | universal hreuse hr | existential hreuse hr => exact ⟨hr, hreuse⟩

/-- The premises of what can be found can be found, under the hypothesis that the root closes. -/
theorem Found.premises {c : Construction} (h : Found r goal ctx c) :
    ∀ e ∈ c.premises, ∃ goal' ctx', Found r goal' ctx' e ∧
      ∀ f ∈ ctx', f ∈ ctx ∨ f ∈ c.discharged := by
  have hinner : ∀ {f : Formula}, ∀ g ∈ Ascending.insert f ctx, g ∈ ctx ∨ g ∈ [f] := by
    intro f g hg
    rw [List.mem_singleton]
    exact (Ascending.mem_insert.mp hg).symm
  cases h with
  | reuse | assume => simp [Construction.premises]
  | both _ _ hc hd =>
    simp only [Construction.premises, List.forall_mem_cons]
    exact ⟨⟨_, _, hc, fun _ => .inl⟩, ⟨_, _, hd, fun _ => .inl⟩, by simp⟩
  | refute _ _ _ hc hd =>
    simp only [Construction.premises, List.forall_mem_cons]
    exact ⟨⟨_, _, hc, hinner⟩, ⟨_, _, hd, hinner⟩, by simp⟩
  | implies _ _ hc =>
    simp only [Construction.premises, List.forall_mem_singleton]
    exact ⟨_, _, hc, hinner⟩
  | leftOf _ _ _ hc | rightOf _ _ _ hc | universal _ _ _ hc | existential _ _ _ _ hc =>
    simp only [Construction.premises, List.forall_mem_singleton]
    exact ⟨_, _, hc, fun _ => .inl⟩

end Search

end DeductionBoard
