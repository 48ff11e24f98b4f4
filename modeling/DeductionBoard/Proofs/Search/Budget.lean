import DeductionBoard.Proofs.Search.Limits

/-! Searches in a larger room. With more room an alternative may come in that had no room before,
and it may take the room of what comes after it, or leave open what a quantifier forbids. A
construction is firm if at none of its choices an earlier alternative can be found, in whatever
room, and steady if everything that later goals depend on is firm. Main results: a larger room finds
a firm construction again, and something in place of a steady one; and nothing that is found takes
more than its room. -/

namespace DeductionBoard.Search

variable {α β : Type} {m : Trial α} {goal f g : Formula} {ctx : List Formula} {room room' : Room}
  {prove : Tactic} {r : Resources} {c d : Construction} {o : Option Construction} {n : Nat}

/-! ### Rooms -/

/-- The first room is no larger than the second. -/
def Room.Within (room room' : Room) : Prop := ∀ k', room' = some k' → ∃ k, room = some k ∧ k ≤ k'

theorem Room.Within.spend (h : room.Within room') (n : Nat) :
    (room.spend n).Within (room'.spend n) := by
  intro k' hk'
  obtain ⟨l', hl', rfl⟩ := Option.map_eq_some_iff.mp hk'
  obtain ⟨l, rfl, hle⟩ := h l' hl'
  exact ⟨l - n, rfl, Int.sub_le_sub_right hle n⟩

theorem Room.Within.isUsedUp (h : room.Within room') (hused : room'.isUsedUp = true) :
    room.isUsedUp = true := by
  cases room' with
  | none => exact absurd hused (by simp [Room.isUsedUp])
  | some k' =>
    obtain ⟨k, rfl, hle⟩ := h k' rfl
    simp only [Room.isUsedUp, Option.any_some, decide_eq_true_eq] at hused ⊢
    exact Int.lt_of_le_of_lt hle hused

/-! ### What a trial returns -/

/-- What a trial comes to, from some number of goals on. -/
def Returns (m : Trial α) (a : α) : Prop := ∃ n, (m.run.run n).1 = .ok a

theorem Yields.of_returns {P : α → Prop} {a : α} (h : Yields m P) (ha : Returns m a) : P a := by
  obtain ⟨n, hn⟩ := ha
  exact h n a hn

theorem Returns.eq_of_pure {a b : α} (h : Returns (pure a) b) : a = b := by
  obtain ⟨n, hn⟩ := h
  exact Except.ok.inj hn

theorem not_returns_throw {e : Stop} {a : α} : ¬ Returns (throw e : Trial α) a := fun h =>
  (yields_throw (P := fun _ => False) e).of_returns h

theorem Returns.exists_of_bind {k : α → Trial β} {b : β} (h : Returns (m >>= k) b) :
    ∃ a, Returns m a ∧ Returns (k a) b := by
  obtain ⟨n, hn⟩ := h
  rw [run_bind] at hn
  cases hrun : m.run.run n with
  | mk res n' =>
    rw [hrun] at hn
    cases res with
    | ok a => exact ⟨a, ⟨n, by rw [hrun]⟩, n', hn⟩
    | error e => exact absurd hn (by simp)

/-- A trial that may be given up first returns nothing else. -/
theorem Returns.of_unless {gap : Bool} {e : Stop} {a : α} (h : Returns (do
    if gap then throw e
    m) a) : Returns m a := by
  dsimp only at h
  split at h
  · obtain ⟨_, hthrow, _⟩ := h.exists_of_bind
    exact absurd hthrow not_returns_throw
  · exact h

/-- The first construction is one of the first alternative, or of a later one. -/
theorem Returns.of_firstOf_cons {attempt : α → Trial (Option Construction)} {a : α} {l : List α}
    (h : Returns (firstOf attempt (a :: l)) o) :
    (∃ c, o = some c ∧ Returns (attempt a) (some c)) ∨
      Returns (attempt a) none ∧ Returns (firstOf attempt l) o := by
  obtain ⟨o', ho', h⟩ := h.exists_of_bind
  cases o' with
  | none => exact .inr ⟨ho', h⟩
  | some c => exact .inl ⟨c, h.eq_of_pure.symm, ho'⟩

theorem Returns.exists_of_firstOf {attempt : α → Trial (Option Construction)} {l : List α}
    (h : Returns (firstOf attempt l) (some c)) : ∃ a ∈ l, Returns (attempt a) (some c) := by
  induction l with
  | nil => exact absurd h.eq_of_pure (by simp)
  | cons a l ih =>
    rcases h.of_firstOf_cons with ⟨c', hc, ha⟩ | ⟨-, hrest⟩
    · exact ⟨a, List.mem_cons_self, hc ▸ ha⟩
    · obtain ⟨a', ha', h'⟩ := ih hrest
      exact ⟨a', List.mem_cons_of_mem _ ha', h'⟩

/-- Some alternative that never comes to nothing is enough. -/
theorem Returns.isSome_of_firstOf {attempt : α → Trial (Option Construction)} {l : List α} {a : α}
    (ha : a ∈ l) (hnever : ¬ Returns (attempt a) none) (h : Returns (firstOf attempt l) o) :
    ∃ c, o = some c := by
  induction l with
  | nil => exact absurd ha (by simp)
  | cons a' l ih =>
    rcases h.of_firstOf_cons with ⟨c, rfl, -⟩ | ⟨hnone, hrest⟩
    · exact ⟨c, rfl⟩
    rcases List.mem_cons.mp ha with rfl | ha
    · exact absurd hnone hnever
    · exact ih ha hrest

/-- Alternatives that always come to nothing are passed over. -/
theorem Returns.of_firstOf_append {attempt : α → Trial (Option Construction)}
    {before after : List α} {a : α} (hbefore : ∀ a' ∈ before, ∀ c, ¬ Returns (attempt a') (some c))
    (hnever : ¬ Returns (attempt a) none) (h : Returns (firstOf attempt (before ++ a :: after)) o) :
    Returns (attempt a) o := by
  induction before with
  | nil =>
    rcases h.of_firstOf_cons with ⟨c, rfl, ha⟩ | ⟨hnone, -⟩
    · exact ha
    · exact absurd hnone hnever
  | cons a' before ih =>
    rcases h.of_firstOf_cons with ⟨c, -, ha'⟩ | ⟨-, hrest⟩
    · exact absurd ha' (hbefore a' List.mem_cons_self c)
    · exact ih (fun a'' ha'' => hbefore a'' (List.mem_cons_of_mem _ ha'')) hrest

/-- A trial that goes on with what was found and comes to nothing otherwise. -/
theorem Returns.exists_of_map {m : Trial (Option α)} {k : Option α → Trial (Option β)} {F : α → β}
    {o : Option β} (h : Returns (m >>= k) o) (hnone : k none = pure none)
    (hsome : ∀ a, k (some a) = pure (some (F a))) : ∃ o', Returns m o' ∧ o = o'.map F := by
  obtain ⟨o', ho', h⟩ := h.exists_of_bind
  refine ⟨o', ho', ?_⟩
  cases o' with
  | none => exact (hnone ▸ h).eq_of_pure.symm
  | some a => exact (hsome a ▸ h).eq_of_pure.symm

/-- The second construction is looked for in the room that the first one leaves. -/
theorem Returns.of_pair {e : Option (Construction × Construction)}
    (h : Returns (pair prove f g ctx room) e) :
    ∃ o, Returns (prove f ctx room) o ∧ ∀ c, o = some c →
      ∃ o', Returns (prove g ctx (room.spend c.newPieces)) o' ∧ e = o'.map fun d => (c, d) := by
  obtain ⟨o, ho, h⟩ := h.exists_of_bind
  refine ⟨o, ho, ?_⟩
  rintro c rfl
  exact h.exists_of_map rfl fun _ => rfl

theorem Returns.of_pair_some (h : Returns (pair prove f g ctx room) (some (c, d))) :
    Returns (prove f ctx room) (some c) ∧
      Returns (prove g ctx (room.spend c.newPieces)) (some d) := by
  obtain ⟨o, ho, h⟩ := h.exists_of_bind
  cases o with
  | none => exact absurd h.eq_of_pure (by simp)
  | some c' =>
    obtain ⟨o', ho', heq⟩ := h.exists_of_map (F := fun d => (c', d)) rfl fun _ => rfl
    obtain ⟨d', rfl, hd'⟩ := Option.map_eq_some_iff.mp heq.symm
    obtain ⟨rfl, rfl⟩ := Prod.mk.inj hd'
    exact ⟨ho, ho'⟩

/-! ### Firm and steady constructions -/

/-- What can be found where no earlier alternative can be. -/
inductive Firm (r : Resources) : Formula → List Formula → Construction → Prop
  | reuse {goal : Formula} {ctx : List Formula} {c : Construction}
      (hc : reuse? r goal ctx = some c) : Firm r goal ctx c
  | assume {goal : Formula} {ctx : List Formula} : Firm r goal ctx (.assume goal)
  | both {f g : Formula} {ctx : List Formula} {c d : Construction} (hc : Firm r f ctx c)
      (hd : Firm r g ctx d) : Firm r (.conj f g) ctx (.both c d)
  | leftOf {f g : Formula} {ctx : List Formula} {c : Construction} (hc : Firm r f ctx c) :
      Firm r (.disj f g) ctx (.leftOf c g)
  | rightOf {f g : Formula} {ctx : List Formula} {c : Construction}
      (hleft : ∀ d, ¬ Found r f ctx d) (hc : Firm r g ctx c) : Firm r (.disj f g) ctx (.rightOf f c)
  | implies {f g : Formula} {ctx : List Formula} {c : Construction}
      (hc : Firm r g (Ascending.insert f ctx) c) : Firm r (.imp f g) ctx (.implies f c)
  | refute {f g : Formula} {ctx : List Formula} {before after : List Formula} {c d : Construction}
      (hg : contradictionCandidates (Ascending.insert f ctx) = before ++ g :: after)
      (hbefore : ∀ g' ∈ before, ∀ c' d', Found r g' (Ascending.insert f ctx) c' →
        ¬ Found r (.neg g') (Ascending.insert f ctx) d')
      (hc : Firm r g (Ascending.insert f ctx) c) (hd : Firm r (.neg g) (Ascending.insert f ctx) d) :
      Firm r (.neg f) ctx (.refute f c d)
  | universal {v : String} {body i : Formula} {ctx : List Formula} {term : Option String}
      {c : Construction} (hi : instanceOf v (eigenTerm v body ctx) body = some i)
      (hc : Firm r i ctx c) : Firm r (.all v body) ctx (.quantify .all v term body c)
  | existential {v t : String} {body i : Formula} {ctx : List Formula} {before after : List String}
      {c : Construction} (ht : witnesses v ctx = before ++ t :: after)
      (hbefore : ∀ t' ∈ before, ∀ i', witnessed v t' body = some i' → ∀ c', Found r i' ctx c' →
        occursIn [v] c'.assumptions = true)
      (hi : witnessed v t body = some i) (hc : Firm r i ctx c) :
      Firm r (.exist v body) ctx (.quantify .exist v (otherTerm v t) body c)

/-- What can be found where everything that later goals depend on is firm: the first of two
premises, and the premise of a quantifier. -/
inductive Steady (r : Resources) : Formula → List Formula → Construction → Prop
  | reuse {goal : Formula} {ctx : List Formula} {c : Construction}
      (hc : reuse? r goal ctx = some c) : Steady r goal ctx c
  | assume {goal : Formula} {ctx : List Formula} : Steady r goal ctx (.assume goal)
  | both {f g : Formula} {ctx : List Formula} {c d : Construction} (hc : Firm r f ctx c)
      (hd : Steady r g ctx d) : Steady r (.conj f g) ctx (.both c d)
  | leftOf {f g : Formula} {ctx : List Formula} {c : Construction} (hc : Steady r f ctx c) :
      Steady r (.disj f g) ctx (.leftOf c g)
  | rightOf {f g : Formula} {ctx : List Formula} {c : Construction} (hc : Steady r g ctx c) :
      Steady r (.disj f g) ctx (.rightOf f c)
  | implies {f g : Formula} {ctx : List Formula} {c : Construction}
      (hc : Steady r g (Ascending.insert f ctx) c) : Steady r (.imp f g) ctx (.implies f c)
  | refute {f g : Formula} {ctx : List Formula} {c d : Construction}
      (hc : Firm r g (Ascending.insert f ctx) c)
      (hd : Steady r (.neg g) (Ascending.insert f ctx) d) : Steady r (.neg f) ctx (.refute f c d)
  | universal {v : String} {body i : Formula} {ctx : List Formula} {term : Option String}
      {c : Construction} (hi : instanceOf v (eigenTerm v body ctx) body = some i)
      (hc : Firm r i ctx c) : Steady r (.all v body) ctx (.quantify .all v term body c)
  | existential {v t : String} {body i : Formula} {ctx : List Formula} {c : Construction}
      (hi : witnessed v t body = some i) (hc : Firm r i ctx c) :
      Steady r (.exist v body) ctx (.quantify .exist v (otherTerm v t) body c)

theorem formula_of_reuse? (h : reuse? r goal ctx = some c) : c.formula = goal := by
  rw [reuse?] at h
  split at h
  · exact absurd h (by simp)
  · split at h
    · obtain rfl := Option.some.inj h
      rfl
    · exact absurd h (by simp)

theorem Firm.formula_eq (h : Firm r goal ctx c) : c.formula = goal := by
  induction h with
  | reuse hc => exact formula_of_reuse? hc
  | assume | refute | universal | existential => rfl
  | both _ _ ihc ihd => rw [Construction.formula, ihc, ihd]
  | leftOf _ ih | rightOf _ _ ih | implies _ ih => rw [Construction.formula, ih]

/-- Without the rules that leave a choice, everything that can be found is firm. -/
theorem Found.firm (h : Found r goal ctx c) (hor : r.palette.contains .orIntro = false)
    (hnot : r.palette.contains .notIntro = false)
    (hexists : r.palette.contains .existsIntro = false) : Firm r goal ctx c := by
  induction h with
  | reuse hp hopen =>
    refine .reuse ?_
    rw [reuse?, hp]
    exact if_pos (List.all_eq_true.mpr fun f hf => decide_eq_true (hopen f hf))
  | assume => exact .assume
  | both _ _ _ _ ihc ihd => exact .both ihc ihd
  | leftOf _ _ hr | rightOf _ _ hr => exact absurd hr (by simp [hor])
  | implies _ _ _ ih => exact .implies ih
  | refute _ hr => exact absurd hr (by simp [hnot])
  | universal _ _ hi _ _ ih => exact .universal hi ih
  | existential _ hr => exact absurd hr (by simp [hexists])

/-- In a larger room a firm construction is found again, and something in place of a steady one. -/
structure Tactic.Keeps (r : Resources) (prove : Tactic) : Prop where
  within : prove.Within r
  firm : ∀ {goal ctx room room' c o}, room.Within room' → Firm r goal ctx c →
    Returns (prove goal ctx room) (some c) → Returns (prove goal ctx room') o → o = some c
  steady : ∀ {goal ctx room room' c o}, room.Within room' → Steady r goal ctx c →
    Returns (prove goal ctx room) (some c) → Returns (prove goal ctx room') o → ∃ c', o = some c'

theorem Tactic.Keeps.pair_firm {e : Option (Construction × Construction)} (hprove : prove.Keeps r)
    (hroom : room.Within room') (hc : Firm r f ctx c) (hd : Firm r g ctx d)
    (h : Returns (pair prove f g ctx room) (some (c, d)))
    (h' : Returns (pair prove f g ctx room') e) :
    e = some (c, d) := by
  obtain ⟨hfirst, hsecond⟩ := h.of_pair_some
  obtain ⟨o, ho, hnext⟩ := h'.of_pair
  obtain ⟨o', ho', rfl⟩ := hnext c (hprove.firm hroom hc hfirst ho)
  rw [hprove.firm (hroom.spend _) hd hsecond ho', Option.map_some]

theorem Tactic.Keeps.pair_steady {e : Option (Construction × Construction)} (hprove : prove.Keeps r)
    (hroom : room.Within room') (hc : Firm r f ctx c) (hd : Steady r g ctx d)
    (h : Returns (pair prove f g ctx room) (some (c, d)))
    (h' : Returns (pair prove f g ctx room') e) :
    ∃ d', e = some (c, d') := by
  obtain ⟨hfirst, hsecond⟩ := h.of_pair_some
  obtain ⟨o, ho, hnext⟩ := h'.of_pair
  obtain ⟨o', ho', rfl⟩ := hnext c (hprove.firm hroom hc hfirst ho)
  obtain ⟨d', rfl⟩ := hprove.steady (hroom.spend _) hd hsecond ho'
  exact ⟨d', rfl⟩

/-! ### Rules with alternatives -/

section Rules

variable {v : String} {body i h : Formula} {e : Construction}

/-- The attempt at one candidate for a contradiction. -/
theorem Returns.of_contradiction
    (hattempt : Returns (do
      match ← pair prove f (.neg f) ctx room with
      | none => pure none
      | some (c, d) => pure (some (.refute h c d))) o) :
    ∃ o', Returns (pair prove f (.neg f) ctx room) o' ∧
      o = o'.map fun e : Construction × Construction => .refute h e.1 e.2 :=
  hattempt.exists_of_map rfl fun _ => rfl

theorem Returns.of_negation (hfound : Returns (proveNegation prove h ctx room) (some e)) :
    ∃ f c d, e = .refute h c d ∧
      f ∈ contradictionCandidates (Ascending.insert h ctx) ∧
      Returns (pair prove f (.neg f) (Ascending.insert h ctx) room) (some (c, d)) := by
  obtain ⟨f, hf, hattempt⟩ := hfound.exists_of_firstOf
  obtain ⟨o, ho, heq⟩ := hattempt.of_contradiction
  obtain ⟨⟨c, d⟩, rfl, rfl⟩ := Option.map_eq_some_iff.mp heq.symm
  exact ⟨f, c, d, rfl, hf, ho⟩

/-- A contradiction is found for the candidate that its first construction derives. -/
theorem Tactic.Within.of_negation (hprove : prove.Within r)
    (hfound : Returns (proveNegation prove h ctx room) (some (.refute h c d))) :
    c.formula ∈ contradictionCandidates (Ascending.insert h ctx) ∧
      Returns (pair prove c.formula (.neg c.formula) (Ascending.insert h ctx) room)
        (some (c, d)) := by
  obtain ⟨f, c', d', heq, hf, hpair⟩ := hfound.of_negation
  obtain ⟨-, rfl, rfl⟩ := Construction.refute.inj heq
  have hformula := ((finds_pair hprove).of_returns hpair _ rfl).1.formula_eq
  dsimp only at hformula
  rw [hformula]
  exact ⟨hf, hpair⟩

theorem Tactic.Keeps.negation_firm (hprove : prove.Keeps r) (hroom : room.Within room')
    (hnew : reuse? r (.neg h) ctx = none) (hfirm : Firm r (.neg h) ctx e)
    (hfound : Returns (proveNegation prove h ctx room) (some e))
    (ho : Returns (proveNegation prove h ctx room') o) : o = some e := by
  obtain ⟨f, c, d, rfl, -, -⟩ := hfound.of_negation
  cases hfirm with
  | reuse hc => exact absurd (hnew.symm.trans hc) (by simp)
  | @refute _ g _ before after _ _ hg hbefore hc hd =>
    obtain ⟨-, hpair⟩ := hprove.within.of_negation hfound
    rw [hc.formula_eq] at hpair
    rw [proveNegation, hg] at ho
    have hattempt := ho.of_firstOf_append (fun g' hg' e' he' => ?_) fun hnone => ?_
    · obtain ⟨o', ho', rfl⟩ := hattempt.of_contradiction
      rw [hprove.pair_firm hroom hc hd hpair ho']
      rfl
    · obtain ⟨o', ho', heq⟩ := he'.of_contradiction
      obtain ⟨⟨c', d'⟩, rfl, -⟩ := Option.map_eq_some_iff.mp heq.symm
      obtain ⟨hc', hd'⟩ := (finds_pair hprove.within).of_returns ho' _ rfl
      exact hbefore g' hg' c' d' hc' hd'
    · obtain ⟨o', ho', heq⟩ := hnone.of_contradiction
      rw [hprove.pair_firm hroom hc hd hpair ho'] at heq
      exact absurd heq (by simp)

theorem Tactic.Keeps.negation_steady (hprove : prove.Keeps r) (hroom : room.Within room')
    (hnew : reuse? r (.neg h) ctx = none) (hsteady : Steady r (.neg h) ctx e)
    (hfound : Returns (proveNegation prove h ctx room) (some e))
    (ho : Returns (proveNegation prove h ctx room') o) : ∃ e', o = some e' := by
  obtain ⟨f, c, d, rfl, -, -⟩ := hfound.of_negation
  cases hsteady with
  | reuse hc => exact absurd (hnew.symm.trans hc) (by simp)
  | @refute _ g _ _ _ hc hd =>
    obtain ⟨hmem, hpair⟩ := hprove.within.of_negation hfound
    rw [hc.formula_eq] at hmem hpair
    refine ho.isSome_of_firstOf hmem fun hnone => ?_
    obtain ⟨o', ho', heq⟩ := hnone.of_contradiction
    obtain ⟨d', rfl⟩ := hprove.pair_steady hroom hc hd hpair ho'
    exact absurd heq (by simp)

/-! ### Quantifiers -/

/-- The attempt at one instance of a quantified formula; `names` must not be free in what it leaves
open. -/
theorem Returns.of_instance {F : Construction → Construction} {names : List String}
    (hattempt : Returns (do
      match ← prove i ctx room with
      | none => pure none
      | some c => pure (if occursIn names c.assumptions then none else some (F c))) o) :
    ∃ o', Returns (prove i ctx room) o' ∧
      o = o'.bind fun c => if occursIn names c.assumptions then none else some (F c) := by
  obtain ⟨o', ho', h⟩ := hattempt.exists_of_bind
  refine ⟨o', ho', ?_⟩
  cases o' with
  | none => exact h.eq_of_pure.symm
  | some c => exact h.eq_of_pure.symm

theorem Returns.of_universal {o : Option Construction}
    (hi : instanceOf v (eigenTerm v body ctx) body = some i)
    (h : Returns (proveUniversal prove v body ctx room) o) :
    ∃ o', Returns (prove i ctx room) o' ∧ o = o'.bind fun c =>
      if occursIn [v, eigenTerm v body ctx] c.assumptions then none
      else some (.quantify .all v (otherTerm v (eigenTerm v body ctx)) body c) := by
  rw [proveUniversal, hi] at h
  exact h.of_instance

theorem Tactic.Keeps.universal_firm (hprove : prove.Keeps r) (hroom : room.Within room')
    (hi : instanceOf v (eigenTerm v body ctx) body = some i) (hc : Firm r i ctx c)
    {term : Option String}
    (hfound : Returns (proveUniversal prove v body ctx room) (some (.quantify .all v term body c)))
    (ho : Returns (proveUniversal prove v body ctx room') o) :
    o = some (.quantify .all v term body c) := by
  obtain ⟨o₁, ho₁, heq⟩ := hfound.of_universal hi
  obtain ⟨o₂, ho₂, rfl⟩ := ho.of_universal hi
  obtain ⟨c', rfl, hc'⟩ := Option.bind_eq_some_iff.mp heq.symm
  split at hc'
  · exact absurd hc' (by simp)
  next hoccurs =>
  obtain ⟨-, -, -, -, rfl⟩ := Construction.quantify.inj (Option.some.inj hc')
  rw [hprove.firm hroom hc ho₁ ho₂, Option.bind_some, if_neg hoccurs]
  exact hc'

/-- The attempt at one witness. -/
theorem Returns.of_witness {t : String} (hattempt : Returns (match witnessed v t body with
      | none => pure none
      | some i => do
        match ← prove i ctx room with
        | none => pure none
        | some c =>
          pure (if occursIn [v] c.assumptions then none
            else some (.quantify .exist v (otherTerm v t) body c))) o) :
    (witnessed v t body = none ∧ o = none) ∨ ∃ i o', witnessed v t body = some i ∧
      Returns (prove i ctx room) o' ∧ o = o'.bind fun c =>
        if occursIn [v] c.assumptions then none
        else some (.quantify .exist v (otherTerm v t) body c) := by
  cases hi : witnessed v t body with
  | none =>
    rw [hi] at hattempt
    exact .inl ⟨rfl, hattempt.eq_of_pure.symm⟩
  | some i =>
    rw [hi] at hattempt
    obtain ⟨o', ho', heq⟩ := hattempt.of_instance
    exact .inr ⟨i, o', rfl, ho', heq⟩

theorem Returns.of_existential
    (hfound : Returns (proveExistential prove v body ctx room) (some e)) :
    ∃ t ∈ witnesses v ctx, ∃ i c, witnessed v t body = some i ∧
      Returns (prove i ctx room) (some c) ∧ ¬ occursIn [v] c.assumptions = true ∧
      e = .quantify .exist v (otherTerm v t) body c := by
  obtain ⟨t, ht, hattempt⟩ := hfound.exists_of_firstOf
  rcases hattempt.of_witness with ⟨-, heq⟩ | ⟨i, o', hi, ho', heq⟩
  · exact absurd heq (by simp)
  obtain ⟨c, rfl, hc⟩ := Option.bind_eq_some_iff.mp heq.symm
  split at hc
  · exact absurd hc (by simp)
  next hoccurs => exact ⟨t, ht, i, c, hi, ho', hoccurs, (Option.some.inj hc).symm⟩

theorem otherTerm_injective {t t' : String} (h : otherTerm v t = otherTerm v t') : t = t' := by
  rw [← getD_otherTerm v t, h, getD_otherTerm]

/-- A witness in a larger room, where its construction is firm. -/
theorem Tactic.Keeps.witness (hprove : prove.Keeps r) (hroom : room.Within room') {t : String}
    (hi : witnessed v t body = some i) (hc : Firm r i ctx c)
    (hfound : Returns (proveExistential prove v body ctx room)
      (some (.quantify .exist v (otherTerm v t) body c)))
    (ho : Returns (match witnessed v t body with
      | none => pure none
      | some i => do
        match ← prove i ctx room' with
        | none => pure none
        | some c =>
          pure (if occursIn [v] c.assumptions then none
            else some (.quantify .exist v (otherTerm v t) body c))) o) :
    t ∈ witnesses v ctx ∧ o = some (.quantify .exist v (otherTerm v t) body c) := by
  obtain ⟨t', ht', i', c', hi', hreturns, hoccurs, heq⟩ := hfound.of_existential
  obtain ⟨-, -, hterm, -, rfl⟩ := Construction.quantify.inj heq
  obtain rfl := otherTerm_injective hterm
  obtain rfl := Option.some.inj (hi.symm.trans hi')
  rcases ho.of_witness with ⟨hnone, -⟩ | ⟨i'', o', hi'', ho', rfl⟩
  · exact absurd (hnone.symm.trans hi) (by simp)
  obtain rfl := Option.some.inj (hi.symm.trans hi'')
  rw [hprove.firm hroom hc hreturns ho', Option.bind_some, if_neg hoccurs]
  exact ⟨ht', rfl⟩

theorem Tactic.Keeps.existential_firm (hprove : prove.Keeps r) (hroom : room.Within room')
    (hnew : reuse? r (.exist v body) ctx = none) (hfirm : Firm r (.exist v body) ctx e)
    (hfound : Returns (proveExistential prove v body ctx room) (some e))
    (ho : Returns (proveExistential prove v body ctx room') o) : o = some e := by
  cases hfirm with
  | reuse hc => exact absurd (hnew.symm.trans hc) (by simp)
  | assume =>
    obtain ⟨_, _, _, _, _, _, _, heq⟩ := hfound.of_existential
    exact absurd heq (by simp)
  | @existential _ t _ i _ before after c ht hbefore hi hc =>
    rw [proveExistential, ht] at ho
    have hattempt := ho.of_firstOf_append (fun t' ht' e' he' => ?_) fun hnone => ?_
    · exact (hprove.witness hroom hi hc hfound hattempt).2
    · rcases he'.of_witness with ⟨-, heq⟩ | ⟨i', o', hi', ho', heq⟩
      · exact absurd heq (by simp)
      obtain ⟨c', rfl, hc'⟩ := Option.bind_eq_some_iff.mp heq.symm
      have hfound' := (hprove.within i' ctx room').of_returns ho' c' rfl
      rw [if_pos (hbefore t' ht' i' hi' c' hfound')] at hc'
      exact absurd hc' (by simp)
    · have hsame := (hprove.witness hroom hi hc hfound hnone).2
      exact absurd hsame (by simp)

theorem Tactic.Keeps.existential_steady (hprove : prove.Keeps r) (hroom : room.Within room')
    (hnew : reuse? r (.exist v body) ctx = none) (hsteady : Steady r (.exist v body) ctx e)
    (hfound : Returns (proveExistential prove v body ctx room) (some e))
    (ho : Returns (proveExistential prove v body ctx room') o) : ∃ e', o = some e' := by
  cases hsteady with
  | reuse hc => exact absurd (hnew.symm.trans hc) (by simp)
  | assume =>
    obtain ⟨_, _, _, _, _, _, _, heq⟩ := hfound.of_existential
    exact absurd heq (by simp)
  | @existential _ t _ i _ c hi hc =>
    obtain ⟨t', ht', i', c', -, -, -, heq⟩ := hfound.of_existential
    obtain ⟨-, -, hterm, -, -⟩ := Construction.quantify.inj heq
    obtain rfl := otherTerm_injective hterm
    refine ho.isSome_of_firstOf ht' fun hnone => ?_
    have hsame := (hprove.witness hroom hi hc hfound hnone).2
    exact absurd hsame (by simp)

end Rules

/-! ### All rules -/

theorem Returns.of_conj (hr : r.palette.contains .andIntro = true)
    (h : Returns (introduce r prove (.conj f g) ctx room) o) :
    ∃ o', Returns (pair prove f g ctx room) o' ∧
      o = o'.map fun e : Construction × Construction => Construction.both e.1 e.2 := by
  rw [introduce, if_pos hr] at h
  exact h.exists_of_map rfl fun _ => rfl

theorem Returns.of_disj (hr : r.palette.contains .orIntro = true)
    (h : Returns (introduce r prove (.disj f g) ctx room) o) :
    (∃ c, Returns (prove f ctx room) (some c) ∧ o = some (.leftOf c g)) ∨
      Returns (prove f ctx room) none ∧
        ∃ o', Returns (prove g ctx room) o' ∧ o = o'.map (Construction.rightOf f) := by
  rw [introduce, if_pos hr] at h
  obtain ⟨o', ho', h⟩ := h.exists_of_bind
  cases o' with
  | some c => exact .inl ⟨c, ho', h.eq_of_pure.symm⟩
  | none => exact .inr ⟨ho', h.exists_of_map rfl fun _ => rfl⟩

theorem Returns.of_imp (hr : r.palette.contains .impliesIntro = true)
    (h : Returns (introduce r prove (.imp f g) ctx room) o) :
    ∃ o', Returns (prove g (Ascending.insert f ctx) room) o' ∧
      o = o'.map (Construction.implies f) := by
  rw [introduce, if_pos hr] at h
  exact h.exists_of_map rfl fun _ => rfl

theorem Returns.of_both (hr : r.palette.contains .andIntro = true)
    (h : Returns (introduce r prove (.conj f g) ctx room) (some (.both c d))) :
    Returns (pair prove f g ctx room) (some (c, d)) := by
  obtain ⟨e, he, heq⟩ := h.of_conj hr
  obtain ⟨⟨c', d'⟩, rfl, hcd⟩ := Option.map_eq_some_iff.mp heq.symm
  obtain ⟨rfl, rfl⟩ := Construction.both.inj hcd
  exact he

theorem Returns.of_leftOf (hr : r.palette.contains .orIntro = true)
    (h : Returns (introduce r prove (.disj f g) ctx room) (some (.leftOf c g))) :
    Returns (prove f ctx room) (some c) := by
  rcases h.of_disj hr with ⟨c', hc', heq⟩ | ⟨-, o', -, heq⟩
  · obtain ⟨rfl, -⟩ := Construction.leftOf.inj (Option.some.inj heq)
    exact hc'
  · obtain ⟨e, -, he⟩ := Option.map_eq_some_iff.mp heq.symm
    exact absurd he (by simp)

/-- The right side of a disjunction is used where nothing is found for the left one. -/
theorem Returns.of_rightOf (hr : r.palette.contains .orIntro = true)
    (h : Returns (introduce r prove (.disj f g) ctx room) (some (.rightOf f c))) :
    Returns (prove f ctx room) none ∧ Returns (prove g ctx room) (some c) := by
  rcases h.of_disj hr with ⟨c', -, heq⟩ | ⟨hnone, o', ho', heq⟩
  · exact absurd heq (by simp)
  · obtain ⟨c', rfl, hc'⟩ := Option.map_eq_some_iff.mp heq.symm
    obtain ⟨-, rfl⟩ := Construction.rightOf.inj hc'
    exact ⟨hnone, ho'⟩

theorem Returns.of_implies (hr : r.palette.contains .impliesIntro = true)
    (h : Returns (introduce r prove (.imp f g) ctx room) (some (.implies f c))) :
    Returns (prove g (Ascending.insert f ctx) room) (some c) := by
  obtain ⟨e, he, heq⟩ := h.of_imp hr
  obtain ⟨c', rfl, hc'⟩ := Option.map_eq_some_iff.mp heq.symm
  obtain ⟨-, rfl⟩ := Construction.implies.inj hc'
  exact he

theorem Returns.of_neg (hr : r.palette.contains .notIntro = true)
    (h : Returns (introduce r prove (.neg f) ctx room) o) :
    Returns (proveNegation prove f ctx room) o := by
  rw [introduce, if_pos hr] at h
  exact h.of_unless

theorem Returns.of_all {v : String} (hr : r.palette.contains .forallIntro = true)
    (h : Returns (introduce r prove (.all v f) ctx room) o) :
    Returns (proveUniversal prove v f ctx room) o := by
  rw [introduce, if_pos hr] at h
  exact h.of_unless

theorem Returns.of_exist {v : String} (hr : r.palette.contains .existsIntro = true)
    (h : Returns (introduce r prove (.exist v f) ctx room) o) :
    Returns (proveExistential prove v f ctx room) o := by
  rw [introduce, if_pos hr] at h
  exact h.of_unless

/-- Rules find no assumption where none is allowed. -/
theorem Tactic.Keeps.introduce_firm (hprove : prove.Keeps r) (hroom : room.Within room')
    (hnew : reuse? r goal ctx = none) (hfirm : Firm r goal ctx c)
    (hassume : c ≠ .assume goal) (hfound : Returns (introduce r prove goal ctx room) (some c))
    (ho : Returns (introduce r prove goal ctx room') o) : o = some c := by
  have hcase := (finds_introduce hprove.within hnew).of_returns hfound c rfl
  cases hfirm with
  | reuse hc => exact absurd (hnew.symm.trans hc) (by simp)
  | assume => exact absurd rfl hassume
  | both hc hd =>
    cases hcase with
    | both _ hr =>
    obtain ⟨e', he', rfl⟩ := ho.of_conj hr
    rw [hprove.pair_firm hroom hc hd (hfound.of_both hr) he']
    rfl
  | leftOf hc =>
    cases hcase with
    | leftOf _ _ hr =>
    rcases ho.of_disj hr with ⟨e, he, rfl⟩ | ⟨hnone, -⟩
    · rw [Option.some.inj (hprove.firm hroom hc (hfound.of_leftOf hr) he)]
    · exact absurd (hprove.firm hroom hc (hfound.of_leftOf hr) hnone) (by simp)
  | rightOf hleft hc =>
    cases hcase with
    | rightOf _ _ hr =>
    rcases ho.of_disj hr with ⟨e, he, -⟩ | ⟨-, o', ho', rfl⟩
    · exact absurd ((hprove.within _ ctx room').of_returns he e rfl) (hleft e)
    · rw [hprove.firm hroom hc (hfound.of_rightOf hr).2 ho', Option.map_some]
  | implies hc =>
    cases hcase with
    | implies _ hr =>
    obtain ⟨e', he', rfl⟩ := ho.of_imp hr
    rw [hprove.firm hroom hc (hfound.of_implies hr) he', Option.map_some]
  | refute hg hbefore hc hd =>
    cases hcase with
    | refute _ hr =>
    exact hprove.negation_firm hroom hnew (.refute hg hbefore hc hd) (hfound.of_neg hr)
      (ho.of_neg hr)
  | universal hi hc =>
    have hr := (hcase.of_new rfl).1
    exact hprove.universal_firm hroom hi hc (hfound.of_all hr) (ho.of_all hr)
  | existential ht hbefore hi hc =>
    have hr := (hcase.of_new rfl).1
    exact hprove.existential_firm hroom hnew (.existential ht hbefore hi hc) (hfound.of_exist hr)
      (ho.of_exist hr)

theorem Tactic.Keeps.introduce_steady (hprove : prove.Keeps r) (hroom : room.Within room')
    (hnew : reuse? r goal ctx = none) (hsteady : Steady r goal ctx c)
    (hassume : c ≠ .assume goal) (hfound : Returns (introduce r prove goal ctx room) (some c))
    (ho : Returns (introduce r prove goal ctx room') o) : ∃ c', o = some c' := by
  have hcase := (finds_introduce hprove.within hnew).of_returns hfound c rfl
  cases hsteady with
  | reuse hc => exact absurd (hnew.symm.trans hc) (by simp)
  | assume => exact absurd rfl hassume
  | both hc hd =>
    cases hcase with
    | both _ hr =>
    obtain ⟨e', he', rfl⟩ := ho.of_conj hr
    obtain ⟨d', rfl⟩ := hprove.pair_steady hroom hc hd (hfound.of_both hr) he'
    exact ⟨_, rfl⟩
  | leftOf hc =>
    cases hcase with
    | leftOf _ _ hr =>
    rcases ho.of_disj hr with ⟨e, -, rfl⟩ | ⟨hnone, -⟩
    · exact ⟨_, rfl⟩
    · exact absurd (hprove.steady hroom hc (hfound.of_leftOf hr) hnone) (by simp)
  | rightOf hc =>
    cases hcase with
    | rightOf _ _ hr =>
    rcases ho.of_disj hr with ⟨e, -, rfl⟩ | ⟨-, o', ho', rfl⟩
    · exact ⟨_, rfl⟩
    · obtain ⟨e, rfl⟩ := hprove.steady hroom hc (hfound.of_rightOf hr).2 ho'
      exact ⟨_, rfl⟩
  | implies hc =>
    cases hcase with
    | implies _ hr =>
    obtain ⟨e', he', rfl⟩ := ho.of_imp hr
    obtain ⟨c', rfl⟩ := hprove.steady hroom hc (hfound.of_implies hr) he'
    exact ⟨_, rfl⟩
  | refute hc hd =>
    have hr := (hcase.of_new rfl).1
    exact hprove.negation_steady hroom hnew (.refute hc hd) (hfound.of_neg hr) (ho.of_neg hr)
  | universal hi hc =>
    have hr := (hcase.of_new rfl).1
    exact ⟨_, hprove.universal_firm hroom hi hc (hfound.of_all hr) (ho.of_all hr)⟩
  | existential hi hc =>
    have hr := (hcase.of_new rfl).1
    exact hprove.existential_steady hroom hnew (.existential hi hc) (hfound.of_exist hr)
      (ho.of_exist hr)

/-! ### The search -/

/-- A goal is closed without a rule, or the search stops, or a rule is tried. -/
theorem Returns.of_proveWithin (h : Returns (proveWithin r n goal ctx room) o) :
    o = leaf? r goal ctx room ∧ (o = none → n = 0 ∨ room.isUsedUp = true) ∨
      leaf? r goal ctx room = none ∧ room.isUsedUp = false ∧
        ∃ k, n = k + 1 ∧ Returns (introduce r (proveWithin r k) goal ctx (room.spend 1)) o := by
  cases n with
  | zero =>
    rw [proveWithin] at h
    obtain ⟨_, _, h⟩ := h.exists_of_bind
    exact .inl ⟨h.eq_of_pure.symm, fun _ => .inl rfl⟩
  | succ k =>
    rw [proveWithin] at h
    obtain ⟨_, _, h⟩ := h.exists_of_bind
    cases hleaf : leaf? r goal ctx room with
    | some c =>
      rw [hleaf] at h
      obtain rfl := h.eq_of_pure
      exact .inl ⟨rfl, fun hnone => absurd hnone (by simp)⟩
    | none =>
      rw [hleaf] at h
      dsimp only at h
      split at h
      · next hused => exact .inl ⟨h.eq_of_pure.symm, fun _ => .inr hused⟩
      · next hfree => exact .inr ⟨rfl, Bool.not_eq_true _ ▸ hfree, k, rfl, h⟩

/-- A larger room closes the same goals without a rule. -/
theorem leaf?_of_within (hroom : room.Within room') (h : leaf? r goal ctx room = some c) :
    leaf? r goal ctx room' = some c := by
  rw [leaf?] at h ⊢
  cases hreuse : reuse? r goal ctx with
  | some d => rwa [hreuse] at h
  | none =>
    rw [hreuse] at h
    dsimp only at h ⊢
    split at h
    · exact absurd h (by simp)
    · next hfree => rwa [if_neg fun hused => hfree (hroom.isUsedUp hused)]

/-- Where there was room for an assumption already, a larger room closes no more goals. -/
theorem leaf?_eq_none_of_free (hfree : room.isUsedUp = false) (h : leaf? r goal ctx room = none)
    (room' : Room) : leaf? r goal ctx room' = none := by
  rw [leaf?] at h ⊢
  cases hreuse : reuse? r goal ctx with
  | some d =>
    rw [hreuse] at h
    exact absurd h (by simp)
  | none =>
    rw [hreuse] at h
    dsimp only at h ⊢
    rw [if_neg (by simp [hfree])] at h
    rw [h]
    split <;> rfl

theorem Found.leaf?_ne_none (h : Found r goal ctx (.assume goal)) (hfree : room.isUsedUp = false) :
    leaf? r goal ctx room ≠ none := by
  cases h with
  | assume hnew hr hctx =>
    rw [leaf?, hnew]
    dsimp only
    rw [if_neg (by simp [hfree]), if_pos ⟨hctx, hr⟩]
    simp

/-- In a larger room a goal is closed without a rule just as well, or the same rule is tried. -/
theorem Returns.compare (hroom : room.Within room')
    (h : Returns (proveWithin r n goal ctx room) (some c))
    (h' : Returns (proveWithin r n goal ctx room') o) :
    o = some c ∨ ∃ k, n = k + 1 ∧ reuse? r goal ctx = none ∧ c ≠ .assume goal ∧
      Returns (introduce r (proveWithin r k) goal ctx (room.spend 1)) (some c) ∧
      Returns (introduce r (proveWithin r k) goal ctx (room'.spend 1)) o := by
  rcases h.of_proveWithin with ⟨hleaf, -⟩ | ⟨hleaf, hfree, k, rfl, hrule⟩
  · have hleaf' := leaf?_of_within hroom hleaf.symm
    rcases h'.of_proveWithin with ⟨rfl, -⟩ | ⟨hnone, -⟩
    · exact .inl hleaf'
    · exact absurd (hnone.symm.trans hleaf') (by simp)
  · have hnew := reuse?_eq_none_of_leaf hleaf
    rcases h'.of_proveWithin with ⟨ho, hstop⟩ | ⟨-, -, k', heq, hrule'⟩
    · rw [leaf?_eq_none_of_free hfree hleaf room'] at ho
      have hused := hroom.isUsedUp ((hstop ho).resolve_left (by simp))
      exact absurd hused (by simp [hfree])
    · obtain rfl := Nat.succ.inj heq
      refine .inr ⟨k, rfl, hnew, ?_, hrule, hrule'⟩
      rintro rfl
      have hfound := (finds_introduce (within_proveWithin r k) hnew).of_returns hrule _ rfl
      exact hfound.leaf?_ne_none hfree hleaf

theorem keeps_proveWithin (r : Resources) (n : Nat) : (proveWithin r n).Keeps r := by
  induction n with
  | zero =>
    refine ⟨within_proveWithin r 0, fun hroom _ h h' => ?_, fun hroom _ h h' => ?_⟩ <;>
      obtain rfl := (h.compare hroom h').resolve_right (by simp)
    · rfl
    · exact ⟨_, rfl⟩
  | succ n ih =>
    refine ⟨within_proveWithin r (n + 1), fun hroom hc h h' => ?_, fun hroom hc h h' => ?_⟩ <;>
      rcases h.compare hroom h' with rfl | ⟨k, heq, hnew, hassume, hrule, hrule'⟩
    · rfl
    · obtain rfl := Nat.succ.inj heq
      exact ih.introduce_firm (hroom.spend 1) hnew hc hassume hrule hrule'
    · exact ⟨_, rfl⟩
    · obtain rfl := Nat.succ.inj heq
      exact ih.introduce_steady (hroom.spend 1) hnew hc hassume hrule hrule'

/-- Without a depth that is a number no rule is tried. -/
theorem Returns.of_illTyped (h : Returns (proveTo r .illTyped goal ctx room) o) :
    o = leaf? r goal ctx room := by
  obtain ⟨_, _, h⟩ := h.exists_of_bind
  cases hleaf : leaf? r goal ctx room with
  | some c =>
    rw [hleaf] at h
    exact h.eq_of_pure.symm
  | none =>
    rw [hleaf] at h
    dsimp only at h
    split at h
    · exact h.eq_of_pure.symm
    · exact absurd h not_returns_throw

theorem keeps_proveTo (r : Resources) (depth : Limit) : Tactic.Keeps r (proveTo r depth) := by
  cases depth with
  | upTo d => exact keeps_proveWithin r _
  | unbounded => exact keeps_proveWithin r _
  | illTyped =>
    refine ⟨within_proveTo r .illTyped, fun hroom _ h h' => ?_, fun hroom _ h h' => ?_⟩ <;>
      have hleaf := leaf?_of_within hroom h.of_illTyped.symm
    · exact h'.of_illTyped.trans hleaf
    · exact ⟨_, h'.of_illTyped.trans hleaf⟩

variable {depth : Limit} {premises : List Formula} {u u' : Outcome}

theorem returns_of_prove (h : Search.prove r depth premises goal room = .ok u)
    (hend : u.exhausted = false) :
    Returns (proveTo r depth goal (Ascending.ofList premises) room) u.found := by
  rw [Search.prove] at h
  split at h
  · next found n hrun =>
    obtain rfl := Except.ok.inj h
    exact ⟨0, by rw [hrun]⟩
  · obtain rfl := Except.ok.inj h
    exact absurd hend (by simp)
  · exact absurd h (by simp)

/-- A search that finds something is not given up. -/
theorem exhausted_of_found (h : Search.prove r depth premises goal room = .ok u)
    (hc : u.found = some c) : u.exhausted = false := by
  rw [Search.prove] at h
  split at h
  · obtain rfl := Except.ok.inj h
    rfl
  · obtain rfl := Except.ok.inj h
    exact absurd hc (by simp)
  · exact absurd h (by simp)

/-- A search returns only where the number of goals is limited by a number, or not at all. -/
theorem Returns.maxNodes_ne (h : Returns (proveTo r depth goal ctx room) o) :
    r.maxNodes ≠ .illTyped := by
  have htakeUp : Returns (takeUp r) () := by
    have hwithin : ∀ n, Returns (proveWithin r n goal ctx room) o → Returns (takeUp r) () := by
      intro n hn
      cases n <;> exact hn.exists_of_bind.choose_spec.1
    cases depth with
    | upTo d => exact hwithin _ h
    | unbounded => exact hwithin _ h
    | illTyped => exact h.exists_of_bind.choose_spec.1
  intro hmax
  obtain ⟨_, _, hlimit⟩ := htakeUp.exists_of_bind
  rw [hmax] at hlimit
  exact not_returns_throw hlimit

/-- Where something was found, a search in a larger room is not broken off by a defect. -/
theorem exists_prove_of_within (hgap : r.gap = false) (hroom : room.Within room')
    (h : Search.prove r depth premises goal room = .ok u) (hc : u.found = some c) :
    ∃ u', Search.prove r depth premises goal room' = .ok u' := by
  have hreturns := returns_of_prove h (exhausted_of_found h hc)
  rw [hc] at hreturns
  refine exists_prove_of_proper (proper_proveTo hgap hreturns.maxNodes_ne ?_)
  rintro rfl
  rw [leaf?_of_within hroom hreturns.of_illTyped.symm]
  simp

/-- A search in a larger room that is not given up. -/
theorem found_of_within (hroom : room.Within room')
    (h : Search.prove r depth premises goal room = .ok u) (hc : u.found = some c)
    (h' : Search.prove r depth premises goal room' = .ok u') (hend : u'.exhausted = false) :
    (Firm r goal (Ascending.ofList premises) c → u'.found = some c) ∧
      (Steady r goal (Ascending.ofList premises) c → ∃ c', u'.found = some c') := by
  have hreturns := returns_of_prove h (exhausted_of_found h hc)
  rw [hc] at hreturns
  have hreturns' := returns_of_prove h' hend
  exact ⟨fun hfirm => (keeps_proveTo r depth).firm hroom hfirm hreturns hreturns',
    fun hsteady => (keeps_proveTo r depth).steady hroom hsteady hreturns hreturns'⟩

end DeductionBoard.Search
