import DeductionBoard.Proofs.Search.Bounds
import DeductionBoard.Proofs.Search.Budget

/-! Completeness of the search for positive goals. A goal that is made of conjunctions, disjunctions
and implications leaves no choice that a first alternative could spoil: without a bound on the pieces,
the search finds something for it exactly where it has a derivation by assumptions and the
introduction rules that is no higher than the depth. -/

namespace DeductionBoard

/-- Made of atoms by conjunction, disjunction and implication. -/
def Formula.Positive : Formula → Prop
  | .atom _ _ => True
  | .neg _ => False
  | .binary _ l r => l.Positive ∧ r.Positive
  | .quantified _ _ _ => False

namespace Search

/-- A derivation of a formula from a set of formulas, of a given height: an assumption has height one,
and an implication has its left side as one more assumption. -/
inductive Introduced : Set Formula → Formula → Nat → Prop
  | assume {Γ : Set Formula} {f : Formula} (h : f ∈ Γ) : Introduced Γ f 1
  | both {Γ : Set Formula} {f g : Formula} {m n : Nat} (hf : Introduced Γ f m)
      (hg : Introduced Γ g n) : Introduced Γ (.conj f g) (1 + max m n)
  | leftOf {Γ : Set Formula} {f : Formula} {n : Nat} (g : Formula) (hf : Introduced Γ f n) :
      Introduced Γ (.disj f g) (1 + n)
  | rightOf {Γ : Set Formula} {g : Formula} {n : Nat} (f : Formula) (hg : Introduced Γ g n) :
      Introduced Γ (.disj f g) (1 + n)
  | implies {Γ : Set Formula} {f g : Formula} {n : Nat} (hg : Introduced (insert f Γ) g n) :
      Introduced Γ (.imp f g) (1 + n)

/-- Assumptions and the introduction rules of positive formulas. -/
def positiveRules : List RuleKind := [.assumption, .andIntro, .orIntro, .impliesIntro]

variable {goal f g : Formula} {ctx premises : List Formula} {room : Room} {prove : Tactic}
  {r : Resources} {c : Construction} {o : Option Construction} {k n : Nat} {N D : Int}
  {Γ : Set Formula}

theorem Introduced.height_pos (h : Introduced Γ goal n) : 0 < n := by
  cases h <;> omega

/-- What is found without pieces at hand is a derivation. -/
theorem Found.introduced (h : Found r goal ctx c) (hnone : r.existing = [])
    (hgoal : goal.Positive) (hctx : ∀ f ∈ ctx, f ∈ Γ) : Introduced Γ goal c.height := by
  induction h generalizing Γ with
  | reuse hp => exact absurd (hnone ▸ hp) (by simp)
  | assume _ _ hmem => exact .assume (hctx _ hmem)
  | both _ _ _ _ ihc ihd => exact .both (ihc hgoal.1 hctx) (ihd hgoal.2 hctx)
  | leftOf g _ _ _ ih => exact .leftOf g (ih hgoal.1 hctx)
  | rightOf f _ _ _ ih => exact .rightOf f (ih hgoal.2 hctx)
  | implies _ _ _ ih =>
    refine .implies (ih hgoal.2 fun f hf => ?_)
    exact (Ascending.mem_insert.mp hf).imp_right (hctx f)
  | refute | universal | existential => exact hgoal.elim

/-! ### Derivations are found -/

theorem leaf?_ne_none (hnone : r.existing = []) (hr : r.palette.contains .assumption = true)
    (hctx : goal ∈ ctx) : leaf? r goal ctx none ≠ none := by
  have hnew : reuse? r goal ctx = none := by rw [reuse?, hnone, List.lookup_nil]
  exact (Found.assume hnew hr hctx).leaf?_ne_none rfl

/-- Without a bound on the pieces a pair comes to nothing only where one of its goals does. -/
theorem Returns.of_pair_none (h : Returns (pair prove f g ctx none) none) :
    Returns (prove f ctx none) none ∨ Returns (prove g ctx none) none := by
  obtain ⟨o, ho, hnext⟩ := h.of_pair
  cases o with
  | none => exact .inl ho
  | some c =>
    obtain ⟨o', ho', heq⟩ := hnext c rfl
    obtain rfl := Option.map_eq_none_iff.mp heq.symm
    exact .inr ho'

/-- A search that comes to nothing without a bound on the pieces closes no goal as a leaf, and where it
has a level left, the rule of the goal comes to nothing. -/
theorem Returns.of_none (h : Returns (proveWithin r k goal ctx none) none) :
    leaf? r goal ctx none = none ∧ ∀ n, 0 < n → 1 + n ≤ k + 1 →
      ∃ k', n ≤ k' + 1 ∧ Returns (introduce r (proveWithin r k') goal ctx none) none := by
  rcases h.of_proveWithin with ⟨hleaf, hstop⟩ | ⟨hleaf, -, k', rfl, hrule⟩
  · refine ⟨hleaf.symm, fun n hn hle => ?_⟩
    have hzero : k = 0 := (hstop rfl).resolve_right (by simp [Room.isUsedUp])
    omega
  · exact ⟨hleaf, fun n _ hle => ⟨k', by omega, hrule⟩⟩

/-- A search does not come to nothing where there is a derivation that is low enough. -/
theorem Introduced.not_returns_none (h : Introduced Γ goal n) (hnone : r.existing = [])
    (hr : ∀ k ∈ positiveRules, r.palette.contains k = true) (hctx : ∀ f ∈ Γ, f ∈ ctx)
    (hn : n ≤ k + 1) : ¬ Returns (proveWithin r k goal ctx none) none := by
  -- The context varies because an implication adds to it, the levels because every rule takes one.
  induction h generalizing ctx k with
  | assume hmem =>
    intro hreturns
    exact leaf?_ne_none hnone (hr _ (by decide)) (hctx _ hmem) hreturns.of_none.1
  | both hf hg ihf ihg =>
    intro hreturns
    have hpos := hf.height_pos
    obtain ⟨k', hle, hrule⟩ := hreturns.of_none.2 _ (by omega) hn
    obtain ⟨o, ho, heq⟩ := hrule.of_conj (hr _ (by decide))
    obtain rfl := Option.map_eq_none_iff.mp heq.symm
    rcases ho.of_pair_none with hleft | hright
    · exact ihf hctx (by omega) hleft
    · exact ihg hctx (by omega) hright
  | leftOf g hf ih =>
    intro hreturns
    obtain ⟨k', hle, hrule⟩ := hreturns.of_none.2 _ hf.height_pos hn
    rcases hrule.of_disj (hr _ (by decide)) with ⟨c, -, heq⟩ | ⟨hleft, -⟩
    · exact absurd heq (by simp)
    · exact ih hctx hle hleft
  | rightOf f hg ih =>
    intro hreturns
    obtain ⟨k', hle, hrule⟩ := hreturns.of_none.2 _ hg.height_pos hn
    -- The right side is tried unless the left one was found, and then the rule came to something.
    rcases hrule.of_disj (hr _ (by decide)) with ⟨c, -, heq⟩ | ⟨-, o, hright, heq⟩
    · exact absurd heq (by simp)
    · obtain rfl := Option.map_eq_none_iff.mp heq.symm
      exact ih hctx hle hright
  | @implies Γ f g n hg ih =>
    intro hreturns
    obtain ⟨k', hle, hrule⟩ := hreturns.of_none.2 _ hg.height_pos hn
    obtain ⟨o, ho, heq⟩ := hrule.of_imp (hr _ (by decide))
    obtain rfl := Option.map_eq_none_iff.mp heq.symm
    refine ih (fun f' hf' => ?_) hle ho
    exact Ascending.mem_insert.mpr ((Set.mem_insert_iff.mp hf').imp_right (hctx f'))

/-! ### Exactly the derivations -/

/-- For a positive goal, without pieces at hand and without a bound on new ones, a search that is not
given up finds something exactly where there is a derivation from the premises that is no higher than
the depth. -/
theorem found_iff_introduced {s : SearchSettings} (hnodes : s.maxNodes = .int N)
    (hdepth : s.maxDepth = .int D) (hD : 1 ≤ D) {palette : Palette}
    (hpalette : ∀ k ∈ positiveRules, palette.contains k = true) (hgoal : goal.Positive)
    (premises : List Formula) :
    ∃ u, Search.prove ⟨palette, [], nodeLimit s, false⟩ (depthLimit s) premises goal none = .ok u ∧
      (u.exhausted = false → ((∃ c, u.found = some c) ↔
        ∃ n : Nat, n ≤ D ∧ Introduced {f | f ∈ premises} goal n)) := by
  have hmax : nodeLimit s ≠ .illTyped := by simp [nodeLimit_int hnodes]
  rw [depthLimit_int hdepth]
  have hproper : Proper (proveTo ⟨palette, [], nodeLimit s, false⟩ (.upTo D) goal
      (Ascending.ofList premises) none) :=
    proper_proveWithin rfl hmax (D - 1).toNat goal _ none
  obtain ⟨u, hu⟩ := exists_prove_of_proper hproper
  refine ⟨u, hu, fun hend => ⟨?_, ?_⟩⟩
  · rintro ⟨c, hc⟩
    refine ⟨c.height, height_le_of_prove hD hu hc, ?_⟩
    exact (found_of_prove hu hc).introduced rfl hgoal fun f => Ascending.mem_ofList.mp
  · rintro ⟨n, hn, hderivation⟩
    have hreturns : Returns (proveWithin _ (D - 1).toNat goal _ none) u.found :=
      returns_of_prove hu hend
    refine Option.ne_none_iff_exists'.mp fun hnone => ?_
    rw [hnone] at hreturns
    exact hderivation.not_returns_none rfl hpalette (fun f => Ascending.mem_ofList.mpr) (by omega)
      hreturns

/-- A goal whose lowest derivation from `Q` has height four. -/
def curriedGoal : Formula :=
  .imp (.atom "P" []) (.disj (.conj (.atom "P" []) (.atom "Q" [])) (.atom "R" []))

theorem found_iff_introduced_curried :
    (∃ n : Nat, (n : Int) ≤ 4 ∧ Introduced {f | f ∈ [.atom "Q" []]} curriedGoal n) ∧
      ¬ ∃ n : Nat, (n : Int) ≤ 3 ∧ Introduced {f | f ∈ [.atom "Q" []]} curriedGoal n := by
  have hpalette : ∀ k ∈ positiveRules, (Palette.ofList positiveRules).contains k = true :=
    fun k hk => (Palette.contains_ofList positiveRules k).mpr hk
  have hgoal : curriedGoal.Positive := ⟨trivial, ⟨trivial, trivial⟩, trivial⟩
  obtain ⟨u, hu, hfour⟩ := found_iff_introduced (s := ⟨.int 4, .int 9⟩) rfl rfl (by decide) hpalette
    hgoal [.atom "Q" []]
  obtain ⟨v, hv, hthree⟩ := found_iff_introduced (s := ⟨.int 3, .int 9⟩) rfl rfl (by decide) hpalette
    hgoal [.atom "Q" []]
  have hfound : Search.prove ⟨Palette.ofList positiveRules, [], nodeLimit ⟨.int 4, .int 9⟩, false⟩
      (depthLimit ⟨.int 4, .int 9⟩) [.atom "Q" []] curriedGoal none =
      .ok ⟨some (.implies (.atom "P" []) (.leftOf (.both (.assume (.atom "P" []))
        (.assume (.atom "Q" []))) (.atom "R" []))), 5, false⟩ := by
    cbv
  have hnothing : Search.prove ⟨Palette.ofList positiveRules, [], nodeLimit ⟨.int 3, .int 9⟩, false⟩
      (depthLimit ⟨.int 3, .int 9⟩) [.atom "Q" []] curriedGoal none = .ok ⟨none, 4, false⟩ := by
    cbv
  obtain rfl := Except.ok.inj (hfound.symm.trans hu)
  obtain rfl := Except.ok.inj (hnothing.symm.trans hv)
  exact ⟨(hfour rfl).mp ⟨_, rfl⟩, fun h => absurd ((hthree rfl).mpr h) (by simp)⟩

end Search

end DeductionBoard
