import DeductionBoard.Proofs.Search.Placement

/-! The next step of a construction: its first node, premises before conclusions, that does not stand
on the board. All premises of that node do, so the node can be put on top of them. -/

namespace DeductionBoard

variable {known : PieceId → Formula → List Formula → Prop} {b : Board} {i : PieceId}
  {c d : Construction}

namespace Construction

/-- Induction from the premises of a node to the node. -/
theorem premisesInduction {P : Construction → Prop} (h : ∀ c, (∀ e ∈ c.premises, P e) → P c)
    (c : Construction) : P c := by
  induction c with
  | reused | assume => exact h _ (by simp [premises])
  | leftOf _ _ ih | rightOf _ _ ih | implies _ _ ih | quantify _ _ _ _ _ ih =>
    exact h _ (by simpa [premises] using ih)
  | both _ _ ihl ihr | refute _ _ _ ihl ihr => exact h _ (by simpa [premises] using ⟨ihl, ihr⟩)

theorem postOrder_of_new (hnew : c.piece? = none) :
    c.postOrder = c.premises.flatMap postOrder ++ [c] := by
  cases c with
  | reused => exact absurd hnew (by simp [piece?])
  | _ => simp [postOrder, premises]

/-- The next step of a new node is one of a premise, or the node itself once its premises stand. -/
theorem nextStep_of_new (hnew : c.piece? = none) :
    c.nextStep = (c.premises.findSome? nextStep).or (some c) := by
  have hself : [c].find? (fun d => d.piece?.isNone) = some c := by
    rw [List.find?_cons_of_pos (by rw [hnew]; rfl)]
  rw [nextStep, postOrder_of_new hnew, List.find?_append, List.find?_flatMap, hself]
  rfl

theorem nextStep_of_piece? (hi : c.piece? = some i) : c.nextStep = none := by
  cases c with
  | reused => rfl
  | _ => exact absurd hi (by simp [piece?])

/-- A construction without a next step is a piece on the board. -/
theorem exists_piece?_of_nextStep (h : c.nextStep = none) : ∃ i, c.piece? = some i := by
  cases hnew : c.piece? with
  | some i => exact ⟨i, rfl⟩
  | none =>
    rw [nextStep_of_new hnew] at h
    exact absurd h (by simp)

theorem Sound.premises (h : c.Sound known) : ∀ e ∈ c.premises, e.Sound known := by
  cases h <;> simp_all [Construction.premises]

theorem Sound.known_of_piece? (h : c.Sound known) (hi : c.piece? = some i) :
    known i c.formula c.assumptions := by
  cases h with
  | reused h => exact Option.some.inj hi ▸ h
  | _ => exact absurd hi (by simp [piece?])

/-- The next step follows its rule, is not on the board yet, and has all its premises there. -/
theorem Sound.of_nextStep (h : c.Sound known) (hd : c.nextStep = some d) :
    d.Sound known ∧ d.piece? = none ∧ ∀ e ∈ d.premises, e.nextStep = none := by
  induction c using premisesInduction with
  | h c ih =>
    cases hnew : c.piece? with
    | some i => exact absurd (hd.symm.trans (nextStep_of_piece? hnew)) (by simp)
    | none =>
      rw [nextStep_of_new hnew] at hd
      cases hfirst : c.premises.findSome? nextStep with
      | some e =>
        rw [hfirst, Option.some_or] at hd
        obtain ⟨p, hp, hpe⟩ := List.exists_of_findSome?_eq_some hfirst
        exact ih p hp (h.premises p hp) (hpe.trans hd)
      | none =>
        rw [hfirst, Option.none_or] at hd
        obtain rfl := Option.some.inj hd
        exact ⟨h, hnew, List.findSome?_eq_none_iff.mp hfirst⟩

/-- Every node of what can be found can be found itself. -/
theorem exists_found_of_mem_postOrder {r : Search.Resources} {goal : Formula} {ctx : List Formula}
    (h : Search.Found r goal ctx c) (hd : d ∈ c.postOrder) :
    ∃ goal' ctx', Search.Found r goal' ctx' d := by
  induction c using premisesInduction generalizing goal ctx with
  | h c ih =>
    cases hnew : c.piece? with
    | some i =>
      obtain rfl : d = c := by
        cases c with
        | reused => exact List.mem_singleton.mp hd
        | _ => exact nomatch hnew
      exact ⟨goal, ctx, h⟩
    | none =>
      rw [postOrder_of_new hnew, List.mem_append, List.mem_flatMap, List.mem_singleton] at hd
      rcases hd with ⟨e, he, hd⟩ | rfl
      · obtain ⟨goal', ctx', hfound, -⟩ := h.premises e he
        exact ih e he hfound hd
      · exact ⟨goal, ctx, h⟩

end Construction

namespace Board

/-- Constructions that stand on the board have pieces that bear them. -/
theorem exists_bears {cs : List Construction} (h : ∀ c ∈ cs, c.Sound b.Stands ∧ c.nextStep = none) :
    ∃ ps, cs.map Construction.piece? = ps.map some ∧ b.Bears cs ps := by
  induction cs with
  | nil => exact ⟨[], rfl, .nil⟩
  | cons c cs ih =>
    obtain ⟨⟨hsound, hstep⟩, hcs⟩ := List.forall_mem_cons.mp h
    obtain ⟨i, hi⟩ := Construction.exists_piece?_of_nextStep hstep
    obtain ⟨ps, hps, hbears⟩ := ih hcs
    exact ⟨i :: ps, by rw [List.map_cons, List.map_cons, hi, hps],
      .cons (hsound.known_of_piece? hi) hbears⟩

end Board

end DeductionBoard
