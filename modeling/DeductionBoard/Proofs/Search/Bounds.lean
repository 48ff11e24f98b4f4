import DeductionBoard.Proofs.Search.Limits
import Mathlib

/-! The bounds of a search. A search that may take up `N` goals is given up at the next one, and
only there. What it finds is no higher than its depth and takes no more new pieces than its room;
every new node of it has a rule of the palette and the premises of that rule, and a piece that is
reused rests on premises and on the hypotheses of the discharging nodes above it. -/

namespace DeductionBoard

namespace Construction

/-- `d` is a node of a construction, under the hypotheses `hs` that the nodes above it close. -/
inductive Occurs (d : Construction) : List Formula → Construction → Prop
  | root : Occurs d [] d
  | under {c e : Construction} {hs : List Formula} (he : e ∈ c.premises) (h : Occurs d hs e) :
      Occurs d (c.discharged ++ hs) c

theorem height_le_of_premises {c : Construction} {n : Nat} (h : ∀ e ∈ c.premises, e.height ≤ n) :
    c.height ≤ n + 1 := by
  cases c with
  | reused | assume => simp [height]
  | leftOf | rightOf | implies | quantify =>
    simp only [premises, List.forall_mem_singleton] at h
    rw [height]
    omega
  | both | refute =>
    simp only [premises, List.forall_mem_cons, List.not_mem_nil, false_imp_iff, implies_true,
      and_true] at h
    rw [height]
    omega

/-- A new node has a premise for every slot of its rule. -/
theorem length_premises_of_new {c : Construction} (h : c.piece? = none) :
    c.premises.length = c.kind.arity := by
  cases c with
  | reused => exact absurd h (by simp [piece?])
  | quantify q => cases q <;> rfl
  | _ => rfl

end Construction

namespace Search

variable {α β : Type} {m : Trial α} {goal f g : Formula} {ctx premises : List Formula} {room : Room}
  {prove : Tactic} {r : Resources} {c d : Construction} {n : Nat} {N D : Int}

/-! ### Height -/

section Height

variable {P : Construction → Prop}

theorem finds_pair_of (hprove : ∀ goal ctx room, Finds (prove goal ctx room) P) :
    Finds (pair prove f g ctx room) fun e => P e.1 ∧ P e.2 := by
  rw [pair]
  refine finds_bind (hprove f ctx room) finds_none fun c hc => ?_
  exact finds_bind (hprove g ctx _) finds_none fun d hd => finds_some ⟨hc, hd⟩

/-- The premises of what a rule finds were found by themselves. -/
theorem finds_introduce_of (hprove : ∀ goal ctx room, Finds (prove goal ctx room) P) :
    Finds (introduce r prove goal ctx room) fun c => ∀ e ∈ c.premises, P e := by
  have hone : ∀ {c e : Construction}, c.premises = [e] → P e → ∀ e ∈ c.premises, P e := by
    intro c e hpremises he
    rwa [hpremises, List.forall_mem_singleton]
  have htwo : ∀ {c e e' : Construction}, c.premises = [e, e'] → P e ∧ P e' →
      ∀ e ∈ c.premises, P e := by
    intro c e e' hpremises he
    rwa [hpremises, List.forall_mem_cons, List.forall_mem_singleton]
  unfold introduce
  split
  · exact finds_none
  · split
    · exact finds_bind (finds_pair_of hprove) finds_none fun e he => finds_some (htwo rfl he)
    · exact finds_none
  · split
    · refine finds_bind (hprove _ ctx room) ?_ fun c hc => finds_some (hone rfl hc)
      exact finds_bind (hprove _ ctx room) finds_none fun c hc => finds_some (hone rfl hc)
    · exact finds_none
  · split
    · exact finds_bind (hprove _ _ room) finds_none fun c hc => finds_some (hone rfl hc)
    · exact finds_none
  · split
    · refine finds_unless (finds_firstOf fun g _ => ?_)
      exact finds_bind (finds_pair_of hprove) finds_none fun e he => finds_some (htwo rfl he)
    · exact finds_none
  · split
    · refine finds_unless ?_
      rw [proveUniversal]
      split
      · exact finds_none
      · exact finds_instance (hprove _ ctx room) fun c hc => hone rfl hc
    · exact finds_none
  · split
    · refine finds_unless (finds_firstOf fun t _ => ?_)
      split
      · exact finds_none
      · exact finds_instance (hprove _ ctx room) fun c hc => hone rfl hc
    · exact finds_none

end Height

theorem height_of_leaf (h : leaf? r goal ctx room = some c) : c.height = 1 := by
  rw [leaf?] at h
  split at h
  · next d hd =>
    obtain rfl := Option.some.inj h
    rw [reuse?] at hd
    split at hd
    · exact absurd hd (by simp)
    · split at hd
      · obtain rfl := Option.some.inj hd
        rfl
      · exact absurd hd (by simp)
  · split at h
    · exact absurd h (by simp)
    split at h
    · obtain rfl := Option.some.inj h
      rfl
    · exact absurd h (by simp)

/-- A leaf, and a node more for every level of rules. -/
theorem finds_height_le (r : Resources) (n : Nat) (goal : Formula) (ctx : List Formula)
    (room : Room) : Finds (proveWithin r n goal ctx room) fun c => c.height ≤ n + 1 := by
  induction n generalizing goal ctx room with
  | zero =>
    exact yields_bind (yields_true _) fun _ _ => yields_pure fun c hc => Nat.le_of_eq (height_of_leaf hc)
  | succ n ih =>
    refine yields_bind (yields_true _) fun _ _ => ?_
    cases hleaf : leaf? r goal ctx room with
    | some c => exact finds_some (by rw [height_of_leaf hleaf]; omega)
    | none =>
      dsimp only
      split
      · exact finds_none
      · intro k o ho c hc
        exact Construction.height_le_of_premises (finds_introduce_of ih k o ho c hc)

/-! ### Goals that are taken up -/

/-- From at most `N` goals on, a trial ends at no more, or it is given up at the goal after them. -/
def Counts (N : Int) (m : Trial α) : Prop :=
  ∀ n : Nat, n ≤ N → (∃ a n', m.run.run n = (.ok a, n') ∧ n' ≤ N) ∨
    ∃ n' : Nat, m.run.run n = (.error .outOfNodes, n') ∧ n' = N + 1

theorem closed_counts (N : Int) : Closed fun _ m => Counts N m where
  of_pure a := fun n hn => .inl ⟨a, n, rfl, hn⟩
  of_bind {α β m k} hm hk := by
    intro n hn
    rw [run_bind]
    rcases hm n hn with ⟨a, n', hrun, hn'⟩ | ⟨n', hrun, hn'⟩ <;> rw [hrun]
    · exact hk a n' hn'
    · exact .inr ⟨n', rfl, hn'⟩

theorem run_takeUp (hmax : r.maxNodes = .upTo N) (n : Nat) : (takeUp r).run.run n =
    if N < (n + 1 : Nat) then (.error .outOfNodes, n + 1) else (.ok (), n + 1) := by
  rw [takeUp, hmax, run_bind]
  show ((if N < (n + 1 : Nat) then throw .outOfNodes else pure () : Trial Unit).run.run (n + 1)) = _
  split <;> rfl

theorem counts_takeUp (hmax : r.maxNodes = .upTo N) : Counts N (takeUp r) := by
  intro n hn
  rw [run_takeUp hmax]
  split
  · exact .inr ⟨n + 1, rfl, by omega⟩
  · exact .inl ⟨(), n + 1, rfl, by omega⟩

/-- A search stops, at the first goal beyond those that may be taken up or before. -/
theorem exists_prove_of_counts {depth : Limit} (hN : 0 ≤ N)
    (h : Counts N (proveTo r depth goal (Ascending.ofList premises) room)) :
    ∃ u, Search.prove r depth premises goal room = .ok u ∧
      (u.exhausted = false ∧ u.expanded ≤ N ∨
        u.exhausted = true ∧ u.found = none ∧ u.expanded = N + 1) := by
  rcases h 0 hN with ⟨o, n, hrun, hn⟩ | ⟨n, hrun, hn⟩
  · exact ⟨⟨o, n, false⟩, by rw [Search.prove, hrun], .inl ⟨rfl, hn⟩⟩
  · exact ⟨⟨none, n, true⟩, by rw [Search.prove, hrun], .inr ⟨rfl, rfl, hn⟩⟩

/-! ### Nodes -/

/-- A node of what can be found can be found, under the hypotheses that the nodes above it close. -/
theorem Found.of_occurs {hs : List Formula} (hd : d.Occurs hs c) (h : Found r goal ctx c) :
    ∃ goal' ctx', Found r goal' ctx' d ∧ ∀ f ∈ ctx', f ∈ ctx ∨ f ∈ hs := by
  induction hd generalizing goal ctx with
  | root => exact ⟨goal, ctx, h, fun _ => .inl⟩
  | @under c e hs he _ ih =>
    obtain ⟨goal', ctx', hfound, hctx'⟩ := h.premises e he
    obtain ⟨goal'', ctx'', hfound', hctx''⟩ := ih hfound
    refine ⟨goal'', ctx'', hfound', fun f hf => ?_⟩
    rw [List.mem_append]
    rcases hctx'' f hf with hf | hf
    · exact (hctx' f hf).imp_right .inl
    · exact .inr (.inr hf)

/-- What can be found on the board is a leaf, and its open formulas are in the context. -/
theorem Found.of_piece? {i : PieceId} (h : Found r goal ctx c) (hi : c.piece? = some i) :
    c.premises = [] ∧ ∃ p, List.lookup c.formula r.existing = some p ∧
      c = .reused p.piece p.kind c.formula p.assumptions ∧ ∀ f ∈ p.assumptions, f ∈ ctx := by
  cases h with
  | reuse hp hopen => exact ⟨rfl, _, hp, rfl, hopen⟩
  | _ => exact absurd hi (by simp [Construction.piece?])

/-! ### All bounds -/

/-- A construction from premises within the depth `D`, a room and the resources of a search. -/
structure Obeys (r : Resources) (D : Int) (premises : List Formula) (room : Room)
    (c : Construction) : Prop where
  height_le : c.height ≤ D
  newPieces_le : ∀ k, room = some k → c.newPieces ≤ k
  /-- A new node follows a rule of the palette, with a premise for every slot. -/
  of_new : ∀ (hs : List Formula) (d : Construction), d.Occurs hs c → d.piece? = none →
    r.palette.contains d.kind = true ∧ d.premises.length = d.kind.arity
  /-- A reused node is a leaf that stands under its formula among the pieces at hand, and rests on
  premises and on what is assumed above it. -/
  of_reused : ∀ (hs : List Formula) (d : Construction) (i : PieceId), d.Occurs hs c →
    d.piece? = some i → d.premises = [] ∧ ∃ p, List.lookup d.formula r.existing = some p ∧
      d = .reused p.piece p.kind d.formula p.assumptions ∧
        ∀ f ∈ p.assumptions, f ∈ premises ∨ f ∈ hs

/-- What a search from premises came to, where it may take up `N` goals. -/
structure Outcome.Bounded (u : Outcome) (r : Resources) (N D : Int) (premises : List Formula)
    (room : Room) : Prop where
  expanded_le : u.expanded ≤ N + 1
  exhausted_iff : u.exhausted = true ↔ N < u.expanded
  found_of_exhausted : u.exhausted = true → u.found = none
  found : ∀ c, u.found = some c → Obeys r D premises room c

theorem depthLimit_int {s : SearchSettings} (h : s.maxDepth = .int D) : depthLimit s = .upTo D := by
  rw [depthLimit, h]
  exact congrArg Limit.upTo (Rat.ceil_intCast D)

theorem nodeLimit_int {s : SearchSettings} (h : s.maxNodes = .int N) : nodeLimit s = .upTo N := by
  rw [nodeLimit, h]
  exact congrArg Limit.upTo (Rat.floor_intCast N)

theorem height_le_of_prove {u : Outcome} (hD : 1 ≤ D)
    (hu : Search.prove r (.upTo D) premises goal room = .ok u) (hc : u.found = some c) :
    c.height ≤ D := by
  rw [Search.prove] at hu
  split at hu
  · next found n hrun =>
    obtain rfl := Except.ok.inj hu
    have hle := finds_height_le r (D - 1).toNat goal _ room 0 found (congrArg Prod.fst hrun) c hc
    omega
  · obtain rfl := Except.ok.inj hu
    exact absurd hc (by simp)
  · exact absurd hu (by simp)

theorem obeys_of_prove {u : Outcome} (hD : 1 ≤ D) (hroom : room.Holds 0)
    (hu : Search.prove r (.upTo D) premises goal room = .ok u) (hc : u.found = some c) :
    Obeys r D premises room c where
  height_le := height_le_of_prove hD hu hc
  newPieces_le := holds_of_prove hroom hu hc
  of_new hs d hd hnew := by
    obtain ⟨_, _, hfound, -⟩ := (found_of_prove hu hc).of_occurs hd
    exact ⟨(hfound.of_new hnew).1, Construction.length_premises_of_new hnew⟩
  of_reused hs d i hd hi := by
    obtain ⟨_, ctx, hfound, hctx⟩ := (found_of_prove hu hc).of_occurs hd
    obtain ⟨hleaf, p, hp, heq, hopen⟩ := hfound.of_piece? hi
    refine ⟨hleaf, p, hp, heq, fun f hf => ?_⟩
    exact (hctx f (hopen f hf)).imp_left Ascending.mem_ofList.mp

/-- Every search within limits that are whole numbers comes to an end, and what it comes to keeps
them. -/
theorem prove_bounded {s : SearchSettings} (hnodes : s.maxNodes = .int N) (hN : 1 ≤ N)
    (hdepth : s.maxDepth = .int D) (hD : 1 ≤ D) (hroom : ∀ k, room = some k → 0 ≤ k)
    (palette : Palette) (existing : List (Formula × Placed)) (premises : List Formula)
    (goal : Formula) :
    ∃ u, Search.prove ⟨palette, existing, nodeLimit s, false⟩ (depthLimit s) premises goal room =
        .ok u ∧ u.Bounded ⟨palette, existing, nodeLimit s, false⟩ N D premises room := by
  rw [depthLimit_int hdepth]
  have hcounts : Counts N (proveTo ⟨palette, existing, nodeLimit s, false⟩ (.upTo D) goal
      (Ascending.ofList premises) room) :=
    (closed_counts N).proveWithin rfl (counts_takeUp (nodeLimit_int hnodes)) (D - 1).toNat goal _ room
  obtain ⟨u, hu, hend⟩ := exists_prove_of_counts (by omega) hcounts
  have hobeys := fun c => obeys_of_prove (c := c) hD hroom hu
  refine ⟨u, hu, ?_⟩
  rcases hend with ⟨hgoesOn, hle⟩ | ⟨hexhausted, hnone, heq⟩
  · have hgoes : ¬ u.exhausted = true := by simp [hgoesOn]
    exact ⟨by omega, iff_of_false hgoes (by omega), fun h => absurd h hgoes, hobeys⟩
  · exact ⟨by omega, iff_of_true hexhausted (by omega), fun _ => hnone, hobeys⟩

/-- Limits that the search below just meets. -/
def tightSettings : SearchSettings := ⟨.int 4, .int 4⟩

/-- A conjunction of two formulas that the goal assumes; a piece that derives it stands ready. -/
def readyConjunction : Formula := .conj (.atom "P" []) (.atom "Q" [])

def readyResources : Resources :=
  ⟨Palette.full, [(readyConjunction, ⟨3, .andIntro, [.atom "P" [], .atom "Q" []]⟩)],
    nodeLimit tightSettings, false⟩

def readyGoal : Formula :=
  .imp (.atom "P" []) (.imp (.atom "Q" []) (.disj readyConjunction (.atom "R" [])))

def readyConstruction : Construction :=
  .implies (.atom "P" []) (.implies (.atom "Q" []) (.leftOf
    (.reused 3 .andIntro readyConjunction [.atom "P" [], .atom "Q" []]) (.atom "R" [])))

theorem prove_bounded_tight :
    Search.prove readyResources (depthLimit tightSettings) [] readyGoal (some 3) =
        .ok ⟨some readyConstruction, 4, false⟩ ∧
      Outcome.Bounded ⟨some readyConstruction, 4, false⟩ readyResources 4 4 [] (some 3) := by
  have hprove : Search.prove readyResources (depthLimit tightSettings) [] readyGoal (some 3) =
      .ok ⟨some readyConstruction, 4, false⟩ := by
    cbv
  obtain ⟨u, hu, hbounded⟩ : ∃ u,
      Search.prove readyResources (depthLimit tightSettings) [] readyGoal (some 3) = .ok u ∧
        u.Bounded readyResources 4 4 [] (some 3) :=
    prove_bounded rfl (by decide) rfl (by decide) (by simp) Palette.full
      [(readyConjunction, ⟨3, .andIntro, [.atom "P" [], .atom "Q" []]⟩)] [] readyGoal
  obtain rfl := Except.ok.inj (hprove.symm.trans hu)
  exact ⟨hprove, hbounded⟩

end Search

end DeductionBoard
