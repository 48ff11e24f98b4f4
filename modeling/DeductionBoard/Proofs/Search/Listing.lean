import DeductionBoard.Proofs.Formula.Order
import DeductionBoard.Proofs.Search.Limits
import DeductionBoard.Proofs.Search.Names
import Mathlib

/-! Searches over unordered sets. The contexts of a search, its premises and its palette are sets,
and a set may be gone through in any order, which may depend on how the set came about. A search
that goes through its sets in such an order sorts what it tries, and apart from that it only asks
what is in them. Main result: all these searches come to the same, for all lists of the same
premises and of the same rules, and that is what the search over ascending lists comes to. -/

namespace DeductionBoard

/-! ### Ascending lists -/

namespace Ascending

variable {α : Type} [LT α] [Ordered α] {xs ys : List α}

instance asymm_lt : Std.Asymm (α := α) (· < ·) :=
  ⟨fun _ _ hab hba => Ordered.irrefl (Ordered.trans hab hba)⟩

/-- A list without repetitions in which nothing stands before what is less ascends. -/
theorem pairwise_of_nodup (hnodup : xs.Nodup) (h : xs.Pairwise fun a b => ¬ b < a) :
    xs.Pairwise (· < ·) :=
  (hnodup.and h).imp fun {a b} ⟨hne, hba⟩ => by
    by_contra hab
    exact hne (Separates.eq_of_not_lt hab hba)

theorem ofList_congr [DecidableRel (α := α) (· < ·)] (h : ∀ a, a ∈ xs ↔ a ∈ ys) :
    ofList xs = ofList ys :=
  (pairwise_ofList xs).eq_of_mem_iff (pairwise_ofList ys) fun a => by rw [mem_ofList, mem_ofList, h]

end Ascending

namespace Search

/-- The members of sets, each once, in an order that may depend on how a set was put together: the
list given stands for the set of its members. -/
structure Listing where
  formulas : List Formula → List Formula
  names : List String → List String
  mem_formulas : ∀ {fs f}, f ∈ formulas fs ↔ f ∈ fs
  nodup_formulas : ∀ fs, (formulas fs).Nodup
  mem_names : ∀ {xs x}, x ∈ names xs ↔ x ∈ xs
  nodup_names : ∀ xs, (names xs).Nodup

/-- Resources that differ at most in how the rules and the pieces at hand are listed. -/
structure Resources.Same (r r' : Resources) : Prop where
  palette : ∀ k, k ∈ r.palette.kinds ↔ k ∈ r'.palette.kinds
  existing : ∀ f, List.lookup f r.existing = List.lookup f r'.existing
  maxNodes : r.maxNodes = r'.maxNodes
  gap : r.gap = r'.gap

theorem Resources.Same.refl (r : Resources) : r.Same r :=
  ⟨fun _ => Iff.rfl, fun _ => rfl, rfl, rfl⟩

theorem Resources.Same.contains {r r' : Resources} (h : r.Same r') (k : RuleKind) :
    r.palette.contains k = r'.palette.contains k := by
  rw [Palette.contains, Palette.contains, decide_eq_decide]
  exact h.palette k

namespace Listing

variable (L : Listing)

/-! ### The search over listed sets -/

/-- The names that a set of formulas brings in, where each formula brings in a part of its own. -/
def namesIn (part : Formula → List String) (fs : List Formula) : List String :=
  L.names ((L.formulas fs).flatMap fun f => L.names (part f))

/-- A term for a universal: its variable, or a fresh name where that is free in the context. -/
def eigenTerm (v : String) (body : Formula) (ctx : List Formula) : String :=
  if (L.formulas ctx).any fun f => v ∈ f.freeVars then
    freshName v (L.namesIn (fun f => f.freeVars ++ f.boundVars) (.all v body :: ctx))
  else v

/-- The terms that may witness an existential, the free names of the context sorted. -/
def witnesses (v : String) (ctx : List Formula) : List String :=
  v :: ((L.namesIn Formula.freeVars ctx).filter (· ≠ v)).mergeSort fun s t => s ≤ t

def proveUniversal (prove : Tactic) (v : String) (body : Formula) (ctx : List Formula)
    (room : Room) : Trial (Option Construction) := do
  let t := L.eigenTerm v body ctx
  match instanceOf v t body with
  | none => pure none
  | some i =>
    match ← prove i ctx room with
    | none => pure none
    | some c =>
      pure (if occursIn [v, t] (L.formulas c.assumptions) then none
        else some (.quantify .all v (otherTerm v t) body c))

def proveExistential (prove : Tactic) (v : String) (body : Formula) (ctx : List Formula)
    (room : Room) : Trial (Option Construction) :=
  firstOf (fun t => do
    match witnessed v t body with
    | none => pure none
    | some i =>
      match ← prove i ctx room with
      | none => pure none
      | some c =>
        pure (if occursIn [v] (L.formulas c.assumptions) then none
          else some (.quantify .exist v (otherTerm v t) body c)))
    (L.witnesses v ctx)

def proveNegation (prove : Tactic) (h : Formula) (ctx : List Formula) (room : Room) :
    Trial (Option Construction) :=
  firstOf (fun f => do
    match ← pair prove f (.neg f) (h :: ctx) room with
    | none => pure none
    | some (c, d) => pure (some (.refute h c d)))
    (contradictionCandidates (Formula.sort (L.formulas (h :: ctx))))

/-- The introduction rule of a goal. Those of conjunctions and disjunctions leave the context as it
is and do not look into it. -/
def introduce (r : Resources) (prove : Tactic) (goal : Formula) (ctx : List Formula) (room : Room) :
    Trial (Option Construction) :=
  match goal with
  | .imp f g =>
    if r.palette.contains .impliesIntro then do
      match ← prove g (f :: ctx) room with
      | some c => pure (some (.implies f c))
      | none => pure none
    else pure none
  | .neg f =>
    if r.palette.contains .notIntro then do
      if r.gap then throw (.defect .illTyped)
      L.proveNegation prove f ctx room
    else pure none
  | .all v f =>
    if r.palette.contains .forallIntro then do
      if r.gap then throw (.defect .noFormula)
      L.proveUniversal prove v f ctx room
    else pure none
  | .exist v f =>
    if r.palette.contains .existsIntro then do
      if r.gap then throw (.defect .noFormula)
      L.proveExistential prove v f ctx room
    else pure none
  | _ => Search.introduce r prove goal ctx room

def proveWithin (r : Resources) : (n : Nat) → Tactic
  | 0, goal, ctx, room => do
    takeUp r
    pure (leaf? r goal ctx room)
  | n + 1, goal, ctx, room => do
    takeUp r
    match leaf? r goal ctx room with
    | some c => pure (some c)
    | none =>
      if room.isUsedUp then pure none
      else L.introduce r (proveWithin r n) goal ctx (room.spend 1)

def proveTo (r : Resources) (depth : Limit) (goal : Formula) (ctx : List Formula) (room : Room) :
    Trial (Option Construction) :=
  match depth with
  | .upTo d => L.proveWithin r (d - 1).toNat goal ctx room
  | .unbounded => L.proveWithin r unboundedLevels goal ctx room
  | .illTyped => do
    takeUp r
    match leaf? r goal ctx room with
    | some c => pure (some c)
    | none => if room.isUsedUp then pure none else throw (.defect .illTyped)

def prove (r : Resources) (depth : Limit) (premises : List Formula) (goal : Formula) (room : Room) :
    Except Defect Outcome :=
  match (L.proveTo r depth goal premises room).run.run 0 with
  | (.ok found, n) => .ok ⟨found, n, false⟩
  | (.error .outOfNodes, n) => .ok ⟨none, n, true⟩
  | (.error (.defect d), _) => .error d

/-! ### What does not depend on the listing -/

variable {L} {r r' : Resources} {tactic tactic' : Tactic} {goal f g h body : Formula}
  {ctx fs : List Formula} {room : Room} {v x : String}

@[simp] theorem mem_namesIn {part : Formula → List String} :
    x ∈ L.namesIn part fs ↔ ∃ f ∈ fs, x ∈ part f := by
  simp [namesIn, L.mem_names, L.mem_formulas]

theorem any_congr {gs : List Formula} (h : ∀ f, f ∈ fs ↔ f ∈ gs) (p : Formula → Bool) :
    fs.any p = gs.any p := by
  rw [Bool.eq_iff_iff, List.any_eq_true, List.any_eq_true]
  simp only [h]

@[simp] theorem any_formulas (p : Formula → Bool) : (L.formulas fs).any p = fs.any p :=
  any_congr (fun _ => L.mem_formulas) p

theorem sort_formulas : Formula.sort (L.formulas fs) = Ascending.ofList fs := by
  have hperm := Formula.sort_perm (L.formulas fs)
  refine (Ascending.pairwise_of_nodup ?_ ?_).eq_of_mem_iff (Ascending.pairwise_ofList _) fun f => ?_
  · exact hperm.nodup_iff.mpr (L.nodup_formulas fs)
  · exact (Formula.pairwise_sort _).imp Formula.le_iff_not_lt.mp
  · rw [hperm.mem_iff, L.mem_formulas, Ascending.mem_ofList]

theorem pairwise_mergeSort_names (xs : List String) :
    (xs.mergeSort fun s t => s ≤ t).Pairwise fun s t => ¬ t < s := by
  refine (List.pairwise_mergeSort (fun s t u hst htu => ?_) (fun s t => ?_) xs).imp fun hst => ?_
  · exact decide_eq_true (String.le_trans (of_decide_eq_true hst) (of_decide_eq_true htu))
  · simpa using String.le_total s t
  · exact String.not_lt.mpr (of_decide_eq_true hst)

theorem witnesses_eq (v : String) (ctx : List Formula) :
    L.witnesses v ctx = Search.witnesses v (Ascending.ofList ctx) := by
  refine congrArg (v :: ·) ((Ascending.pairwise_of_nodup ?_ ?_).eq_of_mem_iff ?_ fun x => ?_)
  · exact (List.mergeSort_perm _ _).nodup_iff.mpr ((L.nodup_names _).filter _)
  · exact pairwise_mergeSort_names _
  · exact (Ascending.pairwise_ofList _).filter _
  · simp

theorem eigenTerm_eq (v : String) (body : Formula) (ctx : List Formula) :
    L.eigenTerm v body ctx = Search.eigenTerm v body (Ascending.ofList ctx) := by
  rw [eigenTerm, Search.eigenTerm, any_formulas, any_congr fun _ => Ascending.mem_ofList]
  have hnames : freshName v (L.namesIn (fun f => f.freeVars ++ f.boundVars) (.all v body :: ctx)) =
      freshName v (namesOf (.all v body :: Ascending.ofList ctx)) := by
    refine freshName_congr v fun x => ?_
    simp [namesOf, or_assoc]
  rw [hnames]

@[simp] theorem occursIn_formulas (names : List String) (fs : List Formula) :
    occursIn names (L.formulas fs) = occursIn names fs := any_formulas _

/-! ### Rule by rule -/

/-- A tactic does in any list of a context what another one does in the ascending list. -/
def Follows (tactic tactic' : Tactic) : Prop :=
  ∀ goal ctx room, tactic goal ctx room = tactic' goal (Ascending.ofList ctx) room

theorem Follows.pair (h : Follows tactic tactic') (f g : Formula) (ctx : List Formula)
    (room : Room) :
    Search.pair tactic f g ctx room = Search.pair tactic' f g (Ascending.ofList ctx) room := by
  rw [Search.pair, Search.pair, h]
  simp only [h g]

theorem Follows.proveUniversal (h : Follows tactic tactic') (v : String) (body : Formula)
    (ctx : List Formula) (room : Room) :
    L.proveUniversal tactic v body ctx room =
      Search.proveUniversal tactic' v body (Ascending.ofList ctx) room := by
  rw [Listing.proveUniversal, eigenTerm_eq]
  simp only [h _ ctx, occursIn_formulas]
  rfl

theorem Follows.proveExistential (h : Follows tactic tactic') (v : String) (body : Formula)
    (ctx : List Formula) (room : Room) :
    L.proveExistential tactic v body ctx room =
      Search.proveExistential tactic' v body (Ascending.ofList ctx) room := by
  rw [Listing.proveExistential, witnesses_eq]
  simp only [h _ ctx, occursIn_formulas]
  rfl

theorem Follows.proveNegation (h : Follows tactic tactic') (f : Formula) (ctx : List Formula)
    (room : Room) :
    L.proveNegation tactic f ctx room =
      Search.proveNegation tactic' f (Ascending.ofList ctx) room := by
  rw [Listing.proveNegation, sort_formulas]
  simp only [h.pair, Ascending.ofList_cons]
  rfl

theorem Follows.introduce (h : Follows tactic tactic') (hr : r.Same r') (goal : Formula)
    (ctx : List Formula) (room : Room) :
    L.introduce r tactic goal ctx room =
      Search.introduce r' tactic' goal (Ascending.ofList ctx) room := by
  cases goal with
  | atom => rfl
  | neg f =>
    simp only [Listing.introduce, hr.contains, hr.gap, h.proveNegation]
    rfl
  | binary op f g =>
    cases op with
    | and =>
      simp only [Listing.introduce, Search.introduce, hr.contains, h.pair]
    | or =>
      simp only [Listing.introduce, Search.introduce, hr.contains, h _ ctx]
    | implies =>
      simp only [Listing.introduce, hr.contains, h _ (f :: ctx), Ascending.ofList_cons]
      rfl
  | quantified q v f =>
    cases q with
    | all =>
      simp only [Listing.introduce, hr.contains, hr.gap, h.proveUniversal]
      rfl
    | exist =>
      simp only [Listing.introduce, hr.contains, hr.gap, h.proveExistential]
      rfl

theorem takeUp_congr (hr : r.Same r') : takeUp r = takeUp r' := by
  rw [takeUp, takeUp, hr.maxNodes]

theorem leaf?_congr (hr : r.Same r') (goal : Formula) (ctx : List Formula) (room : Room) :
    leaf? r goal ctx room = leaf? r' goal (Ascending.ofList ctx) room := by
  simp only [leaf?, reuse?, hr.existing, hr.contains, Ascending.mem_ofList]

theorem follows_proveWithin (hr : r.Same r') (n : Nat) :
    Follows (L.proveWithin r n) (Search.proveWithin r' n) := by
  induction n with
  | zero =>
    intro goal ctx room
    rw [Listing.proveWithin, Search.proveWithin, takeUp_congr hr, leaf?_congr hr]
  | succ n ih =>
    intro goal ctx room
    rw [Listing.proveWithin, takeUp_congr hr, leaf?_congr hr, ih.introduce hr]
    rfl

theorem follows_proveTo (hr : r.Same r') (depth : Limit) :
    Follows (L.proveTo r depth) (Search.proveTo r' depth) := by
  intro goal ctx room
  cases depth with
  | upTo d => exact follows_proveWithin hr _ goal ctx room
  | unbounded => exact follows_proveWithin hr _ goal ctx room
  | illTyped =>
    rw [Listing.proveTo, takeUp_congr hr, leaf?_congr hr]
    rfl

theorem prove_eq (L : Listing) (hr : r.Same r') {premises premises' : List Formula}
    (h : ∀ f, f ∈ premises ↔ f ∈ premises') (depth : Limit) (goal : Formula) (room : Room) :
    L.prove r depth premises goal room = Search.prove r' depth premises' goal room := by
  rw [Listing.prove, follows_proveTo hr depth goal premises room, Ascending.ofList_congr h]
  rfl

theorem exists_prove {depth : Limit} {premises : List Formula} (hgap : r.gap = false)
    (hmax : r.maxNodes ≠ .illTyped) (hdepth : depth ≠ .illTyped) :
    ∃ u, Search.prove r depth premises goal room = .ok u :=
  exists_prove_of_proper (proper_proveTo hgap hmax fun h => absurd h hdepth)

/-- For the same premises, the same rules and the same pieces at hand, in whatever way all of them
are listed and in whatever order the sets of a search are gone through, it comes to the same: the
construction with all its names, the number of goals and whether it was given up. It comes to
something where no premise is missing and the limits are numbers. -/
theorem prove_same (L L' : Listing) (hr : r.Same r') {premises premises' : List Formula}
    (h : ∀ f, f ∈ premises ↔ f ∈ premises') (depth : Limit) (goal : Formula) (room : Room) :
    L.prove r depth premises goal room = L'.prove r' depth premises' goal room ∧
      Search.prove r depth premises goal room = Search.prove r' depth premises' goal room ∧
      L.prove r depth premises goal room = Search.prove r depth premises goal room ∧
      (r.gap = false → r.maxNodes ≠ .illTyped → depth ≠ .illTyped →
        ∃ u, L.prove r depth premises goal room = .ok u) := by
  have hL := L.prove_eq (.refl r) (fun f => Iff.refl (f ∈ premises)) depth goal room
  have hL' := L'.prove_eq (.refl r') (fun f => Iff.refl (f ∈ premises')) depth goal room
  have hsame := L.prove_eq hr h depth goal room
  refine ⟨hsame.trans hL'.symm, hL.symm.trans hsame, hL, fun hgap hmax hdepth => ?_⟩
  rw [hL]
  exact exists_prove hgap hmax hdepth

/-- Everything in ascending order. -/
def ascending : Listing where
  formulas := Ascending.ofList
  names := Ascending.ofList
  mem_formulas := Ascending.mem_ofList
  nodup_formulas fs := (Ascending.pairwise_ofList fs).nodup
  mem_names := Ascending.mem_ofList
  nodup_names xs := (Ascending.pairwise_ofList xs).nodup

/-- Everything in descending order. -/
def descending : Listing where
  formulas fs := (Ascending.ofList fs).reverse
  names xs := (Ascending.ofList xs).reverse
  mem_formulas := by simp
  nodup_formulas fs := List.nodup_reverse.mpr (Ascending.pairwise_ofList fs).nodup
  mem_names := by simp
  nodup_names xs := List.nodup_reverse.mpr (Ascending.pairwise_ofList xs).nodup

def existentialGoal : Formula := .exist "x" (.atom "P" ["x"])

def existentialResources (ks : List RuleKind) : Resources := ⟨⟨ks⟩, [], .upTo 9, false⟩

def leastInstance : Outcome :=
  ⟨some (.quantify .exist "x" (some "a") (.atom "P" ["x"]) (.assume (.atom "P" ["a"]))), 3, false⟩

/-- The instance for the least free name of the premises is found, wherever that name stands. -/
theorem prove_same_existential :
    descending.prove (existentialResources [.existsIntro, .assumption]) (.upTo 4)
        [.atom "P" ["b"], .atom "P" ["a"]] existentialGoal none = .ok leastInstance ∧
    ascending.prove (existentialResources [.assumption, .existsIntro, .assumption]) (.upTo 4)
        [.atom "P" ["a"], .atom "P" ["b"], .atom "P" ["a"]] existentialGoal none =
      .ok leastInstance := by
  have hr : (existentialResources [.existsIntro, .assumption]).Same
      (existentialResources [.assumption, .existsIntro, .assumption]) :=
    ⟨fun k => by cases k <;> decide, fun _ => rfl, rfl, rfl⟩
  have hpremises : ∀ f : Formula, f ∈ [.atom "P" ["b"], .atom "P" ["a"]] ↔
      f ∈ [.atom "P" ["a"], .atom "P" ["b"], .atom "P" ["a"]] := by
    intro f
    simp only [List.mem_cons, List.not_mem_nil]
    tauto
  have hsearch : Search.prove (existentialResources [.existsIntro, .assumption]) (.upTo 4)
      [.atom "P" ["b"], .atom "P" ["a"]] existentialGoal none = .ok leastInstance := by
    cbv
  obtain ⟨hsame, -, hL, -⟩ :=
    prove_same descending ascending hr hpremises (.upTo 4) existentialGoal none
  exact ⟨hL.trans hsearch, hsame.symm.trans (hL.trans hsearch)⟩

end Listing

end Search

end DeductionBoard
