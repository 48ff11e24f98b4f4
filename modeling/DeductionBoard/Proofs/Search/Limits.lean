import DeductionBoard.Proofs.Search.Backward

/-! What bounds a search. Whatever a search finds takes no more new pieces than its room. A search
of formulas that are all there, in numbers, is never broken off by a defect: it comes to an end, or
it runs out of goals. -/

namespace DeductionBoard.Search

variable {α β : Type} {m : Trial α} {goal f g : Formula} {ctx : List Formula} {room : Room}
  {prove : Tactic} {r : Resources} {c : Construction} {n : Nat}

/-! ### Rooms -/

/-- A number of pieces has room. -/
def Room.Holds (room : Room) (n : Nat) : Prop := ∀ k, room = some k → (n : Int) ≤ k

@[simp] theorem Room.holds_spend {k : Nat} : (room.spend k).Holds n ↔ room.Holds (k + n) := by
  cases room with
  | none => simp [Room.Holds, Room.spend]
  | some l =>
    simp only [Room.Holds, Room.spend, Option.map_some, Option.some.injEq, forall_eq',
      Int.natCast_add]
    omega

theorem Room.holds_one_iff : room.Holds 1 ↔ room.isUsedUp = false := by
  cases room with
  | none => simp [Room.Holds, Room.isUsedUp]
  | some l => simp [Room.Holds, Room.isUsedUp]

/-- Where the room is not overdrawn, what is found fits into it. -/
def Tactic.Fits (prove : Tactic) : Prop :=
  ∀ goal ctx room, room.Holds 0 → Finds (prove goal ctx room) fun c => room.Holds c.newPieces

theorem Tactic.Fits.pair (hprove : prove.Fits) (h : room.Holds 0) :
    Finds (pair prove f g ctx room) fun e => room.Holds (e.1.newPieces + e.2.newPieces) := by
  rw [Search.pair]
  refine finds_bind (hprove f ctx room h) finds_none fun c hc => ?_
  have hleft : (room.spend c.newPieces).Holds 0 := Room.holds_spend.mpr (by simpa using hc)
  refine finds_bind (hprove g ctx _ hleft) finds_none fun d hd => ?_
  exact finds_some (Room.holds_spend.mp hd)

theorem holds_leaf (h : room.Holds 0) (hc : leaf? r goal ctx room = some c) :
    room.Holds c.newPieces := by
  rw [leaf?] at hc
  split at hc
  · next d hd =>
    obtain rfl := Option.some.inj hc
    rw [reuse?] at hd
    split at hd
    · exact absurd hd (by simp)
    · split at hd
      · obtain rfl := Option.some.inj hd
        exact h
      · exact absurd hd (by simp)
  · split at hc
    · exact absurd hc (by simp)
    next hfree =>
    split at hc
    · obtain rfl := Option.some.inj hc
      exact Room.holds_one_iff.mpr (Bool.not_eq_true _ ▸ hfree)
    · exact absurd hc (by simp)

/-- A rule takes a piece on top of those of its premises. -/
def Tops (room : Room) (c : Construction) : Prop := ∃ k, c.newPieces = 1 + k ∧ room.Holds k

/-- The attempt at one instance of a quantified formula. -/
theorem finds_instance {P Q : Construction → Prop} {F : Construction → Construction}
    {names : List String} {m : Trial (Option Construction)} (hm : Finds m P)
    (hF : ∀ c, P c → Q (F c)) :
    Finds (do
      match ← m with
      | none => pure none
      | some c => pure (if occursIn names c.assumptions then none else some (F c))) Q := by
  refine finds_bind hm finds_none fun c hc => yields_pure fun d hd => ?_
  split at hd
  · exact absurd hd (by simp)
  · obtain rfl := Option.some.inj hd
    exact hF c hc

theorem Tactic.Fits.introduce (hprove : prove.Fits) (h : room.Holds 0) :
    Finds (introduce r prove goal ctx room) (Tops room) := by
  unfold Search.introduce
  split
  · exact finds_none
  · split
    · exact finds_bind (hprove.pair h) finds_none fun e he => finds_some ⟨_, rfl, he⟩
    · exact finds_none
  · split
    · refine finds_bind (hprove _ ctx room h) ?_ fun c hc => finds_some ⟨_, rfl, hc⟩
      exact finds_bind (hprove _ ctx room h) finds_none fun c hc => finds_some ⟨_, rfl, hc⟩
    · exact finds_none
  · split
    · exact finds_bind (hprove _ _ room h) finds_none fun c hc => finds_some ⟨_, rfl, hc⟩
    · exact finds_none
  · split
    · refine finds_unless (finds_firstOf fun g _ => ?_)
      exact finds_bind (hprove.pair h) finds_none fun e he => finds_some ⟨_, rfl, he⟩
    · exact finds_none
  · split
    · refine finds_unless ?_
      rw [proveUniversal]
      split
      · exact finds_none
      · exact finds_instance (hprove _ ctx room h) fun c hc => ⟨_, rfl, hc⟩
    · exact finds_none
  · split
    · refine finds_unless (finds_firstOf fun t _ => ?_)
      split
      · exact finds_none
      · exact finds_instance (hprove _ ctx room h) fun c hc => ⟨_, rfl, hc⟩
    · exact finds_none

theorem fits_proveWithin (r : Resources) (n : Nat) : (proveWithin r n).Fits := by
  induction n with
  | zero =>
    intro goal ctx room h
    exact yields_bind (yields_true _) fun _ _ => yields_pure fun c hc => holds_leaf h hc
  | succ n ih =>
    intro goal ctx room h
    refine yields_bind (yields_true _) fun _ _ => ?_
    cases hleaf : leaf? r goal ctx room with
    | some c => exact finds_some (holds_leaf h hleaf)
    | none =>
      dsimp only
      split
      · exact finds_none
      next hfree =>
      have hone := Room.holds_one_iff.mpr (Bool.not_eq_true _ ▸ hfree)
      intro k o ho c hc
      obtain ⟨l, hl, hroom⟩ := ih.introduce (Room.holds_spend.mpr hone) k o ho c hc
      rw [hl]
      exact Room.holds_spend.mp hroom

theorem fits_proveTo (r : Resources) (depth : Limit) : Tactic.Fits (proveTo r depth) := by
  intro goal ctx room h
  cases depth with
  | upTo d => exact fits_proveWithin r _ goal ctx room h
  | unbounded => exact fits_proveWithin r _ goal ctx room h
  | illTyped =>
    refine yields_bind (yields_true _) fun _ _ => ?_
    cases hleaf : leaf? r goal ctx room with
    | some c => exact finds_some (holds_leaf h hleaf)
    | none =>
      dsimp only
      split
      · exact finds_none
      · exact yields_throw _

/-- What a search finds fits into the room. -/
theorem holds_of_prove {depth : Limit} {premises : List Formula} {u : Outcome} (h : room.Holds 0)
    (hu : Search.prove r depth premises goal room = .ok u) (hc : u.found = some c) :
    room.Holds c.newPieces := by
  rw [Search.prove] at hu
  split at hu
  · next found n hrun =>
    obtain rfl := Except.ok.inj hu
    exact fits_proveTo r depth goal _ room h 0 found (by rw [hrun]) c hc
  · obtain rfl := Except.ok.inj hu
    exact absurd hc (by simp)
  · exact absurd hu (by simp)

/-! ### Properties of all trials of a search -/

/-- A property that a trial has whenever the trials that it is made of have it. -/
structure Closed (P : (α : Type) → Trial α → Prop) : Prop where
  of_pure : ∀ {α : Type} (a : α), P α (pure a)
  of_bind : ∀ {α β : Type} {m : Trial α} {k : α → Trial β}, P α m → (∀ a, P β (k a)) → P β (m >>= k)

namespace Closed

variable {P : (α : Type) → Trial α → Prop}

theorem firstOf (hP : Closed P) {attempt : α → Trial (Option Construction)} {l : List α}
    (h : ∀ a, P _ (attempt a)) : P _ (firstOf attempt l) := by
  induction l with
  | nil => exact hP.of_pure none
  | cons a l ih =>
    refine hP.of_bind (h a) fun o => ?_
    cases o with
    | none => exact ih
    | some c => exact hP.of_pure _

theorem pair (hP : Closed P) (hprove : ∀ goal ctx room, P _ (prove goal ctx room)) :
    P _ (pair prove f g ctx room) := by
  refine hP.of_bind (hprove f ctx room) fun o => ?_
  cases o with
  | none => exact hP.of_pure none
  | some c =>
    refine hP.of_bind (hprove g ctx _) fun o => ?_
    cases o <;> exact hP.of_pure _

/-- Where no premise is missing, a trial is not given up for one. -/
theorem of_unless {m : Trial α} {e : Stop} (hgap : r.gap = false) (h : P _ m) :
    P _ (do
      if r.gap then throw e
      m) := by
  rw [hgap]
  exact h

/-- The attempt at one instance of a quantified formula. -/
theorem attempt (hP : Closed P) {m : Trial (Option Construction)} {names : List String}
    {F : Construction → Construction} (h : P _ m) :
    P _ (do
      match ← m with
      | none => pure none
      | some c => pure (if occursIn names c.assumptions then none else some (F c))) := by
  refine hP.of_bind h fun o => ?_
  cases o <;> exact hP.of_pure _

theorem introduce (hP : Closed P) (hgap : r.gap = false)
    (hprove : ∀ goal ctx room, P _ (prove goal ctx room)) :
    P _ (introduce r prove goal ctx room) := by
  unfold Search.introduce
  split
  · exact hP.of_pure none
  · split
    · exact hP.of_bind (hP.pair hprove) fun o => by cases o <;> exact hP.of_pure _
    · exact hP.of_pure none
  · next f g =>
    split
    · refine hP.of_bind (hprove f ctx room) fun o => ?_
      cases o with
      | some c => exact hP.of_pure _
      | none => exact hP.of_bind (hprove g ctx room) fun o => by cases o <;> exact hP.of_pure _
    · exact hP.of_pure none
  · split
    · exact hP.of_bind (hprove _ _ room) fun o => by cases o <;> exact hP.of_pure _
    · exact hP.of_pure none
  · split
    · refine of_unless hgap (hP.firstOf fun g => ?_)
      exact hP.of_bind (hP.pair hprove) fun o => by cases o <;> exact hP.of_pure _
    · exact hP.of_pure none
  · split
    · refine of_unless hgap ?_
      rw [proveUniversal]
      split
      · exact hP.of_pure none
      · exact hP.attempt (hprove _ ctx room)
    · exact hP.of_pure none
  · split
    · refine of_unless hgap (hP.firstOf fun t => ?_)
      split
      · exact hP.of_pure none
      · exact hP.attempt (hprove _ ctx room)
    · exact hP.of_pure none

/-- A search is made of the trials that take up its goals. -/
theorem proveWithin (hP : Closed P) (hgap : r.gap = false) (htakeUp : P _ (takeUp r)) (n : Nat) :
    ∀ goal ctx room, P _ (proveWithin r n goal ctx room) := by
  induction n with
  | zero => exact fun goal ctx room => hP.of_bind htakeUp fun _ => hP.of_pure _
  | succ n ih =>
    intro goal ctx room
    refine hP.of_bind htakeUp fun _ => ?_
    cases leaf? r goal ctx room with
    | some c => exact hP.of_pure _
    | none =>
      dsimp only
      split
      · exact hP.of_pure none
      · exact hP.introduce hgap ih

end Closed

/-! ### Searches without defects -/

/-- A trial is never broken off by a defect. -/
def Proper (m : Trial α) : Prop := ∀ n d, (m.run.run n).1 ≠ .error (.defect d)

/-- A trial that always goes on. -/
theorem proper_of_ok (h : ∀ n, ∃ a, (m.run.run n).1 = .ok a) : Proper m := by
  intro n d hd
  obtain ⟨a, ha⟩ := h n
  rw [ha] at hd
  exact absurd hd (by simp)

theorem closed_proper : Closed fun _ m => Proper m where
  of_pure a := proper_of_ok fun _ => ⟨a, rfl⟩
  of_bind {α β m k} hm hk := by
    intro n d
    rw [run_bind]
    cases hrun : m.run.run n with
    | mk res n' =>
      cases res with
      | ok a => exact hk a n' d
      | error e =>
        rintro heq
        exact hm n d (by rw [hrun]; exact congrArg Except.error (Except.error.inj heq))

theorem proper_outOfNodes : Proper (throw .outOfNodes : Trial α) := by
  intro n d hd
  exact absurd (Except.error.inj hd) (by simp)

theorem proper_takeUp (h : r.maxNodes ≠ .illTyped) : Proper (takeUp r) := by
  refine closed_proper.of_bind (proper_of_ok fun _ => ⟨_, rfl⟩) fun _ => ?_
  cases hmax : r.maxNodes with
  | illTyped => exact absurd hmax h
  | unbounded => exact closed_proper.of_pure ()
  | upTo k =>
    refine closed_proper.of_bind (proper_of_ok fun _ => ⟨_, rfl⟩) fun l => ?_
    split
    · exact proper_outOfNodes
    · exact closed_proper.of_pure ()

theorem proper_proveWithin (hgap : r.gap = false) (hmax : r.maxNodes ≠ .illTyped) (n : Nat) :
    ∀ goal ctx room, Proper (proveWithin r n goal ctx room) :=
  closed_proper.proveWithin hgap (proper_takeUp hmax) n

/-- Where the depth is no number, a goal has to be closed without a rule. -/
theorem proper_proveTo {depth : Limit} (hgap : r.gap = false) (hmax : r.maxNodes ≠ .illTyped)
    (hdepth : depth = .illTyped → leaf? r goal ctx room ≠ none) :
    Proper (proveTo r depth goal ctx room) := by
  cases depth with
  | upTo d => exact proper_proveWithin hgap hmax _ _ _ _
  | unbounded => exact proper_proveWithin hgap hmax _ _ _ _
  | illTyped =>
    obtain ⟨c, hc⟩ := Option.ne_none_iff_exists'.mp (hdepth rfl)
    refine closed_proper.of_bind (proper_takeUp hmax) fun _ => ?_
    rw [hc]
    exact closed_proper.of_pure _

theorem exists_prove_of_proper {depth : Limit} {premises : List Formula}
    (h : Proper (proveTo r depth goal (Ascending.ofList premises) room)) :
    ∃ u, Search.prove r depth premises goal room = .ok u := by
  rw [Search.prove]
  split
  · exact ⟨_, rfl⟩
  · exact ⟨_, rfl⟩
  · next d _ hrun => exact absurd (by rw [hrun]) (h 0 d)

end DeductionBoard.Search
