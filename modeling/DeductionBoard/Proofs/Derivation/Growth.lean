import DeductionBoard.Proofs.Derivation.Incremental

/-! Boards that grow. On a healthy board no piece breaks its rule and every rule can be applied. A piece
that derives something keeps the board healthy when it is added on top of others, and so does one that
is wired into the goal; what the other pieces derive stays as it was. -/

namespace DeductionBoard

open DeductionBoard.Derivation Relation

variable {b b' b'' : Board} {i j k : PieceId} {p : Piece} {d : Conclusion} {ds : List Conclusion}
  {goal : Option PieceId} {n : Nat}

/-! ### Rules with texts for names -/

/-- The term of a quantifier with a text for its variable is a text. -/
theorem Params.TextNames.abstracted {ps : Params} {v : String} (h : ps.TextNames)
    (hv : ps.variableName = .text v) : ∃ t, ps.abstracted = .text t := by
  rw [Params.abstracted]
  split
  · next hholds =>
    rcases h.2 with ht | ht
    · simp [ht, Value.holds] at hholds
    · exact ht
  · exact ⟨v, hv⟩

/-- Texts are never of the wrong kind for a quantifier. -/
theorem Params.TextNames.isIllTyped {c : Context} (h : c.piece.params.TextNames) (q : Quantifier)
    (d : Conclusion) : c.isIllTyped q d = false := by
  rw [Context.isIllTyped]
  rcases h.1 with hv | ⟨v, hv⟩
  · simp [hv, Value.holds]
  · obtain ⟨t, hterm⟩ := h.abstracted hv
    rw [hv, hterm]
    simp only [Context.isNameable?]
    split
    · rfl
    · split <;> first | rfl | simp_all

theorem Params.TextNames.isDefective (h : p.params.TextNames) (b : Board) (s : Statuses) :
    isDefective b p s = false := by
  have hill : ∀ q d, (Context.mk b p).isIllTyped q d = false := fun q d =>
    isIllTyped (c := ⟨b, p⟩) h q d
  have hdefective : ∀ ds, (Context.mk b p).isDefective ds = false := by
    intro ds
    unfold Context.isDefective
    split
    · exact hill _ _
    · exact hill _ _
    · rfl
  rw [Derivation.isDefective, hdefective, Bool.and_false]

namespace Board

/-- Cached statuses are current, no piece breaks its rule, and every rule can be applied. -/
structure Healthy (b : Board) : Prop where
  wellFormed : b.WellFormed
  current : b.Current
  unviolated : ∀ i v, b.statuses.status? i ≠ some (.violated v)
  applicable : ∀ i p, b.piece? i = some p → isDefective b p b.statuses = false

theorem Healthy.status?_statuses (h : b.Healthy) (hp : b.piece? i = some p) :
    b.statuses.status? i = some (statusOf b p b.statuses) :=
  h.current.status?_statuses h.wellFormed hp

theorem Healthy.mem_ids (h : b.Healthy) (hd : b.statuses.conclusion? i = some d) : i ∈ b.ids :=
  mem_ids_of_status? h.wellFormed (Statuses.conclusion?_eq_some_iff.mp hd)

/-- The open assumptions of a piece are pieces themselves, each with a formula. -/
theorem Healthy.exists_assumed (h : b.Healthy) (hd : b.statuses.conclusion? i = some d)
    {a : PieceId} (ha : a ∈ d.assumptions) : a ∈ b.ids ∧ ∃ f, b.assumed? a = some f := by
  obtain ⟨q, f, hq, -, hf⟩ := exists_assumption h.wellFormed (fun i p hp => h.status?_statuses hp)
    (h.mem_ids hd) hd ha
  refine ⟨mem_ids_of_piece? hq, f, ?_⟩
  rw [Board.assumed?, hq]
  exact hf

theorem Healthy.mem_ids_of_open (h : b.Healthy) (hd : b.statuses.conclusion? i = some d)
    {a : PieceId} (ha : a ∈ d.assumptions) : a ∈ b.ids :=
  (h.exists_assumed hd ha).1

/-- The second board has the pieces of the first, and these derive the same on it. -/
structure Grows (b b' : Board) : Prop where
  piece : ∀ i p, b.piece? i = some p → b'.piece? i = some p
  status : ∀ i ∈ b.ids, b'.statuses.status? i = b.statuses.status? i
  target : b'.target = b.target
  premises : b'.premises = b.premises

theorem Grows.refl (b : Board) : b.Grows b :=
  ⟨fun _ _ hp => hp, fun _ _ => rfl, rfl, rfl⟩

theorem Grows.mem_ids (h : b.Grows b') (hi : i ∈ b.ids) : i ∈ b'.ids := by
  obtain ⟨p, hp⟩ := exists_piece? hi
  exact mem_ids_of_piece? (h.piece i p hp)

theorem Grows.trans (h : b.Grows b') (h' : b'.Grows b'') : b.Grows b'' where
  piece i p hp := h'.piece i p (h.piece i p hp)
  status i hi := by rw [h'.status i (h.mem_ids hi), h.status i hi]
  target := by rw [h'.target, h.target]
  premises := by rw [h'.premises, h.premises]

theorem Grows.assumed? (h : b.Grows b') (hi : i ∈ b.ids) : b'.assumed? i = b.assumed? i := by
  obtain ⟨p, hp⟩ := exists_piece? hi
  rw [Board.assumed?, Board.assumed?, hp, h.piece i p hp]

theorem Grows.conclusion? (h : b.Grows b') (hb : b.Healthy)
    (hd : b.statuses.conclusion? i = some d) : b'.statuses.conclusion? i = some d := by
  rw [Statuses.conclusion?_congr (h.status i (hb.mem_ids hd)), hd]

/-! ### A piece on top of others -/

theorem grows_extended (h : b.Healthy) (hp : b.Accepts p goal) (hcache : p.cache = none) (n : Nat) :
    b.Grows (b.extended p goal n) where
  piece _ _ hq := piece?_extended_of_piece? hq
  status := (h.current.extended h.wellFormed hp hcache n).2
  target := rfl
  premises := rfl

/-- The status of a new piece is the one it has on the board below it. -/
theorem status?_extended (h : b.Healthy) (hp : b.Accepts p goal) (hcache : p.cache = none)
    (n : Nat) :
    (b.extended p goal n).statuses.status? p.id = some (statusOf b p b.statuses) := by
  have hgrows := grows_extended h hp hcache n
  obtain ⟨hcurrent, hagree⟩ := h.current.extended h.wellFormed hp hcache n
  rw [hcurrent.status?_statuses (h.wellFormed.extended hp n) (piece?_extended_self h.wellFormed hp)]
  have hpremises : ∀ j ∈ p.premises, j ∈ b.ids := fun j hj => hp.wired j (mem_premises.mp hj)
  refine congrArg some (statusOf_congr (.refl p) (fun j hj => ?_) fun j hj d hd a ha => ?_)
  · exact Statuses.conclusion?_congr (hagree j (hpremises j hj))
  · exact hgrows.assumed? (h.mem_ids_of_open hd ha)

theorem isDefective_extended (h : b.Healthy) (hp : b.Accepts p goal) (hcache : p.cache = none)
    (n : Nat) {q : Piece} (hq : b.piece? i = some q) :
    isDefective (b.extended p goal n) q (b.extended p goal n).statuses = false := by
  rw [← h.applicable i q hq]
  refine isDefective_congr (.refl q) fun j hj => Statuses.conclusion?_congr ?_
  exact (grows_extended h hp hcache n).status j
    (h.wellFormed.wired j i (feeds_of_mem_premises hq hj))

/-- A piece that breaks no rule, and whose rule can be applied, keeps the board healthy. -/
theorem Healthy.extended_of_unviolated (h : b.Healthy) (hp : b.Accepts p goal)
    (hcache : p.cache = none) (hstatus : ∀ v, statusOf b p b.statuses ≠ .violated v)
    (happlicable : isDefective b p b.statuses = false) (n : Nat) :
    (b.extended p goal n).Healthy := by
  have hnew := status?_extended h hp hcache n
  have hgrows := grows_extended h hp hcache n
  refine ⟨h.wellFormed.extended hp n, (h.current.extended h.wellFormed hp hcache n).1, ?_, ?_⟩
  · intro i v hi
    have hmem := mem_ids_of_status? (h.wellFormed.extended hp n) hi
    rw [ids_extended, List.mem_append, List.mem_singleton] at hmem
    rcases hmem with hmem | rfl
    · exact h.unviolated i v (hgrows.status i hmem ▸ hi)
    · rw [hnew] at hi
      exact hstatus v (Option.some.inj hi)
  · intro i q hq
    rw [piece?_extended] at hq
    rcases Option.or_eq_some_iff.mp hq with hq | ⟨-, hq⟩
    · exact isDefective_extended h hp hcache n hq
    · split at hq
      · obtain rfl := Option.some.inj hq
        rw [← happlicable]
        refine isDefective_congr (.refl p) fun j hj => Statuses.conclusion?_congr ?_
        exact hgrows.status j (hp.wired j (mem_premises.mp hj))
      · exact absurd hq (by simp)

/-- A piece that derives something, with texts for its names, keeps the board healthy. -/
theorem Healthy.extended (h : b.Healthy) (hp : b.Accepts p goal) (hcache : p.cache = none)
    (hnames : p.params.TextNames) (hstatus : statusOf b p b.statuses = d.status) (n : Nat) :
    (b.extended p goal n).Healthy ∧
      (b.extended p goal n).statuses.conclusion? p.id = some d := by
  have hunviolated : ∀ v, statusOf b p b.statuses ≠ .violated v := by
    intro v
    rw [hstatus]
    exact fun hv => nomatch hv
  refine ⟨h.extended_of_unviolated hp hcache hunviolated (hnames.isDefective b b.statuses) n, ?_⟩
  rw [Statuses.conclusion?_eq_some_iff, status?_extended h hp hcache n, hstatus]

/-- An assumption derives its formula from itself. -/
theorem statusOf_assumption {p : Piece} {f : Formula} (hk : p.kind = .assumption)
    (hslots : p.slots = []) (hf : p.params.formula = some f) (s : Statuses) :
    statusOf b p s = Conclusion.status ⟨f, [p.id]⟩ := by
  refine statusOf_eq_status_iff.mpr ⟨?_, ?_, .assumption hk hf⟩
  · rw [Piece.isComplete, Piece.missing, hslots]
    rfl
  · simp [Piece.premises, hslots]

/-- A piece with empty slots keeps the board healthy, unless it is an assumption of nothing. -/
theorem Healthy.add (h : b.Healthy) (kind : RuleKind) (position : Position) (params : Params)
    (hformula : kind = .assumption → params.formula.isSome = true) :
    (b.add kind position params).Healthy := by
  have haccepts := accepts_fresh b kind position params
  refine h.extended_of_unviolated haccepts rfl (fun v hv => ?_) ?_ (b.revision + 1)
  · by_cases hkind : kind = .assumption
    · obtain ⟨f, hf⟩ := Option.isSome_iff_exists.mp (hformula hkind)
      rw [statusOf_assumption hkind (by rw [hkind]; rfl) hf] at hv
      cases hv
    · have hincomplete : (Piece.fresh b.nextId kind position params).isComplete = false := by
        cases kind <;> first | rfl | exact absurd rfl hkind
      rw [statusOf, hincomplete, if_pos Bool.false_ne_true] at hv
      cases hv
  · cases kind <;> rfl

/-! ### A piece wired into the goal -/

/-- A piece without consumers is alone in depending on itself once a slot of it is filled. -/
theorem reflTransGen_rewire_iff (hidle : ∀ k, ¬ b.Feeds i k) (hji : j ≠ i) :
    ReflTransGen (b.rewire i n (some j)).Feeds i k ↔ k = i := by
  constructor
  · intro h
    rcases ReflTransGen.cases_head h with rfl | ⟨l, hl, -⟩
    · rfl
    · rw [feeds_rewire] at hl
      rcases hl.of_setSlot with hl | ⟨hj, -⟩
      · exact absurd hl (hidle l)
      · exact absurd (Option.some.inj hj) hji
  · rintro rfl
    exact .refl

theorem edited_rewire (hidle : ∀ k, ¬ b.Feeds i k) (hj : j ∈ b.ids) (hji : j ≠ i) :
    Edited b (b.rewire i n (some j)) := by
  refine .rewired i n (some j) fun l hl => ?_
  obtain rfl := Option.some.inj hl
  refine ⟨hj, hji, fun hij => ?_⟩
  obtain ⟨l, hl, -⟩ := TransGen.head'_iff.mp hij
  exact hidle l hl

/-- A piece with one slot and without consumers is wired. -/
theorem wire_eq_rewire (h : b.WellFormed) (hp : b.piece? i = some p) (harity : p.kind.arity = 1)
    (hidle : ∀ k, ¬ b.Feeds i k) (hj : j ∈ b.ids) (hji : j ≠ i) :
    b.wire i 0 j = .ok (b.rewire i 0 (some j)) := by
  have hi := contains_iff.mpr (mem_ids_of_piece? hp)
  have hslot : b.slot? i 0 = .ok (p, 0) := by
    rw [slot?, hp]
    simp [harity]
  have hcycle : ¬ (j = i ∨ i ∈ b.dependencies j) := by
    rw [mem_dependencies h.nodup h.wired]
    rintro (hji' | hij)
    · exact hji hji'
    · obtain ⟨l, hl, -⟩ := TransGen.head'_iff.mp hij
      exact hidle l hl
  rw [wire, if_neg (not_not.mpr hi), if_neg (not_not.mpr (contains_iff.mpr hj)), hslot]
  dsimp only
  rw [if_neg hcycle]
  rfl

theorem piece?_rewire_self (hp : b.piece? i = some p) (harity : p.slots.length = 1) :
    (b.rewire i 0 (some j)).piece? i =
      some { p with slots := [some j], cache := none } := by
  show ((b.setSlot i 0 (some j)).forgetFrom i).piece? i = _
  rw [forgetFrom_eq, piece?_mapPieces (forgets_forgetIn _).id, piece?_setSlot, hp, Option.map_some,
    Option.map_some]
  have hid := id_of_piece? hp
  obtain ⟨s, hs⟩ := List.length_eq_one_iff.mp harity
  rw [if_pos (by simp [hid]), forgetIn, if_pos (by simp [hid]), hs]
  rfl

theorem assumed?_mapPieces {f : Piece → Piece} (hid : ∀ p, (f p).id = p.id)
    (hparams : ∀ p, (f p).params = p.params) : (b.mapPieces f).assumed? i = b.assumed? i := by
  rw [assumed?, assumed?, piece?_mapPieces hid]
  cases b.piece? i with
  | none => rfl
  | some p => exact congrArg Params.formula (hparams p)

theorem assumed?_rewire : (b.rewire i n (some j)).assumed? k = b.assumed? k :=
  (assumed?_mapPieces (forgets_forgetIn _).id (forgets_forgetIn _).params).trans
    (assumed?_mapPieces (fun p => by split <;> rfl) fun p => by split <;> rfl)

/-- The goal piece derives what is wired into it, and the board stays healthy. -/
theorem Healthy.rewire (h : b.Healthy) (hp : b.piece? i = some p) (hk : p.kind = .goal)
    (hidle : ∀ k, ¬ b.Feeds i k) (hji : j ≠ i) (hd : b.statuses.conclusion? j = some d) :
    (b.rewire i 0 (some j)).Healthy ∧
      (b.rewire i 0 (some j)).statuses.conclusion? i = some d ∧
      ∀ k ∈ b.ids, k ≠ i →
        (b.rewire i 0 (some j)).statuses.status? k = b.statuses.status? k := by
  have hj := h.mem_ids hd
  have hwf := h.wellFormed.edited (edited_rewire (n := 0) hidle hj hji)
  obtain ⟨hcurrent, hagree⟩ := h.current.rewire h.wellFormed hwf
  have hagree : ∀ k ∈ b.ids, k ≠ i →
      (b.rewire i 0 (some j)).statuses.status? k = b.statuses.status? k := by
    intro k hk hki
    exact hagree k hk fun hik => hki ((reflTransGen_rewire_iff hidle hji).mp hik)
  have harity : p.slots.length = 1 := by rw [h.wellFormed.arity i p hp, hk]; rfl
  have hself := piece?_rewire_self (j := j) hp harity
  have hgoal : (b.rewire i 0 (some j)).statuses.conclusion? i = some d := by
    rw [Statuses.conclusion?_eq_some_iff, hcurrent.status?_statuses hwf hself, Option.some.injEq]
    have hpremise : (b.rewire i 0 (some j)).statuses.conclusion? j = some d := by
      rw [Statuses.conclusion?_congr (hagree j hj hji), hd]
    have hlist : [j].filterMap (b.rewire i 0 (some j)).statuses.conclusion? = [d] := by
      rw [List.filterMap_cons_some hpremise, List.filterMap_nil]
    refine statusOf_eq_status_iff.mpr ⟨rfl, fun k hk => ?_, ?_⟩
    · rw [List.mem_singleton.mp hk, hpremise]
      rfl
    · show Context.Derives _ ([j].filterMap _) d
      rw [hlist]
      exact .goal hk
  have hids : ∀ k ∈ (b.rewire i 0 (some j)).ids, k ∈ b.ids := by
    intro k hk
    obtain ⟨q, hq⟩ := exists_piece? hk
    by_cases hki : k = i
    · exact hki ▸ mem_ids_of_piece? hp
    · exact mem_ids_of_piece? ((piece?_rewire h.wellFormed.nodup hq).2 fun hik =>
        hki ((reflTransGen_rewire_iff hidle hji).mp hik))
  refine ⟨⟨hwf, hcurrent, fun k v hk => ?_, fun k q hq => ?_⟩, hgoal, hagree⟩
  · by_cases hki : k = i
    · rw [hki, Statuses.conclusion?_eq_some_iff.mp hgoal] at hk
      exact absurd hk (by simp [Conclusion.status])
    · have hmem := hids k (mem_ids_of_status? hwf hk)
      exact h.unviolated k v (hagree k hmem hki ▸ hk)
  · by_cases hki : k = i
    · rw [hki] at hq
      obtain rfl := Option.some.inj (hself.symm.trans hq)
      simp [isDefective, Context.isDefective, hk]
    · have hold := (piece?_rewire h.wellFormed.nodup hq).2 fun hik =>
        hki ((reflTransGen_rewire_iff hidle hji).mp hik)
      rw [← h.applicable k q hold]
      refine isDefective_congr (.refl q) fun l hl => Statuses.conclusion?_congr ?_
      have hlk := feeds_of_mem_premises hold hl
      exact hagree l (h.wellFormed.wired l k hlk) fun hli => hidle k (hli ▸ hlk)

end Board

end DeductionBoard
