import DeductionBoard.Proofs.Derivation.Growth
import DeductionBoard.Proofs.Search.Backward
import DeductionBoard.Search.Placement

/-! Constructions on a board. Each node of a construction that follows the rules becomes a piece that
derives the formula of the node from pieces that assume the open formulas of the node, and what
stands on the board already derives the same as before. Only a grid without a free cell can keep a
construction from its place. -/

namespace DeductionBoard

open DeductionBoard.Derivation Relation

variable {b b' : Board} {i j : PieceId} {p : Piece} {d : Conclusion} {goal : Option PieceId} {n : Nat}

namespace Construction

theorem textNames_params (c : Construction) : c.params.TextNames := by
  cases c with
  | quantify q v term body p =>
    refine ⟨.inr ⟨v, rfl⟩, ?_⟩
    cases term with
    | none => exact .inl rfl
    | some t => exact .inr ⟨t, rfl⟩
  | _ => exact ⟨.inl rfl, .inl rfl⟩

theorem kind_ne_goal (c : Construction) (hnew : c.piece? = none) : c.kind ≠ .goal := by
  cases c with
  | reused => exact absurd hnew (by simp [piece?])
  | quantify q => cases q <;> simp [kind, quantifierKind]
  | _ => simp [kind]

/-- A new node has as many premises as its rule has slots. -/
theorem length_premises (c : Construction) (hnew : c.piece? = none) :
    c.premises.length = c.kind.arity := by
  cases c with
  | reused => exact absurd hnew (by simp [piece?])
  | quantify q => cases q <;> rfl
  | _ => rfl

end Construction

/-! ### Wires of a new piece -/

namespace Board

theorem forget_of_cache_eq_none {p : Piece} (h : p.cache = none) : p.forget = p := by
  cases p
  simp_all [Piece.forget]

/-- A change of the last piece leaves the others alone. -/
theorem update_extended (h : ∀ q ∈ b.pieces, q.id ≠ p.id) (f : Piece → Piece) :
    (b.extended p goal n).update [p.id] f = b.extended (f p) goal n := by
  have hold : (b.pieces.map fun q => if q.id ∈ [p.id] then f q else q) = b.pieces := by
    refine (List.map_congr_left fun q hq => ?_).trans (List.map_id _)
    rw [if_neg fun hmem => h q hq (List.mem_singleton.mp hmem)]
    rfl
  rw [update, extended, extended]
  dsimp only
  rw [List.map_append, hold, List.map_cons, List.map_nil, if_pos List.mem_cons_self]

/-- The last piece can be wired to any other. -/
theorem wire_extended (h : b.WellFormed) (hp : b.Accepts p goal) (hcache : p.cache = none) {m : Nat}
    (hm : m < p.kind.arity) (hj : j ∈ b.ids) :
    (b.extended p goal n).wire p.id m j =
      .ok (b.extended { p with slots := p.slots.set m (some j) } goal (n + 1)) := by
  have hwf := h.extended hp n
  have hself := piece?_extended_self (n := n) h hp
  have hji : j ≠ p.id := by
    rintro rfl
    exact h.nextId_notMem (hp.id ▸ hj)
  have hidle : ∀ k, ¬ (b.extended p goal n).Feeds p.id k := fun k hk =>
    h.nextId_notMem (hp.id ▸ hk.mem_ids_of_extended h hp)
  have hj' : j ∈ (b.extended p goal n).ids := by
    rw [ids_extended]
    exact List.mem_append_left _ hj
  have hslot : (b.extended p goal n).slot? p.id m = .ok (p, m) := by
    rw [slot?, hself]
    simp [hm]
  have hcycle : ¬ (j = p.id ∨ p.id ∈ (b.extended p goal n).dependencies j) := by
    rw [mem_dependencies hwf.nodup hwf.wired]
    rintro (hji' | hij)
    · exact hji hji'
    · obtain ⟨l, hl, -⟩ := TransGen.head'_iff.mp hij
      exact hidle l hl
  -- nothing depends on the piece, and it has nothing to forget
  have hdependents : ((b.extended p goal n).setSlot p.id m (some j)).dependents p.id = [] := by
    refine List.eq_nil_iff_forall_not_mem.mpr fun k hk => ?_
    have hids : ((b.extended p goal n).setSlot p.id m (some j)).ids.Nodup := by
      rw [show ((b.extended p goal n).setSlot p.id m (some j)).ids = (b.extended p goal n).ids from
        ids_mapPieces fun q => by split <;> rfl]
      exact hwf.nodup
    obtain ⟨l, hl, -⟩ := TransGen.head'_iff.mp ((mem_dependents hids).mp hk)
    rcases hl.of_setSlot with hl | ⟨hjp, -⟩
    · exact hidle l hl
    · exact hji (Option.some.inj hjp)
  have hother : ∀ q ∈ b.pieces, q.id ≠ p.id := by
    intro q hq hqp
    refine h.nextId_notMem (hp.id ▸ hqp ▸ ?_)
    exact List.mem_map_of_mem hq
  have hset : (b.extended p goal n).setSlot p.id m (some j) =
      b.extended { p with slots := p.slots.set m (some j) } goal n :=
    update_extended hother _
  have hforget : (b.extended { p with slots := p.slots.set m (some j) } goal n).update [p.id]
      Piece.forget = b.extended { p with slots := p.slots.set m (some j) } goal n := by
    refine (update_extended (p := { p with slots := p.slots.set m (some j) }) hother _).trans ?_
    exact congrArg (fun q => b.extended q goal n) (forget_of_cache_eq_none hcache)
  rw [wire, if_neg (not_not.mpr (contains_iff.mpr (mem_ids_of_piece? hself))),
    if_neg (not_not.mpr (contains_iff.mpr hj')), hslot]
  dsimp only
  rw [if_neg hcycle, forgetFrom, hdependents, hset, hforget]
  rfl

/-- The new piece with some of its slots filled from the left. -/
def partlyWired (p : Piece) (wired : List PieceId) (empty : Nat) : Piece :=
  { p with slots := wired.map some ++ List.replicate empty none }

theorem set_partlyWired (wired : List PieceId) (empty : Nat) (j : PieceId) :
    (wired.map some ++ List.replicate (empty + 1) none).set wired.length (some j) =
      (wired ++ [j]).map some ++ List.replicate empty none := by
  have hlength : wired.length = (wired.map some).length := by rw [List.length_map]
  rw [hlength, List.set_append_right _ _ (Nat.le_refl _), Nat.sub_self, List.replicate_succ,
    List.set_cons_zero, List.map_append, List.append_assoc]
  rfl

theorem accepts_partlyWired {wired : List PieceId} {empty : Nat} (hid : p.id = b.nextId)
    (harity : wired.length + empty = p.kind.arity) (hwired : ∀ j ∈ wired, j ∈ b.ids)
    (hgoal : goal = b.goal ∨ goal = some b.nextId ∧ p.kind = .goal) :
    b.Accepts (partlyWired p wired empty) goal where
  id := hid
  arity := by simpa [partlyWired] using harity
  wired j hj := by
    refine hwired j ?_
    simpa [partlyWired] using hj
  goal := hgoal

/-- All slots of a new piece are filled, one after the other. -/
theorem wireAll_extended (h : b.WellFormed) (hid : p.id = b.nextId) (hcache : p.cache = none)
    (hgoal : goal = b.goal ∨ goal = some b.nextId ∧ p.kind = .goal) (ps : List PieceId)
    (hps : ∀ j ∈ ps, j ∈ b.ids) (wired : List PieceId) (hwired : ∀ j ∈ wired, j ∈ b.ids)
    (harity : wired.length + ps.length = p.kind.arity) (n : Nat) :
    Site.wireAll (b.extended (partlyWired p wired ps.length) goal n) p.id wired.length ps =
      .ok (b.extended (partlyWired p (wired ++ ps) 0) goal (n + ps.length)) := by
  induction ps generalizing wired n with
  | nil =>
    rw [List.append_nil]
    rfl
  | cons j ps ih =>
    have hj := hps j List.mem_cons_self
    have haccepts : b.Accepts (partlyWired p wired (j :: ps).length) goal :=
      accepts_partlyWired hid harity hwired hgoal
    have hslot : wired.length < p.kind.arity := by
      rw [← harity, List.length_cons]
      omega
    have hwire := wire_extended (n := n) h haccepts hcache hslot hj
    have hset : { partlyWired p wired (j :: ps).length with
        slots := (partlyWired p wired (j :: ps).length).slots.set wired.length (some j) } =
        partlyWired p (wired ++ [j]) ps.length :=
      congrArg (fun slots => { p with slots := slots }) (set_partlyWired wired ps.length j)
    rw [hset] at hwire
    have hwired' : ∀ i ∈ wired ++ [j], i ∈ b.ids := by
      intro i hi
      rcases List.mem_append.mp hi with hi | hi
      · exact hwired i hi
      · exact List.mem_singleton.mp hi ▸ hj
    have hrest := ih (fun i hi => hps i (List.mem_cons_of_mem _ hi)) (wired ++ [j]) hwired'
      (by rw [← harity]; simp; omega) (n + 1)
    rw [Site.wireAll, show (partlyWired p wired (j :: ps).length).id = p.id from rfl] at *
    rw [hwire]
    dsimp only
    rw [List.length_append, List.length_singleton] at hrest
    rw [hrest, List.append_assoc, List.length_cons, Nat.add_assoc, Nat.add_comm 1]
    rfl

/-- The piece that a rule becomes on top of premises. -/
def pieceOn (b : Board) (kind : RuleKind) (position : Position) (params : Params)
    (ps : List PieceId) : Piece :=
  ⟨b.nextId, kind, position, params, ps.map some, none⟩

theorem accepts_pieceOn {kind : RuleKind} {position : Position} {params : Params}
    {ps : List PieceId} (hps : ∀ j ∈ ps, j ∈ b.ids) (harity : ps.length = kind.arity)
    (hgoal : goal = b.goal ∨ goal = some b.nextId ∧ kind = .goal) :
    b.Accepts (b.pieceOn kind position params ps) goal where
  id := rfl
  arity := by simpa [pieceOn] using harity
  wired j hj := hps j (by simpa [pieceOn] using hj)
  goal := hgoal

/-- Adding a piece and wiring its premises puts the wired piece on the board. -/
theorem exists_wireAll_add (h : b.WellFormed) (kind : RuleKind) (position : Position)
    (params : Params) {ps : List PieceId} (hps : ∀ j ∈ ps, j ∈ b.ids)
    (harity : ps.length = kind.arity) :
    ∃ n, Site.wireAll (b.add kind position params) b.nextId 0 ps =
      .ok (b.extended (b.pieceOn kind position params ps)
        (if kind = .goal ∧ b.goal = none then some b.nextId else b.goal) n) := by
  have haccepts := accepts_fresh b kind position params
  have hwire := wireAll_extended (p := b.pieceOn kind position params []) h rfl rfl haccepts.goal ps
    hps [] (by simp) (by rw [List.length_nil, Nat.zero_add]; exact harity) (b.revision + 1)
  have hempty : partlyWired (b.pieceOn kind position params []) [] ps.length =
      .fresh b.nextId kind position params := by
    rw [harity]
    rfl
  have hfull : partlyWired (b.pieceOn kind position params []) ([] ++ ps) 0 =
      b.pieceOn kind position params ps := by
    simp [partlyWired, pieceOn]
  rw [hempty, hfull] at hwire
  exact ⟨_, hwire⟩

/-- A new node is wired on top of its premises. -/
theorem exists_wireAll_node (h : b.WellFormed) {c : Construction} (hnew : c.piece? = none)
    {ps : List PieceId} (hps : ∀ j ∈ ps, j ∈ b.ids) (harity : ps.length = c.kind.arity)
    (position : Position) :
    ∃ n, Site.wireAll (b.add c.kind position c.params) b.nextId 0 ps =
      .ok (b.extended (b.pieceOn c.kind position c.params ps) b.goal n) := by
  obtain ⟨n, hn⟩ := exists_wireAll_add h c.kind position c.params hps harity
  rw [if_neg fun hgoal => c.kind_ne_goal hnew hgoal.1] at hn
  exact ⟨n, hn⟩

/-- A goal is put on the board and wired to a piece. -/
theorem exists_wire_add_goal (h : b.WellFormed) (hgoal : b.goal = none) (hi : i ∈ b.ids)
    (position : Position) :
    ∃ n, (b.add .goal position Params.empty).wire b.nextId 0 i =
      .ok (b.extended (b.pieceOn .goal position Params.empty [i]) (some b.nextId) n) := by
  obtain ⟨n, hn⟩ := exists_wireAll_add h .goal position Params.empty
    (List.forall_mem_singleton.mpr hi) rfl
  rw [if_pos ⟨rfl, hgoal⟩, Site.wireAll] at hn
  split at hn
  · exact absurd hn (by simp)
  · next b' hb' => exact ⟨n, hb'.trans hn⟩

/-! ### Boards that can be built on -/

/-- A piece that can be a premise. -/
structure Usable (b : Board) (i : PieceId) : Prop where
  mem : i ∈ b.ids
  ne_goal : b.goal ≠ some i

/-- A board whose goal is wired into no piece. -/
structure Extensible (b : Board) : Prop where
  wellFormed : b.WellFormed
  idle : ∀ g, b.goal = some g → ∀ k, ¬ b.Feeds g k

theorem WellFormed.goal_ne_nextId (h : b.WellFormed) : b.goal ≠ some b.nextId := by
  intro hgoal
  obtain ⟨p, hp, -⟩ := h.goal b.nextId hgoal
  exact h.nextId_notMem (mem_ids_of_piece? hp)

theorem Usable.extended (h : b.Usable i) (n : Nat) : (b.extended p b.goal n).Usable i where
  mem := by
    rw [ids_extended]
    exact List.mem_append_left _ h.mem
  ne_goal := h.ne_goal

section OnTop

variable {kind : RuleKind} {position : Position} {params : Params} {ps : List PieceId}

/-- A piece on top of others leaves the goal idle. -/
theorem Extensible.extended (hb : b.Extensible) (hps : ∀ j ∈ ps, b.Usable j)
    (harity : ps.length = kind.arity) (n : Nat) :
    (b.extended (b.pieceOn kind position params ps) b.goal n).Extensible := by
  have haccepts : b.Accepts (b.pieceOn kind position params ps) b.goal :=
    accepts_pieceOn (fun j hj => (hps j hj).mem) harity (.inl rfl)
  refine ⟨hb.wellFormed.extended haccepts n, fun g hg k hk => ?_⟩
  have hg : b.goal = some g := hg
  rcases (feeds_extended hb.wellFormed haccepts).mp hk with hk | ⟨-, hk⟩
  · exact hb.idle g hg k hk
  · exact (hps g (by simpa [pieceOn] using hk)).ne_goal hg

theorem WellFormed.usable_pieceOn (h : b.WellFormed) (n : Nat) :
    (b.extended (b.pieceOn kind position params ps) b.goal n).Usable b.nextId where
  mem := by
    rw [ids_extended]
    exact List.mem_append_right _ (List.mem_singleton.mpr rfl)
  ne_goal := h.goal_ne_nextId

end OnTop

/-! ### What stands for a construction -/

/-- The formulas are those that the assumptions of a list assume. -/
def OpenFormulas (b : Board) (open_ : List PieceId) (fs : List Formula) : Prop :=
  ∀ g, g ∈ fs ↔ ∃ a ∈ open_, b.assumed? a = some g

/-- A piece other than the goal that derives a formula and leaves some formulas open. -/
def Stands (b : Board) (i : PieceId) (f : Formula) (fs : List Formula) : Prop :=
  b.goal ≠ some i ∧ ∃ open_, b.statuses.conclusion? i = some ⟨f, open_⟩ ∧ b.OpenFormulas open_ fs

theorem OpenFormulas.grow {open_ : List PieceId} {fs : List Formula} (h : b.OpenFormulas open_ fs)
    (hgrows : b.Grows b') (hopen : ∀ a ∈ open_, a ∈ b.ids) : b'.OpenFormulas open_ fs := by
  intro g
  rw [h g]
  constructor
  · rintro ⟨a, ha, hg⟩
    exact ⟨a, ha, by rw [hgrows.assumed? (hopen a ha), hg]⟩
  · rintro ⟨a, ha, hg⟩
    exact ⟨a, ha, by rw [← hgrows.assumed? (hopen a ha), hg]⟩

theorem Stands.grow {f : Formula} {fs : List Formula} (h : b.Stands i f fs) (hb : b.Healthy)
    (hgrows : b.Grows b') (hgoal : b'.goal = b.goal) : b'.Stands i f fs := by
  obtain ⟨hne, open_, hconclusion, hopen⟩ := h
  refine ⟨hgoal ▸ hne, open_, hgrows.conclusion? hb hconclusion, hopen.grow hgrows fun a ha => ?_⟩
  exact hb.mem_ids_of_open hconclusion ha

theorem OpenFormulas.union {s t : List PieceId} {fs gs : List Formula} (hs : b.OpenFormulas s fs)
    (ht : b.OpenFormulas t gs) :
    b.OpenFormulas (Ascending.union s t) (Ascending.union fs gs) := by
  intro g
  rw [Ascending.mem_union, hs g, ht g]
  constructor
  · rintro (⟨a, ha, hg⟩ | ⟨a, ha, hg⟩)
    · exact ⟨a, Ascending.mem_union.mpr (.inl ha), hg⟩
    · exact ⟨a, Ascending.mem_union.mpr (.inr ha), hg⟩
  · rintro ⟨a, ha, hg⟩
    rcases Ascending.mem_union.mp ha with ha | ha
    · exact .inl ⟨a, ha, hg⟩
    · exact .inr ⟨a, ha, hg⟩

/-- Discharging an assumption closes its formula and no other. -/
theorem OpenFormulas.discharge {s : List PieceId} {fs : List Formula} (h : b.OpenFormulas s fs)
    (f : Formula) :
    b.OpenFormulas (s.filter fun a => b.assumed? a ≠ some f) (fs.filter (· ≠ f)) := by
  intro g
  rw [List.mem_filter, h g]
  constructor
  · rintro ⟨⟨a, ha, hg⟩, hne⟩
    refine ⟨a, List.mem_filter.mpr ⟨ha, ?_⟩, hg⟩
    rw [decide_eq_true_eq] at hne ⊢
    rw [hg]
    exact fun heq => hne (Option.some.inj heq)
  · rintro ⟨a, ha, hg⟩
    obtain ⟨ha, hne⟩ := List.mem_filter.mp ha
    refine ⟨⟨a, ha, hg⟩, ?_⟩
    rw [decide_eq_true_eq] at hne ⊢
    rintro rfl
    exact hne hg

/-- Premises that derive something. -/
abbrev Premises (b : Board) : List PieceId → List Conclusion → Prop :=
  List.Forall₂ fun j d => b.statuses.conclusion? j = some d

variable {kind : RuleKind} {params : Params} {ps : List PieceId} {ds : List Conclusion}
  {f g : Formula} {fs : List Formula}

theorem Premises.filterMap (h : Premises b ps ds) : ps.filterMap b.statuses.conclusion? = ds := by
  induction h with
  | nil => rfl
  | cons hd _ ih => rw [List.filterMap_cons_some hd, ih]

theorem Premises.exists_conclusion (h : Premises b ps ds) :
    ∀ j ∈ ps, ∃ d, b.statuses.conclusion? j = some d := by
  induction h with
  | nil => simp
  | @cons j d ps ds hd _ ih =>
    intro k hk
    rcases List.mem_cons.mp hk with rfl | hk
    · exact ⟨d, hd⟩
    · exact ih k hk

theorem isComplete_pieceOn (b : Board) (position : Position) :
    (b.pieceOn kind position params ps).isComplete = true := by
  have hmissing : ∀ n, ((ps.map some).zipIdx n).filter (fun e => e.1.isNone) = [] := by
    intro n
    refine List.filter_eq_nil_iff.mpr fun e he => ?_
    obtain ⟨j, -, hj⟩ := List.mem_map.mp (List.fst_mem_of_mem_zipIdx he)
    simp [← hj]
  rw [Piece.isComplete, Piece.missing, Board.pieceOn, hmissing]
  rfl

theorem premises_pieceOn (b : Board) (position : Position) :
    (b.pieceOn kind position params ps).premises = ps := by
  simp [Piece.premises, Board.pieceOn]

theorem statusOf_pieceOn {position : Position} (hps : Premises b ps ds)
    (hd : Context.Derives ⟨b, b.pieceOn kind position params ps⟩ ds d) :
    statusOf b (b.pieceOn kind position params ps) b.statuses = d.status := by
  refine statusOf_eq_status_iff.mpr ⟨isComplete_pieceOn _ _, fun j hj => ?_, ?_⟩
  · rw [premises_pieceOn] at hj
    obtain ⟨e, he⟩ := hps.exists_conclusion j hj
    rw [he]
    rfl
  · rw [premises_pieceOn, hps.filterMap]
    exact hd

/-! ### One node of a construction -/

/-- Pieces that stand for constructions, in their order. -/
abbrev Bears (b : Board) : List Construction → List PieceId → Prop :=
  List.Forall₂ fun c i => b.Stands i c.formula c.assumptions

theorem Bears.usable {cs : List Construction} (h : b.Bears cs ps) (hb : b.Healthy) :
    ∀ j ∈ ps, b.Usable j := by
  induction h with
  | nil => simp
  | cons hstands _ ih =>
    obtain ⟨hne, open_, hconclusion, -⟩ := hstands
    exact List.forall_mem_cons.mpr ⟨⟨hb.mem_ids hconclusion, hne⟩, ih⟩

theorem Bears.mem_ids {cs : List Construction} (h : b.Bears cs ps) (hb : b.Healthy) :
    ∀ j ∈ ps, j ∈ b.ids := fun j hj => (h.usable hb j hj).mem

/-- What the rule of a node derives from premises. Once the piece of the node stands on the board,
the open formulas are those of the node. -/
structure Concludes (b : Board) (c : Construction) (ps : List PieceId) (ds : List Conclusion)
    (d : Conclusion) : Prop where
  premises : Premises b ps ds
  formula : d.formula = c.formula
  derives : ∀ position, Context.Derives ⟨b, b.pieceOn c.kind position c.params ps⟩ ds d
  open_ : ∀ b', b.Grows b' → b'.assumed? b.nextId = c.params.formula →
    b'.OpenFormulas d.assumptions c.assumptions

theorem abstracted_params (q : Quantifier) (v : String) (term : Option String) (body : Formula)
    (c : Construction) (ht : isUsableName (term.getD v) = true) :
    (Construction.quantify q v term body c).params.abstracted = .text (term.getD v) := by
  cases term with
  | none => rfl
  | some t =>
    have hholds : Value.holds (.text t) = true := Context.holds_of_usable ht
    exact if_pos hholds

theorem Bears.one {p : Construction} (h : b.Bears [p] ps) : ∃ i open_, ps = [i] ∧
    b.statuses.conclusion? i = some ⟨p.formula, open_⟩ ∧ b.OpenFormulas open_ p.assumptions := by
  cases h with
  | cons hp hps =>
  cases hps
  obtain ⟨-, open_, hp, hopen⟩ := hp
  exact ⟨_, open_, rfl, hp, hopen⟩

theorem Bears.two {p q : Construction} (h : b.Bears [p, q] ps) : ∃ i j openp openq, ps = [i, j] ∧
    b.statuses.conclusion? i = some ⟨p.formula, openp⟩ ∧ b.OpenFormulas openp p.assumptions ∧
    b.statuses.conclusion? j = some ⟨q.formula, openq⟩ ∧ b.OpenFormulas openq q.assumptions := by
  cases h with
  | cons hp hps =>
  obtain ⟨j, openq, rfl, hq, hopenq⟩ := Bears.one hps
  obtain ⟨-, openp, hp, hopenp⟩ := hp
  exact ⟨_, j, openp, openq, rfl, hp, hopenp, hq, hopenq⟩

/-- A rule with one premise. -/
theorem concludes_of_one {c : Construction} {open_ : List PieceId} (hb : b.Healthy)
    (hp : b.statuses.conclusion? i = some ⟨f, open_⟩) (hformula : d.formula = c.formula)
    (hd : ∀ position, Context.Derives ⟨b, b.pieceOn c.kind position c.params [i]⟩ [⟨f, open_⟩] d)
    (hsub : ∀ a ∈ d.assumptions, a ∈ open_) (hopen : b.OpenFormulas d.assumptions c.assumptions) :
    b.Concludes c [i] [⟨f, open_⟩] d where
  premises := .cons hp .nil
  formula := hformula
  derives := hd
  open_ _ hgrows _ := hopen.grow hgrows fun a ha => hb.mem_ids_of_open hp (hsub a ha)

/-- A rule with two premises. -/
theorem concludes_of_two {c : Construction} {open_ open' : List PieceId} (hb : b.Healthy)
    (hp : b.statuses.conclusion? i = some ⟨f, open_⟩)
    (hp' : b.statuses.conclusion? j = some ⟨g, open'⟩) (hformula : d.formula = c.formula)
    (hd : ∀ position, Context.Derives ⟨b, b.pieceOn c.kind position c.params [i, j]⟩
      [⟨f, open_⟩, ⟨g, open'⟩] d)
    (hsub : ∀ a ∈ d.assumptions, a ∈ open_ ∨ a ∈ open')
    (hopen : b.OpenFormulas d.assumptions c.assumptions) :
    b.Concludes c [i, j] [⟨f, open_⟩, ⟨g, open'⟩] d where
  premises := .cons hp (.cons hp' .nil)
  formula := hformula
  derives := hd
  open_ _ hgrows _ := by
    refine hopen.grow hgrows fun a ha => ?_
    rcases hsub a ha with ha | ha
    · exact hb.mem_ids_of_open hp ha
    · exact hb.mem_ids_of_open hp' ha

/-- A node that follows its rule concludes its formula from pieces that stand for its premises. -/
theorem exists_concludes {known : PieceId → Formula → List Formula → Prop} {c : Construction}
    (hb : b.Healthy) (hc : c.Sound known) (hnew : c.piece? = none) (hps : b.Bears c.premises ps) :
    ∃ ds d, b.Concludes c ps ds d := by
  cases hc with
  | reused h => exact absurd hnew (by simp [Construction.piece?])
  | assume f =>
    obtain rfl := List.forall₂_nil_left_iff.mp hps
    refine ⟨[], ⟨f, [b.nextId]⟩, .nil, rfl, fun _ => .assumption rfl rfl, fun b' _ hself g => ?_⟩
    simp [hself, Construction.params, eq_comm, Construction.assumptions]
  | @both l r _ _ =>
    obtain ⟨i, j, openl, openr, rfl, hl, hopenl, hr, hopenr⟩ := Bears.two hps
    exact ⟨_, _, concludes_of_two (c := .both l r) hb hl hr rfl (fun _ => .conjunction rfl)
      (fun a ha => Ascending.mem_union.mp ha) (hopenl.union hopenr)⟩
  | @leftOf p other _ =>
    obtain ⟨i, open_, rfl, hp, hopen⟩ := Bears.one hps
    exact ⟨_, _, concludes_of_one (c := .leftOf p other) hb hp rfl
      (fun _ => .disjunctionLeft rfl rfl rfl) (fun a ha => ha) hopen⟩
  | @rightOf p other _ =>
    obtain ⟨i, open_, rfl, hp, hopen⟩ := Bears.one hps
    exact ⟨_, _, concludes_of_one (c := .rightOf other p) hb hp rfl
      (fun _ => .disjunctionRight rfl rfl rfl) (fun a ha => ha) hopen⟩
  | @implies p h _ =>
    obtain ⟨i, open_, rfl, hp, hopen⟩ := Bears.one hps
    exact ⟨_, _, concludes_of_one (c := .implies h p)
      (d := ⟨.imp h p.formula, open_.filter fun a => b.assumed? a ≠ some h⟩) hb hp rfl
      (fun _ => .implication rfl rfl) (fun a ha => List.mem_of_mem_filter ha)
      (hopen.discharge h)⟩
  | @refute p r h _ _ hneg =>
    obtain ⟨i, j, openp, openr, rfl, hp, hopenp, hr, hopenr⟩ := Bears.two hps
    exact ⟨_, _, concludes_of_two (c := .refute h p r)
      (d := ⟨.neg h, (Ascending.union openp openr).filter fun a => b.assumed? a ≠ some h⟩)
      hb hp hr rfl (fun _ => .negation rfl rfl hneg)
      (fun a ha => Ascending.mem_union.mp (List.mem_of_mem_filter ha))
      ((hopenp.union hopenr).discharge h)⟩
  | @quantify q v term body p _ huv hut hfree hbody hapart =>
    obtain ⟨i, open_, rfl, hp, hopen⟩ := Bears.one hps
    refine ⟨_, _, concludes_of_one (d := ⟨.quantified q v body, open_⟩)
      (c := .quantify q v term body p) hb hp rfl (fun _ => ?_) (fun a ha => ha) hopen⟩
    refine .quantification rfl (by cases q <;> rfl) (abstracted_params q v term body p hut) huv hut
      hfree hbody fun a ha f hf => hapart f ((hopen f).mpr ⟨a, ha, hf⟩)

/-- A node that follows its rule can be put on top of pieces that stand for its premises, at every
position. The new piece stands for the node, and the others derive what they did. -/
theorem Healthy.exists_node {known : PieceId → Formula → List Formula → Prop} {c : Construction}
    (hb : b.Healthy) (hc : c.Sound known) (hnew : c.piece? = none) (hps : b.Bears c.premises ps)
    (position : Position) :
    ∃ b' n, b' = b.extended (b.pieceOn c.kind position c.params ps) b.goal n ∧
      Site.wireAll (b.add c.kind position c.params) b.nextId 0 ps = .ok b' ∧ b'.Healthy ∧
      b.Grows b' ∧ b'.Stands b.nextId c.formula c.assumptions := by
  have hwf := hb.wellFormed
  obtain ⟨ds, d, hd⟩ := exists_concludes hb hc hnew hps
  have harity : ps.length = c.kind.arity := hps.length_eq.symm.trans (c.length_premises hnew)
  have hmem := hps.mem_ids hb
  obtain ⟨n, hn⟩ := exists_wireAll_node hwf hnew hmem harity position
  have haccepts : b.Accepts (b.pieceOn c.kind position c.params ps) b.goal :=
    accepts_pieceOn hmem harity (.inl rfl)
  have hstatus := statusOf_pieceOn hd.premises (hd.derives position)
  obtain ⟨hhealthy, hconclusion⟩ := hb.extended haccepts rfl c.textNames_params hstatus n
  have hgrows := grows_extended hb haccepts rfl n
  refine ⟨_, n, rfl, hn, hhealthy, hgrows, hwf.goal_ne_nextId, d.assumptions,
    hd.formula ▸ hconclusion, hd.open_ _ hgrows ?_⟩
  have hself := piece?_extended_self (n := n) hwf haccepts
  have hid : (b.pieceOn c.kind position c.params ps).id = b.nextId := rfl
  rw [hid] at hself
  rw [assumed?, hself]
  rfl

/-- A board on which nothing is wrong, and whose goal is wired into no piece. -/
structure Ready (b : Board) : Prop where
  healthy : b.Healthy
  idle : ∀ g, b.goal = some g → ∀ k, ¬ b.Feeds g k

theorem Ready.extensible (hb : b.Ready) : b.Extensible := ⟨hb.healthy.wellFormed, hb.idle⟩

/-- A node on top of other pieces leaves the goal idle. -/
theorem exists_node {known : PieceId → Formula → List Formula → Prop} {c : Construction}
    (hb : b.Ready) (hc : c.Sound known) (hnew : c.piece? = none) (hps : b.Bears c.premises ps)
    (position : Position) :
    ∃ b', Site.wireAll (b.add c.kind position c.params) b.nextId 0 ps = .ok b' ∧ b'.Ready ∧
      b.Grows b' ∧ b'.goal = b.goal ∧ b'.Stands b.nextId c.formula c.assumptions := by
  have harity : ps.length = c.kind.arity := hps.length_eq.symm.trans (c.length_premises hnew)
  obtain ⟨b', n, rfl, hwire, hhealthy, hgrows, hstands⟩ :=
    hb.healthy.exists_node hc hnew hps position
  exact ⟨_, hwire, ⟨hhealthy, (hb.extensible.extended (hps.usable hb.healthy) harity n).idle⟩,
    hgrows, rfl, hstands⟩

end Board

namespace Site

variable {s : Site} {wanted : Cell} {ps : List PieceId} {grid : Option Grid} {f g : Formula}
  {fs gs : List Formula} {a : Attempt} {next : Site → Standing → Attempt}

/-! ### Whole constructions -/

/-- What an attempt has to come to, if every piece finds a cell: nothing is wrong on the site, what
stood there stands there still, and a new piece stands for the formula with its open formulas. -/
def Reaches (s : Site) (grid : Option Grid) (a : Attempt) (f : Formula) (fs : List Formula) : Prop :=
  (grid.isSome ∧ ∃ s', a = .ok (s', none)) ∨
    ∃ s' cell i, a = .ok (s', some ⟨cell, i⟩) ∧ s'.board.Ready ∧ s.board.Grows s'.board ∧
      s'.board.goal = s.board.goal ∧ s'.board.Stands i f fs

theorem reaches_install {known : PieceId → Formula → List Formula → Prop} {c : Construction}
    (hs : s.board.Ready) (hc : c.Sound known) (hnew : c.piece? = none)
    (hps : s.board.Bears c.premises ps) :
    s.Reaches grid (s.install grid c.kind c.params wanted ps) c.formula c.assumptions := by
  rw [install]
  cases hcell : freeCell grid s.occupied wanted with
  | none =>
    refine .inl ⟨?_, s, rfl⟩
    cases grid with
    | none => exact absurd hcell (by simp [freeCell])
    | some g => rfl
  | some cell =>
    obtain ⟨b', hwire, hready, hgrows, hgoal, hstands⟩ := Board.exists_node hs hc hnew hps (.cell cell)
    refine .inr ⟨⟨b', cell :: s.occupied, s.nextRow⟩, cell, s.board.nextId, ?_, hready, hgrows, hgoal,
      hstands⟩
    dsimp only
    rw [hwire]

theorem Reaches.andThen (h : s.Reaches grid a f fs)
    (hnext : ∀ (s' : Site) cell i, s'.board.Ready → s.board.Grows s'.board →
      s'.board.goal = s.board.goal → s'.board.Stands i f fs →
        s'.Reaches grid (next s' ⟨cell, i⟩) g gs) :
    s.Reaches grid (a.andThen next) g gs := by
  rcases h with ⟨hgrid, s', rfl⟩ | ⟨s', cell, i, rfl, hready, hgrows, hgoal, hstands⟩
  · exact .inl ⟨hgrid, s', rfl⟩
  rcases hnext s' cell i hready hgrows hgoal hstands with
    ⟨hgrid, t, ht⟩ | ⟨t, cell', j, ha, hready', hgrows', hgoal', hstands'⟩
  · exact .inl ⟨hgrid, t, ht⟩
  · exact .inr ⟨t, cell', j, ha, hready', hgrows.trans hgrows', hgoal'.trans hgoal, hstands'⟩

/-- Every construction that follows the rules fits on a site that has room for its pieces. -/
theorem reaches_place {b : Board} (hb : b.Healthy)
    (hcells : ∀ i p, b.piece? i = some p → ∃ cell, p.position = .cell cell) {c : Construction}
    (hc : c.Sound b.Stands) (s : Site) (hs : s.board.Ready) (hgrows : b.Grows s.board)
    (hgoal : s.board.goal = b.goal) :
    s.Reaches grid (place grid s c) c.formula c.assumptions := by
  induction hc generalizing s with
  | @reused i k f fs h =>
    have hstands := h.grow hb hgrows hgoal
    obtain ⟨-, open_, hconclusion, -⟩ := h
    obtain ⟨p, hp⟩ := Board.exists_piece? (hb.mem_ids hconclusion)
    obtain ⟨cell, hcell⟩ := hcells i p hp
    refine .inr ⟨s, cell, i, ?_, hs, .refl _, rfl, hstands⟩
    rw [place, hgrows.piece i p hp]
    simp only [hcell, Position.cell?]
  | assume f =>
    exact reaches_install (s := { s with nextRow := s.nextRow + 1 }) hs
      (Construction.Sound.assume f : (Construction.assume f).Sound b.Stands) rfl .nil
  | @both l r hl hr ihl ihr =>
    refine (ihl s hs hgrows hgoal).andThen fun s₁ cell i hs₁ hgrows₁ hgoal₁ hi => ?_
    refine (ihr s₁ hs₁ (hgrows.trans hgrows₁) (hgoal₁.trans hgoal)).andThen
      fun s₂ cell' j hs₂ hgrows₂ hgoal₂ hj => ?_
    have hi := hi.grow hs₁.healthy hgrows₂ hgoal₂
    exact reaches_install hs₂ (hl.both hr) rfl (.cons hi (.cons hj .nil))
  | @leftOf p other hp ih =>
    refine (ih s hs hgrows hgoal).andThen fun s₁ cell i hs₁ _ _ hi => ?_
    exact reaches_install hs₁ (hp.leftOf other) rfl (.cons hi .nil)
  | @rightOf p other hp ih =>
    refine (ih s hs hgrows hgoal).andThen fun s₁ cell i hs₁ _ _ hi => ?_
    exact reaches_install hs₁ (hp.rightOf other) rfl (.cons hi .nil)
  | @implies p h hp ih =>
    refine (ih s hs hgrows hgoal).andThen fun s₁ cell i hs₁ _ _ hi => ?_
    exact reaches_install hs₁ (hp.implies h) rfl (.cons hi .nil)
  | @refute p r h hp hr hneg ihp ihr =>
    refine (ihp s hs hgrows hgoal).andThen fun s₁ cell i hs₁ hgrows₁ hgoal₁ hi => ?_
    refine (ihr s₁ hs₁ (hgrows.trans hgrows₁) (hgoal₁.trans hgoal)).andThen
      fun s₂ cell' j hs₂ hgrows₂ hgoal₂ hj => ?_
    have hi := hi.grow hs₁.healthy hgrows₂ hgoal₂
    exact reaches_install hs₂ (.refute h hp hr hneg) rfl (.cons hi (.cons hj .nil))
  | @quantify q v term body p hp huv hut hfree hbody hapart ih =>
    refine (ih s hs hgrows hgoal).andThen fun s₁ cell i hs₁ _ _ hi => ?_
    exact reaches_install hs₁ (.quantify hp huv hut hfree hbody hapart) rfl (.cons hi .nil)

end Site

end DeductionBoard
