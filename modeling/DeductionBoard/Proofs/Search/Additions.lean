import DeductionBoard.Proofs.Derivation.Growth
import DeductionBoard.Search.Placement

/-! Boards that are only added to. Placing a construction adds pieces and fills slots, and it does so
also where it breaks off for want of a cell. What stood on the board before keeps its rule and its
parameters, so an assumption that assumed nothing still does, and it is in violation as it was. -/

namespace DeductionBoard

open DeductionBoard.Derivation

variable {b b' : Board} {i j : PieceId} {p : Piece} {grid : Option Grid}

namespace Board

/-! ### Pieces and wires on top -/

/-- The boards that a board becomes when pieces are added and wired. -/
inductive Enlarged (b : Board) : Board → Prop
  | refl : Enlarged b b
  | add {b' : Board} (kind : RuleKind) (q : Position) (ps : Params) (h : Enlarged b b') :
      Enlarged b (b'.add kind q ps)
  | wire {b' b'' : Board} {i j : PieceId} {n : Int} (h : Enlarged b b') (hw : b'.wire i n j = .ok b'') :
      Enlarged b b''

theorem Enlarged.trans {b'' : Board} (h : b.Enlarged b') (h' : b'.Enlarged b'') : b.Enlarged b'' := by
  induction h' with
  | refl => exact h
  | add kind q ps _ ih => exact .add kind q ps ih
  | wire _ hw ih => exact .wire ih hw

theorem Enlarged.invariant (h : b.Enlarged b') (hwf : b.WellFormed) (hcurrent : b.Current) :
    b'.WellFormed ∧ b'.Current := by
  induction h with
  | refl => exact ⟨hwf, hcurrent⟩
  | add kind q ps _ ih =>
    exact ⟨ih.1.edited (.added kind q ps), ih.2.edited ih.1 (.added kind q ps)⟩
  | wire _ hw ih =>
    have hstep := edited_wire ih.1 hw
    exact ⟨ih.1.edited hstep, ih.2.edited ih.1 hstep⟩

/-- A wire changes neither the rule of a piece nor its parameters. -/
theorem exists_piece?_of_wire {n : Int} {k : PieceId} (h : b.wire i n j = .ok b')
    (hp : b.piece? k = some p) :
    ∃ q, b'.piece? k = some q ∧ q.kind = p.kind ∧ q.params = p.params := by
  unfold wire at h
  split at h
  · exact absurd h (by simp)
  split at h
  · exact absurd h (by simp)
  split at h
  · exact absurd h (by simp)
  split at h
  · exact absurd h (by simp)
  next m _ _ =>
  obtain rfl := Except.ok.inj h
  have hforgets := forgets_forgetIn (i :: (b.setSlot i m (some j)).dependents i)
  have hid : ∀ p : Piece, (if p.id ∈ [i] then { p with slots := p.slots.set m (some j) } else p).id =
      p.id := by
    intro p
    split <;> rfl
  have hset : (b.setSlot i m (some j)).piece? k = _ :=
    (piece?_mapPieces hid).trans (congrArg _ hp)
  refine ⟨_, (piece?_mapPieces hforgets.id).trans (congrArg _ hset), ?_, ?_⟩
  · rw [hforgets.kind]
    dsimp only
    split <;> rfl
  · rw [hforgets.params]
    dsimp only
    split <;> rfl

theorem Enlarged.exists_piece? (h : b.Enlarged b') (hp : b.piece? i = some p) :
    ∃ q, b'.piece? i = some q ∧ q.kind = p.kind ∧ q.params = p.params := by
  induction h with
  | refl => exact ⟨p, hp, rfl, rfl⟩
  | add kind q ps _ ih =>
    obtain ⟨r, hr, hsame⟩ := ih
    exact ⟨r, piece?_extended_of_piece? hr, hsame⟩
  | wire _ hw ih =>
    obtain ⟨r, hr, hkind, hparams⟩ := ih
    obtain ⟨q, hq, hk, hps⟩ := exists_piece?_of_wire hw hr
    exact ⟨q, hq, hk.trans hkind, hps.trans hparams⟩

theorem enlarged_wireAll {n : Nat} {ps : List PieceId} (h : Site.wireAll b i n ps = .ok b') :
    b.Enlarged b' := by
  induction ps generalizing b n with
  | nil =>
    obtain rfl := Except.ok.inj h
    exact .refl
  | cons s r ih =>
    rw [Site.wireAll] at h
    split at h
    · exact absurd h (by simp)
    · next hw => exact (Enlarged.refl.wire hw).trans (ih h)

end Board

namespace Site

variable {s : Site} {a : Attempt} {next : Site → Standing → Attempt}

/-- Whatever an attempt has come to, pieces were added and wired, and nothing else happened. -/
def Enlarges (s : Site) (a : Attempt) : Prop :=
  ∀ s' r, a = .ok (s', r) → s.board.Enlarged s'.board

theorem enlarges_install (s : Site) (kind : RuleKind) (params : Params) (wanted : Cell)
    (ps : List PieceId) : s.Enlarges (s.install grid kind params wanted ps) := by
  intro s' r h
  rw [install] at h
  split at h
  · cases h
    exact .refl
  dsimp only at h
  split at h
  · exact absurd h (by simp)
  · next hw =>
    cases h
    exact (Board.Enlarged.refl.add kind _ params).trans (Board.enlarged_wireAll hw)

theorem Enlarges.andThen (h : s.Enlarges a) (hnext : ∀ (s' : Site) p, s'.Enlarges (next s' p)) :
    s.Enlarges (a.andThen next) := by
  intro t r ht
  rcases a with e | ⟨s', _ | p⟩
  · exact absurd ht (by simp [Attempt.andThen])
  · cases ht
    exact h t none rfl
  · exact (h s' (some p) rfl).trans (hnext s' p t r ht)

theorem enlarges_place (grid : Option Grid) (c : Construction) (s : Site) :
    s.Enlarges (place grid s c) := by
  induction c generalizing s with
  | reused i =>
    intro s' r h
    rw [place] at h
    split at h
    · exact absurd h (by simp)
    split at h
    · exact absurd h (by simp)
    · cases h
      exact .refl
  | assume f =>
    intro s' r h
    rw [place, installLeaf] at h
    exact enlarges_install { s with nextRow := s.nextRow + 1 } _ _ _ _ s' r h
  | both l r ihl ihr =>
    exact (ihl s).andThen fun s p => (ihr s).andThen fun s q => enlarges_install s _ _ _ _
  | leftOf d _ ih => exact (ih s).andThen fun s p => enlarges_install s _ _ _ _
  | rightOf _ d ih => exact (ih s).andThen fun s p => enlarges_install s _ _ _ _
  | implies _ d ih => exact (ih s).andThen fun s p => enlarges_install s _ _ _ _
  | refute _ d e ihd ihe =>
    exact (ihd s).andThen fun s p => (ihe s).andThen fun s q => enlarges_install s _ _ _ _
  | quantify _ _ _ _ d ih => exact (ih s).andThen fun s p => enlarges_install s _ _ _ _

end Site

namespace Board

/-- Building only adds pieces and wires. -/
theorem enlarged_build {c : Construction} {built : Built} (h : b.build grid c = .ok built) :
    b.Enlarged built.board := by
  rw [build] at h
  split at h
  swap
  · exact absurd h (by simp)
  cases ha : (Site.ofBoard b).place grid c with
  | error e =>
    rw [ha] at h
    exact absurd h (by simp [complete])
  | ok t =>
    obtain ⟨s, _ | root⟩ := t
    · rw [ha] at h
      cases h
      exact Site.enlarges_place grid c (.ofBoard b) s none ha
    · have hplaced : b.Enlarged s.board := Site.enlarges_place grid c (.ofBoard b) s (some root) ha
      rw [ha, complete, finish] at h
      split at h
      · split at h
        · exact absurd h (by simp)
        · next hw =>
          cases h
          exact hplaced.wire hw
      split at h
      · cases h
        exact hplaced
      · split at h
        · exact absurd h (by simp)
        · next hw =>
          cases h
          exact (hplaced.add .goal _ Params.empty).wire hw

end Board

namespace Board

/-! ### Assumptions of nothing -/

/-- An assumption without a formula. -/
def Blank (b : Board) (i : PieceId) : Prop :=
  ∃ p, b.piece? i = some p ∧ p.kind = .assumption ∧ p.params.formula = none

theorem Enlarged.blank (h : b.Enlarged b') (hi : b.Blank i) : b'.Blank i := by
  obtain ⟨p, hp, hk, hf⟩ := hi
  obtain ⟨q, hq, hkind, hparams⟩ := h.exists_piece? hp
  exact ⟨q, hq, hkind.trans hk, hparams ▸ hf⟩

/-- No board makes up for the formula that is missing. -/
theorem Blank.status?_statuses (hi : b.Blank i) (hwf : b.WellFormed) (hcurrent : b.Current) :
    b.statuses.status? i = some (.violated ⟨some i, .missingParameter .assumption "formula"⟩) := by
  obtain ⟨p, hp, hk, hf⟩ := hi
  have hslots : p.slots = [] := by
    rw [← List.length_eq_zero_iff, hwf.arity i p hp, hk]
    rfl
  have hcomplete : p.isComplete = true := by
    rw [Piece.isComplete, Piece.missing, hslots]
    rfl
  have hpremises : p.premises = [] := by simp [Piece.premises, hslots]
  rw [hcurrent.status?_statuses hwf hp, statusOf, hcomplete, hpremises]
  simp [Context.apply, hk, Context.assumption, hf, Context.missing, Context.flawed, id_of_piece? hp]

end Board

end DeductionBoard
