import DeductionBoard.Proofs.Formula.Prefixes

/-! Where the fault of a text is. Any text can be cut off behind one of its tokens and go on in
another way, and what stands in front is still cut into the same tokens. Main result: the fault of a
text that is no formula is at its first wrong token: the tokens before it are those that some
formula begins with, and no formula begins with them and that token. -/

namespace DeductionBoard

open Text
open Token (Kind)

namespace Token

variable {s r w z : List Char} {c : Char} {k : Kind} {n p : Nat} {ts us vs : List Token} {t : Token}

/-! ### Texts that are cut off -/

/-- What stands behind a lexeme is of no account, except that a word may go on there. -/
theorem exists_append_of_lexeme? (h : lexeme? s = some (k, n)) :
    ∃ w r, s = w ++ r ∧ w.length = n ∧
      ∀ z, (EndsWord r → EndsWord z) → lexeme? (w ++ z) = some (k, n) := by
  obtain ⟨hstarts, hlength⟩ := startsWith_of_lexeme? h
  generalize s.take n = w at hstarts hlength
  subst hlength
  cases hstarts with
  | word hw hr => exact ⟨_, _, rfl, rfl, fun z hz => lexeme?_word hw (hz hr)⟩
  | sign hsign => exact ⟨_, _, rfl, rfl, fun z _ => lexeme?_sign_append _ hsign z⟩

/-- Where a word ends, it ends also if a text that is cut off behind it goes on with a blank. -/
theorem EndsWord.of_prefix (h : EndsWord r) (hw : w <+: r) (z : List Char) :
    EndsWord (w ++ ' ' :: z) := by
  cases w with
  | nil => exact Formula.endsWord_space z
  | cons c w =>
    obtain ⟨r', rfl⟩ := hw
    exact fun d hd => h d hd

/-- Behind these tokens, which are its first ones, a text can be cut off and go on with a blank. -/
def Cuts (p : Nat) (s : List Char) (us : List Token) : Prop :=
  ∃ w, w <+: s ∧ ∀ z, ∃ q, scanFrom p (w ++ ' ' :: z) = (scanFrom q (' ' :: z)).map (us ++ ·)

theorem cuts_nil (p : Nat) (s : List Char) : Cuts p s [] :=
  ⟨[], List.nil_prefix, fun z => ⟨p, by cases h : scanFrom p (' ' :: z) <;> simp [h, Except.map]⟩⟩

theorem Cuts.blank (h : Cuts (p + 1) r us) (hc : isBlank c = true) : Cuts p (c :: r) us := by
  obtain ⟨w, hw, hcut⟩ := h
  refine ⟨c :: w, List.cons_prefix_cons.mpr ⟨rfl, hw⟩, fun z => ?_⟩
  rw [List.cons_append, scanFrom_blank hc]
  exact hcut z

theorem Cuts.lexeme (h : Cuts (p + n) ((c :: r).drop n) us) (hc : isBlank c = false)
    (hl : lexeme? (c :: r) = some (k, n)) :
    Cuts p (c :: r) (⟨k, String.ofList ((c :: r).take n), p⟩ :: us) := by
  obtain ⟨w, hw, hcut⟩ := h
  obtain ⟨v, r', heq, rfl, hlexeme⟩ := exists_append_of_lexeme? hl
  obtain ⟨d, v, rfl⟩ := List.exists_cons_of_length_pos (lexeme?_pos hl)
  rw [List.cons_append] at heq
  obtain ⟨rfl, rfl⟩ := List.cons.inj heq
  have hdrop : ∀ z, (c :: (v ++ z)).drop (c :: v).length = z := fun _ => List.drop_left
  have htake : ∀ z, (c :: (v ++ z)).take (c :: v).length = c :: v := fun _ => List.take_left
  rw [hdrop] at hw
  refine ⟨c :: v ++ w, (List.prefix_append_right_inj (c :: v)).mpr hw, fun z => ?_⟩
  obtain ⟨q, hq⟩ := hcut z
  have hnext : lexeme? (c :: (v ++ (w ++ ' ' :: z))) = some (k, (c :: v).length) :=
    hlexeme _ fun hends => hends.of_prefix hw z
  refine ⟨q, ?_⟩
  rw [List.cons_append, List.cons_append, List.append_assoc, scanFrom_lexeme hc hnext, hdrop, htake,
    hq, htake]
  cases scanFrom q (' ' :: z) <;> rfl

/-- A text can be cut off behind each of its tokens. -/
theorem cuts_of_scanFrom (h : scanFrom p s = .ok (us ++ t :: vs)) : Cuts p s us := by
  generalize hts : us ++ t :: vs = ts at h
  refine scanFrom_rec (motive := fun p s ts => ∀ us, us ++ t :: vs = ts → Cuts p s us) h ?_ ?_ ?_
    us hts
  · intro p us hts
    cases us with
    | nil => exact cuts_nil p []
    | cons u us => simp at hts
  · exact fun hc ih us hts => (ih us hts).blank hc
  · intro p c r k n ts hc hl ih us hts
    cases us with
    | nil => exact cuts_nil p _
    | cons u us =>
      obtain ⟨rfl, hrest⟩ := List.cons.inj hts
      exact (ih us hrest).lexeme hc hl

/-! ### Completions in writing -/

/-- A letter that is a lexeme of this kind, for the kinds that completions are made of. -/
def letter : Kind → Char
  | .and => '&'
  | .dot => '.'
  | .closing => ')'
  | _ => 'x'

def spelling (ks : List Kind) : List Char := ks.flatMap fun k => [' ', letter k]

def spelledKinds : List Kind := [.identifier, .and, .dot, .closing]

theorem lexeme?_letter (hk : k ∈ spelledKinds) (hz : EndsWord z) :
    lexeme? (letter k :: z) = some (k, 1) := by
  simp only [spelledKinds, List.mem_cons, List.not_mem_nil, or_false] at hk
  rcases hk with rfl | rfl | rfl | rfl
  · have hword := takeWhile_append_of_endsWord (w := []) (by simp) hz
    rw [List.nil_append] at hword
    rw [letter, lexeme?, if_pos (by decide), hword]
    · rfl
    all_goals decide
  · exact lexeme?_sign_append (['&'], .and) (by decide) z
  · exact lexeme?_sign_append (['.'], .dot) (by decide) z
  · exact lexeme?_sign_append ([')'], .closing) (by decide) z

theorem isBlank_letter (k : Kind) : isBlank (letter k) = false := by
  cases k <;> decide

theorem endsWord_spelling (ks : List Kind) : EndsWord (spelling ks) := by
  cases ks with
  | nil => exact fun c hc => absurd hc (by simp [spelling])
  | cons k ks => exact Formula.endsWord_space _

theorem exists_scanFrom_spelling {ks : List Kind} (hks : ∀ k ∈ ks, k ∈ spelledKinds) (p : Nat) :
    ∃ ts, scanFrom p (spelling ks) = .ok ts ∧ Parser.kinds ts = ks ++ [.endOfText] := by
  induction ks generalizing p with
  | nil => exact ⟨_, scanFrom_nil p, rfl⟩
  | cons k ks ih =>
    obtain ⟨hk, hks⟩ := List.forall_mem_cons.mp hks
    obtain ⟨ts, hts, hkinds⟩ := ih hks (p + 1 + 1)
    refine ⟨⟨k, String.ofList [letter k], p + 1⟩ :: ts, ?_, congrArg (k :: ·) hkinds⟩
    rw [show spelling (k :: ks) = ' ' :: letter k :: spelling ks from rfl,
      scanFrom_blank (by decide),
      scanFrom_letter (isBlank_letter k) (lexeme?_letter hk (endsWord_spelling ks)), hts]
    rfl

theorem endsInk_spelling {ks : List Kind} (h : ks ≠ []) : Formula.EndsInk (spelling ks) := by
  induction ks with
  | nil => exact absurd rfl h
  | cons k ks ih =>
    cases ks with
    | nil => exact ⟨[' '], letter k, rfl, isBlank_letter k⟩
    | cons k' ks => exact (ih (by simp)).append_left [' ', letter k]

/-- The mark at the end of a text is where the text ends. -/
theorem position_of_endOfText (h : scanFrom p s = .ok ts) :
    ∀ t ∈ ts, t.kind = .endOfText → t.position = p + s.length := by
  refine scanFrom_rec (motive := fun p s ts => ∀ t ∈ ts, t.kind = .endOfText →
    t.position = p + s.length) h ?_ ?_ ?_
  · simp
  · intro p c r ts _ ih t ht hkind
    rw [ih t ht hkind, List.length_cons]
    omega
  · intro p c r k n ts _ hl ih
    rw [List.forall_mem_cons]
    refine ⟨fun hkind => absurd hkind (kind_ne_endOfText hl), fun t ht hkind => ?_⟩
    obtain ⟨w, r', heq, rfl, -⟩ := exists_append_of_lexeme? hl
    rw [ih t ht hkind, heq, List.drop_left, List.length_append]
    omega

end Token

namespace Formula

open DeductionBoard.Parser

variable {s : String} {ts us vs : List Token} {t : Token} {e : SyntaxError} {stage : Stage}

theorem mem_spelledKinds_of_completion (stage : Stage) :
    ∀ k ∈ stage.completion, k ∈ Token.spelledKinds := by
  have hdemand : ∀ k ∈ stage.demand.completion, k ∈ Token.spelledKinds := by
    cases stage.demand <;> decide
  intro k hk
  rcases List.mem_append.mp hk with hk | hk
  · exact hdemand k hk
  · rw [List.eq_of_mem_replicate hk]
    decide

theorem completion_ne_nil (h : stage.demand ≠ .nothing) : stage.completion ≠ [] := by
  refine List.append_ne_nil_of_left_ne_nil ?_ _
  cases hdemand : stage.demand with
  | nothing => exact absurd hdemand h
  | _ => exact List.cons_ne_nil _ _

/-- The tokens that a text begins with are completed in another text, if they are taken. -/
theorem exists_parse_of_isBeginning (h : Token.scan s.toList = .ok (us ++ t :: vs))
    (hus : IsBeginning us) :
    ∃ (s' : String) (ws : List Token) (f : Formula),
      Token.scan s'.toList = .ok (us ++ ws) ∧ parse s' = .ok f := by
  obtain ⟨stage, hrun, hdemand⟩ := hus
  obtain ⟨w, -, hcut⟩ := Token.cuts_of_scanFrom h
  have hne := completion_ne_nil hdemand
  obtain ⟨k, ks, hks⟩ := List.exists_cons_of_ne_nil hne
  obtain ⟨q, hq⟩ := hcut (Token.letter k :: Token.spelling ks)
  obtain ⟨ws, hws, hkinds⟩ :=
    Token.exists_scanFrom_spelling (mem_spelledKinds_of_completion stage) q
  have hink : EndsInk (w ++ Token.spelling stage.completion) :=
    (Token.endsInk_spelling hne).append_left w
  have hscan : Token.scan (w ++ Token.spelling stage.completion) = .ok (us ++ ws) := by
    rw [Token.scan, hink.trimRight_eq, hks]
    refine hq.trans ?_
    rw [hks] at hws
    exact congrArg (Except.map (us ++ ·)) hws
  obtain ⟨f, hf⟩ : ∃ f, formula (us ++ ws) = .ok f := by
    refine exists_formula_of_run ?_
    rw [kinds_append, Stage.run_append_of_some hrun, hkinds, Stage.run_completion hdemand]
  refine ⟨String.ofList (w ++ Token.spelling stage.completion), ws, f, ?_, ?_⟩
  · rw [String.toList_ofList, hscan]
  · refine parse_of_scan ?_ ?_ hf
    · rw [String.toList_ofList]
      exact hink.trim_ne_nil
    · rw [String.toList_ofList, hscan]

/-- The fault of a text is that of its tokens, if it is cut into tokens. -/
theorem exists_stop_of_parse (hscan : Token.scan s.toList = .ok ts) (h : parse s = .error e) :
    ∃ stop, formula ts = .error stop ∧ e.position = stop.position := by
  rw [parse] at h
  split at h
  · next hblank =>
    obtain rfl := Except.error.inj h
    rw [Token.scan, trimRight_eq_nil_iff.mpr (trim_eq_nil_iff.mp (List.isEmpty_iff.mp hblank)),
      Token.scanFrom_nil] at hscan
    obtain rfl := Except.ok.inj hscan
    exact ⟨⟨.expected .formula "", 0⟩, by cbv, rfl⟩
  · rw [hscan] at h
    dsimp only at h
    split at h
    · next stop hstop =>
      obtain rfl := Except.error.inj h
      exact ⟨stop, hstop, rfl⟩
    · exact absurd h (by simp)

/-- Where a text is cut into tokens and is no formula, its fault is at the first wrong token, which
may be the mark at its end. The tokens before it are the first tokens of a text that is a formula,
and no list of tokens of which the first ones are of the same kinds, that token included, is a
formula. -/
theorem fault_at_first_wrong_token (hscan : Token.scan s.toList = .ok ts) (h : parse s = .error e) :
    ∃ before t after, ts = before ++ t :: after ∧ e.position = t.position ∧
      (t.kind = .endOfText → t.position = (trimRight s.toList).length) ∧
      (∃ (s' : String) (us : List Token) (f : Formula),
        Token.scan s'.toList = .ok (before ++ us) ∧ parse s' = .ok f) ∧
      ∀ us f, kinds (before ++ [t]) <+: kinds us → Parser.formula us ≠ .ok f := by
  obtain ⟨stop, hstop, hposition⟩ := exists_stop_of_parse hscan h
  obtain ⟨us, mark, hts, -, hmark⟩ := Token.exists_append_of_scan hscan
  obtain ⟨before, t, after, rfl, hfault, hbeginning, hnever⟩ :=
    exists_fault_of_formula hstop ⟨us, mark, hts, hmark⟩
  refine ⟨before, t, after, rfl, hposition.trans hfault, fun hkind => ?_,
    exists_parse_of_isBeginning hscan hbeginning, hnever⟩
  have hend := Token.position_of_endOfText hscan t (by simp) hkind
  rwa [Nat.zero_add] at hend

/-- Inside parentheses a conjunction is left unfinished; what comes behind is of no account. -/
theorem fault_at_first_wrong_token_unfinished :
    let ts : List Token := [⟨.opening, "(", 0⟩, ⟨.identifier, "P", 1⟩, ⟨.and, "∧", 2⟩,
      ⟨.closing, ")", 3⟩, ⟨.closing, ")", 4⟩, ⟨.endOfText, "", 5⟩]
    Token.scan "(P∧))".toList = .ok ts ∧
      parse "(P∧))" = .error ⟨.expected .formula ")", "(P∧))", 3⟩ ∧
      ∃ before t after, ts = before ++ t :: after ∧ t.position = 3 ∧
        (∃ (s' : String) (us : List Token) (f : Formula),
          Token.scan s'.toList = .ok (before ++ us) ∧ parse s' = .ok f) ∧
        ∀ us f, kinds (before ++ [t]) <+: kinds us → Parser.formula us ≠ .ok f := by
  intro ts
  have hscan : Token.scan "(P∧))".toList = .ok ts := by
    have htrim : trimRight "(P∧))".toList = ['(', 'P', '∧', ')', ')'] := by decide_cbv
    rw [Token.scan, htrim, Token.scanFrom_letter (k := .opening) (by decide) (by decide),
      Token.scanFrom_letter (k := .identifier) (by decide) (by decide),
      Token.scanFrom_letter (k := .and) (by decide) (by decide),
      Token.scanFrom_letter (k := .closing) (by decide) (by decide),
      Token.scanFrom_letter (k := .closing) (by decide) (by decide), Token.scanFrom_nil]
    rfl
  have hparse : parse "(P∧))" = .error ⟨.expected .formula ")", "(P∧))", 3⟩ := by
    have hblank : ¬ (trim "(P∧))".toList).isEmpty = true := by decide_cbv
    have hformula : formula ts = .error ⟨.expected .formula ")", 3⟩ := by decide_cbv
    rw [parse, if_neg hblank, hscan]
    dsimp only
    rw [hformula]
  obtain ⟨before, t, after, hts, hposition, -, hviable, hnever⟩ :=
    fault_at_first_wrong_token hscan hparse
  exact ⟨hscan, hparse, before, t, after, hts, hposition.symm, hviable, hnever⟩

end Formula

end DeductionBoard
