import DeductionBoard.Formula.Parser
import DeductionBoard.Proofs.Formula.Name
import DeductionBoard.Query.Symbol
import Mathlib.Data.List.TakeWhile

/-! Scanning printed formulas. The lexemes of a text do not depend on where the text begins; a word
is one lexeme unless it goes on behind it, and every sign that a printer writes is one whatever
follows. Main result: the text of a formula whose names are words is cut into the lexemes of the
formula, and trimming leaves it as it is. -/

namespace DeductionBoard

open Text

namespace Text

variable {s : List Char}

@[simp] theorem trimRight_eq_nil_iff : trimRight s = [] ↔ ∀ c ∈ s, isBlank c = true := by
  simp [trimRight, List.dropWhile_eq_nil_iff]

/-- Nothing is left of a text where all of it is blank. -/
@[simp] theorem trim_eq_nil_iff : trim s = [] ↔ ∀ c ∈ s, isBlank c = true := by
  rw [trim, trimRight_eq_nil_iff, trimLeft]
  constructor
  · intro h c hc
    rw [← List.takeWhile_append_dropWhile (p := isBlank) (l := s), List.mem_append] at hc
    rcases hc with hc | hc
    · exact List.mem_takeWhile_imp hc
    · exact h c hc
  · exact fun h c hc => h c ((List.dropWhile_sublist _).subset hc)

end Text

namespace Token

/-- A token without its position. -/
abbrev Lexeme := Kind × String

def lexeme (t : Token) : Lexeme := (t.kind, t.text)

/-- The lexemes of a text, the one at its end included. -/
def lexemes? (s : List Char) : Option (List Lexeme) :=
  (scanFrom 0 s).toOption.map (List.map lexeme)

variable {c : Char} {r s w : List Char} {k : Kind} {n : Nat}

@[simp]
theorem scanFrom_nil (p : Nat) : scanFrom p [] = .ok [⟨.endOfText, "", p⟩] := by rw [scanFrom]

theorem scanFrom_blank (h : isBlank c = true) (p : Nat) (r : List Char) :
    scanFrom p (c :: r) = scanFrom (p + 1) r := by
  rw [scanFrom, if_pos h]

theorem scanFrom_lexeme (hc : isBlank c = false) (h : lexeme? (c :: r) = some (k, n)) (p : Nat) :
    scanFrom p (c :: r) = (scanFrom (p + n) ((c :: r).drop n)).map
      (⟨k, String.ofList ((c :: r).take n), p⟩ :: ·) := by
  rw [scanFrom, if_neg (by simp [hc])]
  split
  · next hnone => exact absurd (hnone.symm.trans h) (by simp)
  · next k' n' hsome =>
    obtain ⟨rfl, rfl⟩ := Prod.mk.inj (Option.some.inj (hsome.symm.trans h))
    cases scanFrom (p + n') ((c :: r).drop n') <;> rfl

theorem scanFrom_letter (hc : isBlank c = false) (h : lexeme? (c :: r) = some (k, 1)) (p : Nat) :
    scanFrom p (c :: r) = (scanFrom (p + 1) r).map (⟨k, String.ofList [c], p⟩ :: ·) :=
  scanFrom_lexeme hc h p

theorem scanFrom_none (hc : isBlank c = false) (h : lexeme? (c :: r) = none) (p : Nat) :
    scanFrom p (c :: r) = .error p := by
  rw [scanFrom, if_neg (by simp [hc])]
  split
  · rfl
  · next hsome => exact absurd (hsome.symm.trans h) (by simp)

/-- The tokens of a text come one after another, with blanks between them, and the last one marks its
end. -/
theorem scanFrom_rec {motive : Nat → List Char → List Token → Prop} {p : Nat} {ts : List Token}
    (h : scanFrom p s = .ok ts) (nil : ∀ p, motive p [] [⟨.endOfText, "", p⟩])
    (blank : ∀ {p c r ts}, isBlank c = true → motive (p + 1) r ts → motive p (c :: r) ts)
    (lexeme : ∀ {p c r k n ts}, isBlank c = false → lexeme? (c :: r) = some (k, n) →
      motive (p + n) ((c :: r).drop n) ts →
      motive p (c :: r) (⟨k, String.ofList ((c :: r).take n), p⟩ :: ts)) : motive p s ts := by
  induction hs : s.length using Nat.strongRecOn generalizing s p ts with
  | _ length ih =>
    subst hs
    cases s with
    | nil =>
      rw [scanFrom_nil] at h
      obtain rfl := Except.ok.inj h
      exact nil p
    | cons c r =>
      cases hc : isBlank c with
      | true =>
        rw [scanFrom_blank hc] at h
        exact blank hc (ih r.length (by simp) h rfl)
      | false =>
        cases hl : lexeme? (c :: r) with
        | none =>
          rw [scanFrom_none hc hl] at h
          exact absurd h (by simp)
        | some e =>
          have hpos := lexeme?_pos hl
          rw [scanFrom_lexeme hc hl] at h
          cases hrest : scanFrom (p + e.2) ((c :: r).drop e.2) with
          | error q =>
            rw [hrest] at h
            exact absurd h (by simp [Except.map])
          | ok us =>
            rw [hrest] at h
            obtain rfl := Except.ok.inj h
            exact lexeme hc hl (ih _ (by simp; omega) hrest rfl)

/-- The tokens of a text come one after another, and the last one marks its end. -/
theorem scanFrom_induction {motive : List Token → Prop} {p : Nat} {ts : List Token}
    (h : scanFrom p s = .ok ts) (nil : ∀ p, motive [⟨.endOfText, "", p⟩])
    (cons : ∀ {c r k n ts} p, lexeme? (c :: r) = some (k, n) → motive ts →
      motive (⟨k, String.ofList ((c :: r).take n), p⟩ :: ts)) : motive ts :=
  scanFrom_rec (motive := fun _ _ => motive) h nil (fun _ ih => ih) fun _ hl ih => cons _ hl ih

theorem toOption_map {α β ε : Type} (x : Except ε α) (f : α → β) :
    (x.map f).toOption = x.toOption.map f := by
  cases x <;> rfl

theorem lexemes_scanFrom (p q : Nat) (s : List Char) :
    (scanFrom p s).toOption.map (List.map lexeme) =
      (scanFrom q s).toOption.map (List.map lexeme) := by
  induction hs : s.length using Nat.strongRecOn generalizing s p q with
  | _ length ih =>
    subst hs
    cases s with
    | nil =>
      rw [scanFrom_nil, scanFrom_nil]
      rfl
    | cons c r =>
      cases hc : isBlank c with
      | true =>
        rw [scanFrom_blank hc, scanFrom_blank hc]
        exact ih r.length (by simp) _ _ r rfl
      | false =>
        cases h : lexeme? (c :: r) with
        | none =>
          rw [scanFrom_none hc h, scanFrom_none hc h]
          rfl
        | some e =>
          have hpos := lexeme?_pos h
          have hrest := ih ((c :: r).drop e.2).length (by simp; omega) (p + e.2) (q + e.2) _ rfl
          rw [scanFrom_lexeme hc h, scanFrom_lexeme hc h, toOption_map, toOption_map,
            Option.map_map, Option.map_map]
          have hcons := congrArg
            (Option.map ((e.1, String.ofList ((c :: r).take e.2)) :: ·)) hrest
          rwa [Option.map_map, Option.map_map] at hcons

theorem lexemes?_eq (p : Nat) (s : List Char) :
    lexemes? s = (scanFrom p s).toOption.map (List.map lexeme) := lexemes_scanFrom 0 p s

theorem lexemes?_nil : lexemes? [] = some [(.endOfText, "")] := by
  rw [lexemes?, scanFrom_nil]
  rfl

theorem lexemes?_blank (h : isBlank c = true) (r : List Char) : lexemes? (c :: r) = lexemes? r := by
  rw [lexemes?, scanFrom_blank h, ← lexemes?_eq]

theorem lexemes?_lexeme (hc : isBlank c = false) (h : lexeme? (c :: r) = some (k, n)) :
    lexemes? (c :: r) = (lexemes? ((c :: r).drop n)).map
      ((k, String.ofList ((c :: r).take n)) :: ·) := by
  rw [lexemes?, scanFrom_lexeme hc h, toOption_map, Option.map_map, lexemes?_eq (0 + n),
    Option.map_map]
  rfl

/-! ### Words and signs -/

theorem toNat_of_isIdentifierPart (h : isIdentifierPart c = true) :
    48 ≤ c.toNat ∧ c.toNat ≤ 122 := by
  have hrange : ∀ d e : Char, d.val ≤ c.val → c.val ≤ e.val → 48 ≤ d.toNat → e.toNat ≤ 122 →
      48 ≤ c.toNat ∧ c.toNat ≤ 122 := fun d e hd he hlow hhigh =>
    ⟨Nat.le_trans hlow (UInt32.le_iff_toNat_le.mp hd),
      Nat.le_trans (UInt32.le_iff_toNat_le.mp he) hhigh⟩
  rcases Bool.or_eq_true_iff.mp h with h | h
  · rcases Bool.or_eq_true_iff.mp h with h | h
    · rcases Bool.or_eq_true_iff.mp h with h | h
      · obtain ⟨hlow, hhigh⟩ := of_decide_eq_true h
        exact hrange 'A' 'Z' hlow hhigh (by decide) (by decide)
      · obtain ⟨hlow, hhigh⟩ := Bool.and_eq_true_iff.mp h
        exact hrange 'a' 'z' (of_decide_eq_true hlow) (of_decide_eq_true hhigh) (by decide)
          (by decide)
    · obtain ⟨hlow, hhigh⟩ := Bool.and_eq_true_iff.mp h
      exact hrange '0' '9' (of_decide_eq_true hlow) (of_decide_eq_true hhigh) (by decide)
        (by decide)
  · obtain rfl := beq_iff_eq.mp h
    decide

theorem not_isBlank_of_isIdentifierPart (h : isIdentifierPart c = true) : isBlank c = false := by
  have := toNat_of_isIdentifierPart h
  simp [isBlank, inRanges, blankRanges]
  omega

theorem isIdentifierPart_of_isIdentifierStart (h : isIdentifierStart c = true) :
    isIdentifierPart c = true := by
  rcases Bool.or_eq_true_iff.mp h with h | h
  · simp [isIdentifierPart, Char.isAlphanum, h]
  · simp [isIdentifierPart, h]

/-- The text does not go on with a letter, a digit or an underscore. -/
def EndsWord (s : List Char) : Prop := ∀ c ∈ s.head?, isIdentifierPart c = false

theorem takeWhile_append_of_endsWord (hw : ∀ c ∈ w, isIdentifierPart c = true) (hs : EndsWord s) :
    (w ++ s).takeWhile isIdentifierPart = w := by
  rw [List.takeWhile_append_of_pos hw]
  cases s with
  | nil => simp
  | cons c s => simp [hs c rfl]

theorem lexeme?_word (hw : Query.isWord w = true) (hs : EndsWord s) :
    lexeme? (w ++ s) = some (wordKind w, w.length) := by
  cases w with
  | nil => exact absurd hw (by decide)
  | cons c r =>
    rw [Query.isWord, Bool.and_eq_true, List.all_eq_true] at hw
    rw [List.cons_append, lexeme?, if_pos hw.1, takeWhile_append_of_endsWord hw.2 hs]

/-- No sign begins another. -/
theorem lexeme?_sign_append : ∀ e ∈ signs, ∀ z, lexeme? (e.1 ++ z) = some (e.2, e.1.length) := by
  intro e he z
  simp only [signs, List.mem_cons, List.not_mem_nil, or_false] at he
  rcases he with rfl | rfl | rfl | rfl | rfl | rfl | rfl | rfl | rfl | rfl | rfl | rfl | rfl | rfl |
    rfl | rfl | rfl | rfl <;> rfl

/-- The text starts with the lexeme `w` of the kind `k`: a word that does not go on, or a sign. -/
inductive StartsWith : List Char → Kind → List Char → Prop
  | word {w r : List Char} (hw : Query.isWord w = true) (hr : EndsWord r) :
      StartsWith (w ++ r) (wordKind w) w
  | sign {w r : List Char} {k : Kind} (h : (w, k) ∈ signs) : StartsWith (w ++ r) k w

theorem StartsWith.lexeme?_eq (h : StartsWith s k w) : lexeme? s = some (k, w.length) := by
  cases h with
  | word hw hr => exact lexeme?_word hw hr
  | sign h => exact lexeme?_sign_append _ h _

theorem StartsWith.take_eq (h : StartsWith s k w) : s.take w.length = w := by
  cases h <;> exact List.take_left

theorem startsWith_of_lexeme? (h : lexeme? s = some (k, n)) :
    StartsWith s k (s.take n) ∧ (s.take n).length = n := by
  suffices hstarts : ∃ w, StartsWith s k w ∧ w.length = n by
    obtain ⟨w, hw, rfl⟩ := hstarts
    rw [hw.take_eq]
    exact ⟨hw, rfl⟩
  cases s with
  | nil => exact absurd h (by simp [lexeme?])
  | cons c r =>
    rw [lexeme?] at h
    split at h
    · next hc =>
      obtain ⟨rfl, rfl⟩ := Prod.mk.inj (Option.some.inj h)
      have hword : Query.isWord (c :: r.takeWhile isIdentifierPart) = true := by
        rw [Query.isWord, hc, List.all_takeWhile]
        rfl
      have hends : EndsWord (r.dropWhile isIdentifierPart) := by
        intro d hd
        have hhead := List.head?_dropWhile_not isIdentifierPart r
        rwa [Option.mem_def.mp hd] at hhead
      have hstarts := StartsWith.word hword hends
      rw [List.cons_append, List.takeWhile_append_dropWhile] at hstarts
      exact ⟨_, hstarts, rfl⟩
    · obtain ⟨e, he, heq⟩ := Option.map_eq_some_iff.mp h
      obtain ⟨rfl, rfl⟩ := Prod.mk.inj heq
      have hprefix : e.1.isPrefixOf (c :: r) = true :=
        List.find?_some (p := fun e : List Char × Kind => e.1.isPrefixOf (c :: r)) he
      obtain ⟨r', hr'⟩ := List.isPrefixOf_iff_prefix.mp hprefix
      rw [← hr']
      exact ⟨e.1, .sign (List.mem_of_find?_eq_some he), rfl⟩

theorem lexemes?_word (hw : Query.isWord w = true) (hs : EndsWord s) :
    lexemes? (w ++ s) = (lexemes? s).map ((wordKind w, String.ofList w) :: ·) := by
  cases w with
  | nil => exact absurd hw (by decide)
  | cons c r =>
    have hlexeme := lexeme?_word hw hs
    rw [Query.isWord, Bool.and_eq_true] at hw
    have hblank := not_isBlank_of_isIdentifierPart (isIdentifierPart_of_isIdentifierStart hw.1)
    rw [List.cons_append] at hlexeme ⊢
    rw [lexemes?_lexeme hblank hlexeme]
    simp

/-- The signs that a printer writes. -/
def printedSigns : List (Char × Kind) :=
  [('¬', .not), ('∧', .and), ('∨', .or), ('→', .arrow), ('∀', .all), ('∃', .exist),
   ('(', .opening), (')', .closing), (',', .comma), ('.', .dot)]

theorem lexemes?_sign (h : (c, k) ∈ printedSigns) (s : List Char) :
    lexemes? (c :: s) = (lexemes? s).map ((k, String.singleton c) :: ·) := by
  have hplain : ∀ e ∈ printedSigns, isBlank e.1 = false ∧ isIdentifierStart e.1 = false := by decide
  have hsign : sign? (c :: s) = some (k, 1) := by
    simp only [printedSigns, List.mem_cons, Prod.mk.injEq, List.not_mem_nil, or_false] at h
    rcases h with ⟨rfl, rfl⟩ | ⟨rfl, rfl⟩ | ⟨rfl, rfl⟩ | ⟨rfl, rfl⟩ | ⟨rfl, rfl⟩ | ⟨rfl, rfl⟩ |
      ⟨rfl, rfl⟩ | ⟨rfl, rfl⟩ | ⟨rfl, rfl⟩ | ⟨rfl, rfl⟩ <;> simp [sign?, signs, List.isPrefixOf]
  obtain ⟨hblank, hstart⟩ := hplain _ h
  rw [lexemes?_lexeme (k := k) (n := 1) hblank (by simp [lexeme?, hstart, hsign])]
  simp

theorem lexemes?_space (s : List Char) : lexemes? (' ' :: s) = lexemes? s :=
  lexemes?_blank (by decide) s

end Token

/-- A name that can be written: a word that is not the name of a quantifier. -/
def IsWritable (n : String) : Prop :=
  Query.isWord n.toList = true ∧ n ≠ "forall" ∧ n ≠ "exists"

instance : DecidablePred IsWritable := fun n =>
  inferInstanceAs (Decidable (Query.isWord n.toList = true ∧ n ≠ "forall" ∧ n ≠ "exists"))

theorem IsWritable.wordKind {n : String} (h : IsWritable n) :
    Token.wordKind n.toList = .identifier := by
  have hforall : n.toList ≠ "forall".toList := fun heq => h.2.1 (String.toList_inj.mp heq)
  have hexists : n.toList ≠ "exists".toList := fun heq => h.2.2 (String.toList_inj.mp heq)
  rw [Token.wordKind, if_neg hforall, if_neg hexists]

namespace Token

variable {c : Char} {r s : List Char} {n : Nat}

/-- Only words that name no quantifier are identifiers. -/
theorem StartsWith.isWritable {w : List Char} {k : Kind} (h : StartsWith s k w)
    (hk : k = .identifier) : IsWritable (String.ofList w) := by
  cases h with
  | word hw =>
    rw [IsWritable, String.toList_ofList]
    refine ⟨hw, ?_, ?_⟩ <;> intro heq <;>
      rw [← String.toList_inj, String.toList_ofList] at heq <;> rw [heq] at hk <;>
      exact absurd hk (by decide)
  | sign hsign =>
    have hall : ∀ e ∈ signs, e.2 ≠ .identifier := by decide
    exact absurd hk (hall _ hsign)

theorem isWritable_of_scanFrom {p : Nat} {ts : List Token} (h : scanFrom p s = .ok ts) :
    ∀ t ∈ ts, t.kind = .identifier → IsWritable t.text := by
  refine scanFrom_induction (motive := fun ts => ∀ t ∈ ts, t.kind = .identifier → IsWritable t.text)
    h (fun p => by simp) fun {c r k n ts} p hl ih => ?_
  rw [List.forall_mem_cons]
  refine ⟨fun hkind => ?_, ih⟩
  have hkind : k = .identifier := hkind
  exact (startsWith_of_lexeme? hl).1.isWritable hkind

theorem StartsWith.kind_ne_endOfText {w : List Char} {k : Kind} (h : StartsWith s k w) :
    k ≠ .endOfText := by
  cases h with
  | word =>
    unfold wordKind
    split
    · decide
    · split <;> decide
  | sign hsign =>
    have hall : ∀ e ∈ signs, e.2 ≠ .endOfText := by decide
    exact hall _ hsign

theorem kind_ne_endOfText {k : Kind} (h : lexeme? (c :: r) = some (k, n)) : k ≠ .endOfText :=
  (startsWith_of_lexeme? h).1.kind_ne_endOfText

/-- The end of a text is marked once, by the last of its tokens. -/
theorem exists_append_of_scan {ts : List Token} (h : scan s = .ok ts) :
    ∃ us e, ts = us ++ [e] ∧ (∀ t ∈ us, t.kind ≠ .endOfText) ∧ e.kind = .endOfText := by
  refine scanFrom_induction (motive := fun ts => ∃ us e, ts = us ++ [e] ∧
    (∀ t ∈ us, t.kind ≠ .endOfText) ∧ e.kind = .endOfText)
    h (fun p => ⟨[], _, rfl, by simp, rfl⟩) fun p hl ih => ?_
  obtain ⟨us, e, rfl, hus, he⟩ := ih
  exact ⟨_ :: us, e, rfl, List.forall_mem_cons.mpr ⟨kind_ne_endOfText hl, hus⟩, he⟩

end Token

def Connective.lexeme : Connective → Token.Lexeme
  | .and => (.and, "∧")
  | .or => (.or, "∨")
  | .implies => (.arrow, "→")

def Quantifier.lexeme : Quantifier → Token.Lexeme
  | .all => (.all, "∀")
  | .exist => (.exist, "∃")

namespace Formula

open Token

/-- The lexemes of names with commas between them. -/
def separatedLexemes : List String → List Lexeme
  | [] => []
  | [a] => [(.identifier, a)]
  | a :: r => (.identifier, a) :: (.comma, ",") :: separatedLexemes r

def parenthesizedLexemes (ls : List Lexeme) : List Lexeme :=
  (.opening, "(") :: (ls ++ [(.closing, ")")])

def wrappedLexemes (part place : Nat) (ls : List Lexeme) : List Lexeme :=
  if part < place then parenthesizedLexemes ls else ls

/-- The lexemes of a formula as it is printed. -/
def lexemes : Formula → List Lexeme
  | .atom n args =>
    (.identifier, n) :: if args.isEmpty then [] else parenthesizedLexemes (separatedLexemes args)
  | .neg g => (.not, "¬") :: wrappedLexemes g.strength 4 g.lexemes
  | .binary op l r =>
    wrappedLexemes l.strength op.operandStrengths.1 l.lexemes ++
      op.lexeme :: wrappedLexemes r.strength op.operandStrengths.2 r.lexemes
  | .quantified q v g => q.lexeme :: (.identifier, v) :: (.dot, ".") :: g.lexemes

variable {f : Formula} {n : String} {s : List Char}

/-- What stands in front is cut into these lexemes, whatever follows it as long as no word goes on. -/
def CutInto (cs : List Char) (ls : List Lexeme) : Prop :=
  ∀ s, EndsWord s → lexemes? (cs ++ s) = (lexemes? s).map (ls ++ ·)

theorem lexemes?_name (h : IsWritable n) (hs : EndsWord s) :
    lexemes? (n.toList ++ s) = (lexemes? s).map ((.identifier, n) :: ·) := by
  rw [lexemes?_word h.1 hs, h.wordKind, String.ofList_toList]

theorem endsWord_of_mem {c : Char} {k : Kind} (h : (c, k) ∈ printedSigns) (s : List Char) :
    EndsWord (c :: s) := by
  have hplain : ∀ e ∈ printedSigns, isIdentifierPart e.1 = false := by decide
  intro d hd
  obtain rfl := Option.some.inj hd
  exact hplain _ h

theorem endsWord_space (s : List Char) : EndsWord (' ' :: s) := by
  intro d hd
  obtain rfl := Option.some.inj hd
  decide

theorem cutInto_commaSeparated {xs : List String} (h : ∀ n ∈ xs, IsWritable n) :
    CutInto (commaSeparated xs) (separatedLexemes xs) := by
  induction xs with
  | nil =>
    intro s hs
    simp [commaSeparated, separatedLexemes]
  | cons a xs ih =>
    rw [List.forall_mem_cons] at h
    cases xs with
    | nil =>
      intro s hs
      exact lexemes?_name h.1 hs
    | cons b xs =>
      intro s hs
      have hsplit : commaSeparated (a :: b :: xs) ++ s =
          a.toList ++ ',' :: ' ' :: (commaSeparated (b :: xs) ++ s) := by
        simp [commaSeparated]
      rw [hsplit, lexemes?_name h.1 (endsWord_of_mem (k := .comma) (by decide) _),
        lexemes?_sign (k := .comma) (by decide), lexemes?_space, ih h.2 s hs, Option.map_map,
        Option.map_map]
      rfl

theorem CutInto.parenthesized {cs : List Char} {ls : List Lexeme} (h : CutInto cs ls)
    (s : List Char) :
    lexemes? (Formula.parenthesized cs ++ s) = (lexemes? s).map (parenthesizedLexemes ls ++ ·) := by
  have hsplit : Formula.parenthesized cs ++ s = '(' :: (cs ++ ')' :: s) := by
    simp [Formula.parenthesized]
  rw [hsplit, lexemes?_sign (k := .opening) (by decide),
    h _ (endsWord_of_mem (k := .closing) (by decide) s), lexemes?_sign (k := .closing) (by decide),
    Option.map_map, Option.map_map]
  congr 1
  funext ts
  simp [parenthesizedLexemes]

theorem CutInto.wrapped {cs : List Char} {ls : List Lexeme} (h : CutInto cs ls) (part place : Nat) :
    CutInto (Formula.wrapped part place cs) (wrappedLexemes part place ls) := by
  intro s hs
  unfold Formula.wrapped wrappedLexemes
  split
  · exact h.parenthesized s
  · exact h s hs

theorem cutInto_chars (h : ∀ n ∈ f.names, IsWritable n) : CutInto f.chars f.lexemes := by
  induction f with
  | atom n args =>
    rw [names, List.forall_mem_cons] at h
    intro s hs
    rw [chars, atomChars, lexemes]
    split
    · exact lexemes?_name h.1 hs
    · rw [List.append_assoc]
      have hopen : EndsWord (Formula.parenthesized (commaSeparated args) ++ s) :=
        endsWord_of_mem (k := .opening) (by decide) _
      rw [lexemes?_name h.1 hopen, (cutInto_commaSeparated h.2).parenthesized, Option.map_map]
      rfl
  | neg f ih =>
    intro s hs
    rw [chars, List.cons_append, lexemes?_sign (k := .not) (by decide),
      (ih h).wrapped _ _ s hs, Option.map_map]
    rfl
  | binary op l r ihl ihr =>
    rw [names, List.forall_mem_append] at h
    intro s hs
    have hsign : lexemes? (op.sign :: ' ' ::
        (Formula.wrapped r.strength op.operandStrengths.2 r.chars ++ s)) =
        (lexemes? s).map
          (op.lexeme :: wrappedLexemes r.strength op.operandStrengths.2 r.lexemes ++ ·) := by
      have hmem : (op.sign, op.lexeme.1) ∈ printedSigns := by cases op <;> decide
      have htext : String.singleton op.sign = op.lexeme.2 := by cases op <;> rfl
      rw [lexemes?_sign hmem, lexemes?_space, (ihr h.2).wrapped _ _ s hs, Option.map_map, htext]
      rfl
    rw [chars, List.append_assoc, List.cons_append, (ihl h.1).wrapped _ _ _ (endsWord_space _),
      List.cons_append, List.cons_append, lexemes?_space, hsign, Option.map_map]
    congr 1
    funext ts
    simp [lexemes]
  | quantified q v f ih =>
    rw [names, List.forall_mem_cons] at h
    intro s hs
    have hmem : (q.sign, q.lexeme.1) ∈ printedSigns := by cases q <;> decide
    have htext : String.singleton q.sign = q.lexeme.2 := by cases q <;> rfl
    rw [chars, List.cons_append, List.append_assoc, lexemes?_sign hmem, htext, List.cons_append,
      lexemes?_name h.1 (endsWord_of_mem (k := .dot) (by decide) _),
      lexemes?_sign (k := .dot) (by decide), List.cons_append, lexemes?_space, ih h.2 s hs,
      Option.map_map, Option.map_map, Option.map_map]
    rfl

/-! ### Ends of printed formulas -/

/-- The last character is not blank. -/
def EndsInk (s : List Char) : Prop := ∃ r c, s = r ++ [c] ∧ isBlank c = false

theorem EndsInk.append_left (h : EndsInk s) (r : List Char) : EndsInk (r ++ s) := by
  obtain ⟨r', c, rfl, hc⟩ := h
  exact ⟨r ++ r', c, (List.append_assoc ..).symm, hc⟩

theorem EndsInk.cons (h : EndsInk s) (c : Char) : EndsInk (c :: s) := h.append_left [c]

theorem endsInk_parenthesized (s : List Char) : EndsInk (parenthesized s) :=
  ⟨'(' :: s, ')', rfl, by decide⟩

theorem EndsInk.wrapped (h : EndsInk s) (part place : Nat) :
    EndsInk (Formula.wrapped part place s) := by
  unfold Formula.wrapped
  split
  · exact endsInk_parenthesized s
  · exact h

theorem endsInk_name (h : IsWritable n) : EndsInk n.toList := by
  have hne : n.toList ≠ [] := by
    intro hn
    have := h.1
    rw [hn] at this
    exact absurd this (by decide)
  refine ⟨_, _, (List.dropLast_append_getLast hne).symm, ?_⟩
  apply not_isBlank_of_isIdentifierPart
  have hall : ∀ c ∈ n.toList, isIdentifierPart c = true := by
    have hword := h.1
    cases hn : n.toList with
    | nil => exact absurd hn hne
    | cons c r =>
      rw [hn, Query.isWord, Bool.and_eq_true, List.all_eq_true] at hword
      rw [List.forall_mem_cons]
      exact ⟨isIdentifierPart_of_isIdentifierStart hword.1, hword.2⟩
  exact hall _ (List.getLast_mem hne)

theorem endsInk_chars (h : ∀ n ∈ f.names, IsWritable n) : EndsInk f.chars := by
  induction f with
  | atom n args =>
    rw [chars, atomChars]
    split
    · exact endsInk_name (h n (by simp [names]))
    · exact (endsInk_parenthesized _).append_left _
  | neg f ih => exact ((ih h).wrapped _ _).cons _
  | binary op l r ihl ihr =>
    rw [names, List.forall_mem_append] at h
    exact ((((ihr h.2).wrapped _ _).cons _).cons _).cons _ |>.append_left _
  | quantified q v f ih =>
    rw [names, List.forall_mem_cons] at h
    exact ((((ih h.2).cons _).cons _).append_left _).cons _

theorem EndsInk.trimRight_eq (h : EndsInk s) : trimRight s = s := by
  obtain ⟨r, c, rfl, hc⟩ := h
  simp [trimRight, hc]

theorem EndsInk.trim_ne_nil (h : EndsInk s) : trim s ≠ [] := by
  obtain ⟨r, c, rfl, hc⟩ := h
  intro hnil
  exact absurd (trim_eq_nil_iff.mp hnil c (by simp)) (by simp [hc])

/-- The tokens of a printed formula are its lexemes and the mark at the end. -/
theorem scan_chars (h : ∀ n ∈ f.names, IsWritable n) :
    ∃ ts, scan f.chars = .ok ts ∧ ts.map lexeme = f.lexemes ++ [(.endOfText, "")] := by
  have hcut := cutInto_chars h [] (by simp [EndsWord])
  rw [List.append_nil, lexemes?_nil, Option.map_some, lexemes?] at hcut
  rw [scan, (endsInk_chars h).trimRight_eq]
  cases hscan : scanFrom 0 f.chars with
  | error p =>
    rw [hscan] at hcut
    exact absurd hcut (by simp [Except.toOption])
  | ok ts =>
    rw [hscan] at hcut
    exact ⟨ts, rfl, Option.some.inj hcut⟩

end Formula

end DeductionBoard
