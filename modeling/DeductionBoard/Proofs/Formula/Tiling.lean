import DeductionBoard.Proofs.Formula.Faults
import Mathlib.Order.Bounds.Defs

/-! How tokens lie in a text. Tokens tile a part of a text if each of them stands at its position,
the next one begins where it ends or later, and what no token covers is blank. Of two tilings that
begin at one place the shorter one is the beginning of the longer one, because words are as long as
possible and no sign begins another. Main result: a text is cut into the tokens of its one tiling up
to the blanks at its end, or else the fault is at the first place that a tiling reaches and where
none can go on. -/

namespace DeductionBoard

open Text

namespace Text

/-- What is trimmed off at the end of a text is blank. -/
theorem exists_trimRight_append (s : List Char) :
    ∃ z, s = trimRight s ++ z ∧ ∀ c ∈ z, isBlank c = true := by
  refine ⟨(s.reverse.takeWhile isBlank).reverse, ?_, fun c hc => ?_⟩
  · rw [trimRight, ← List.reverse_append, List.takeWhile_append_dropWhile, List.reverse_reverse]
  · exact List.mem_takeWhile_imp (List.mem_reverse.mp hc)

end Text

namespace Token

variable {s r w w' x z : List Char} {c : Char} {k k' : Kind} {p q q' e e' L : Nat} {t : Token}
  {ts us us' : List Token} {o : Except Nat (List Token)}

/-! ### Lexemes at a place -/

theorem StartsWith.ink (h : StartsWith s k w) : ∀ c ∈ w, isBlank c = false := by
  cases h with
  | word hw hr =>
    cases w with
    | nil => simp
    | cons c w =>
      rw [Query.isWord, Bool.and_eq_true, List.all_eq_true] at hw
      exact List.forall_mem_cons.mpr
        ⟨not_isBlank_of_isIdentifierPart (isIdentifierPart_of_isIdentifierStart hw.1),
          fun d hd => not_isBlank_of_isIdentifierPart (hw.2 d hd)⟩
  | sign h =>
    have hall : ∀ e ∈ signs, e.1.any isBlank = false := by decide
    simpa only [List.any_eq_false, Bool.not_eq_true] using hall _ h

theorem StartsWith.length_pos (h : StartsWith s k w) : 0 < w.length := lexeme?_pos h.lexeme?_eq

theorem StartsWith.unique (h : StartsWith s k w) (h' : StartsWith s k' w') : k = k' ∧ w = w' := by
  obtain ⟨hk, hlength⟩ := Prod.mk.inj (Option.some.inj (h.lexeme?_eq.symm.trans h'.lexeme?_eq))
  exact ⟨hk, by rw [← h.take_eq, ← h'.take_eq, hlength]⟩

theorem StartsWith.exists_head (h : StartsWith (s.drop p) k w) :
    ∃ c, s[p]? = some c ∧ isBlank c = false := by
  obtain ⟨c, v, rfl⟩ := List.exists_cons_of_length_pos h.length_pos
  refine ⟨c, ?_, h.ink c List.mem_cons_self⟩
  have htake := congrArg List.head? h.take_eq
  rwa [List.head?_take, if_neg (by simp), List.head?_drop] at htake

theorem StartsWith.add_length_le (h : StartsWith (s.drop p) k w) : p + w.length ≤ s.length := by
  have htake := congrArg List.length h.take_eq
  rw [List.length_take, List.length_drop] at htake
  have := h.length_pos
  omega

theorem lexeme?_eq_none_iff : lexeme? s = none ↔ ∀ k w, ¬ StartsWith s k w := by
  constructor
  · intro hnone k w h
    rw [h.lexeme?_eq] at hnone
    exact absurd hnone (by simp)
  · intro hnot
    cases h : lexeme? s with
    | none => rfl
    | some e => exact absurd (startsWith_of_lexeme? h).1 (hnot _ _)

theorem endsWord_append_blank (hz : ∀ c ∈ z, isBlank c = true) :
    EndsWord (r ++ z) ↔ EndsWord r := by
  cases r with
  | cons c r => exact Iff.rfl
  | nil =>
    refine iff_of_true (fun c hc => ?_) (by simp [EndsWord])
    by_contra hpart
    have := not_isBlank_of_isIdentifierPart (Bool.eq_true_of_not_eq_false hpart)
    exact absurd (hz c (List.mem_of_mem_head? hc)) (by simp [this])

/-- A beginning without blanks of a text with blanks at its end lies before these. -/
theorem exists_append_of_ink (hw : ∀ c ∈ w, isBlank c = false) (hz : ∀ c ∈ z, isBlank c = true)
    (h : s ++ z = w ++ r) : ∃ v, s = w ++ v ∧ r = v ++ z := by
  obtain ⟨v, rfl, rfl⟩ | ⟨v, rfl, rfl⟩ := List.append_eq_append_iff.mp h
  · cases v with
    | nil => exact ⟨[], by simp, rfl⟩
    | cons c v => exact absurd (hz c (by simp)) (by simp [hw c (by simp)])
  · exact ⟨v, rfl, rfl⟩

/-- Blanks behind a text neither make a lexeme longer nor make one up. -/
theorem startsWith_append_blank (hz : ∀ c ∈ z, isBlank c = true) :
    StartsWith (s ++ z) k w ↔ StartsWith s k w := by
  constructor
  · intro h
    have hink := h.ink
    generalize hv : s ++ z = v at h
    cases h with
    | word hw hr =>
      obtain ⟨v, rfl, rfl⟩ := exists_append_of_ink hink hz hv
      exact .word hw ((endsWord_append_blank hz).mp hr)
    | sign hsign =>
      obtain ⟨v, rfl, -⟩ := exists_append_of_ink hink hz hv
      exact .sign hsign
  · intro h
    cases h with
    | word hw hr =>
      rw [List.append_assoc]
      exact .word hw ((endsWord_append_blank hz).mpr hr)
    | sign hsign =>
      rw [List.append_assoc]
      exact .sign hsign

/-! ### Tilings -/

/-- The position behind a token. -/
def stop (t : Token) : Nat := t.position + t.text.toList.length

/-- The tokens lie in the text between `p` and `q`: each one is a lexeme at its position, they come
one after another, and what none of them covers is blank. -/
structure Tiles (s : List Char) (p : Nat) (ts : List Token) (q : Nat) : Prop where
  le : p ≤ q
  le_length : q ≤ s.length
  lexical : ∀ t ∈ ts, StartsWith (s.drop t.position) t.kind t.text.toList
  apart : ts.Pairwise fun t u => t.stop ≤ u.position
  within : ∀ t ∈ ts, p ≤ t.position ∧ t.stop ≤ q
  blank : ∀ n c, p ≤ n → n < q → s[n]? = some c →
    isBlank c = true ∨ ∃ t ∈ ts, t.position ≤ n ∧ n < t.stop

/-- Only blanks stand between `p` and `q`. -/
def Blank (s : List Char) (p q : Nat) : Prop :=
  ∀ n c, p ≤ n → n < q → s[n]? = some c → isBlank c = true

theorem blank_self : Blank s p p := fun n c hn hlt _ => by omega

theorem tiles_nil_iff : Tiles s p [] q ↔ p ≤ q ∧ q ≤ s.length ∧ Blank s p q := by
  constructor
  · intro h
    refine ⟨h.le, h.le_length, fun n c hp hq hc => ?_⟩
    simpa using h.blank n c hp hq hc
  · rintro ⟨hle, hlength, hblank⟩
    exact ⟨hle, hlength, by simp, .nil, by simp, fun n c hp hq hc => .inl (hblank n c hp hq hc)⟩

theorem tiles_cons_iff : Tiles s p (t :: ts) q ↔ p ≤ t.position ∧ Blank s p t.position ∧
    StartsWith (s.drop t.position) t.kind t.text.toList ∧ Tiles s t.stop ts q := by
  constructor
  · intro h
    obtain ⟨hlexical, hlexicals⟩ := List.forall_mem_cons.mp h.lexical
    obtain ⟨hapart, haparts⟩ := List.pairwise_cons.mp h.apart
    obtain ⟨⟨hp, hq⟩, hwithin⟩ := List.forall_mem_cons.mp h.within
    have hstop : t.position ≤ t.stop := Nat.le_add_right _ _
    refine ⟨hp, fun n c hn hlt hc => ?_, hlexical, hq, h.le_length, hlexicals, haparts,
      fun u hu => ⟨hapart u hu, (hwithin u hu).2⟩, fun n c hn hlt hc => ?_⟩
    · refine (h.blank n c hn (by omega) hc).resolve_right ?_
      rintro ⟨u, hu, hle, -⟩
      obtain rfl | hu := List.mem_cons.mp hu
      · omega
      · have := hapart u hu
        omega
    · refine (h.blank n c (by omega) hlt hc).imp_right ?_
      rintro ⟨u, hu, hle, hlt⟩
      obtain rfl | hu := List.mem_cons.mp hu
      · omega
      · exact ⟨u, hu, hle, hlt⟩
  · rintro ⟨hp, hblank, hlexical, h⟩
    have hstop : t.position ≤ t.stop := Nat.le_add_right _ _
    have hle := h.le
    refine ⟨by omega, h.le_length, List.forall_mem_cons.mpr ⟨hlexical, h.lexical⟩,
      List.pairwise_cons.mpr ⟨fun u hu => (h.within u hu).1, h.apart⟩,
      List.forall_mem_cons.mpr ⟨⟨hp, hle⟩, fun u hu => ?_⟩, fun n c hn hlt hc => ?_⟩
    · have := h.within u hu
      omega
    · obtain hbefore | hfrom := Nat.lt_or_ge n t.position
      · exact .inl (hblank n c hn hbefore hc)
      · obtain hin | hbehind := Nat.lt_or_ge n t.stop
        · exact .inr ⟨t, by simp, hfrom, hin⟩
        · refine (h.blank n c hbehind hlt hc).imp_right ?_
          rintro ⟨u, hu, hbounds⟩
          exact ⟨u, List.mem_cons_of_mem t hu, hbounds⟩

theorem Tiles.nil_of_le (hp : p ≤ s.length) : Tiles s p [] p :=
  tiles_nil_iff.mpr ⟨Nat.le_refl p, hp, blank_self⟩

theorem StartsWith.position_lt_stop (h : StartsWith (s.drop t.position) t.kind t.text.toList) :
    t.position < t.stop := Nat.lt_add_of_pos_right h.length_pos

/-- Where blanks stand in front of a place, a tiling may begin before or behind them. -/
theorem tiles_of_blank (hle : p ≤ q) (hq : q ≤ q') (hblank : Blank s p q) :
    Tiles s p ts q' ↔ Tiles s q ts q' := by
  have hfrom : ∀ {e}, Blank s p e ↔ Blank s q e := fun {e} =>
    ⟨fun h n c hn hlt hc => h n c (by omega) hlt hc, fun h n c hn hlt hc =>
      (Nat.lt_or_ge n q).elim (hblank n c hn · hc) (h n c · hlt hc)⟩
  cases ts with
  | nil =>
    rw [tiles_nil_iff, tiles_nil_iff, hfrom]
    exact and_congr_left fun _ => iff_of_true (by omega) hq
  | cons t ts =>
    rw [tiles_cons_iff, tiles_cons_iff, hfrom]
    refine and_congr_left fun ⟨_, hlexical, _⟩ => ⟨fun hp => ?_, fun hq => by omega⟩
    obtain ⟨c, hc, hink⟩ := hlexical.exists_head
    by_contra hlt
    exact absurd (hblank _ c hp (by omega) hc) (by simp [hink])

/-- The first token of a tiling is at the first character that is not blank. -/
theorem Tiles.exists_head (h : Tiles s p ts q) (hlt : e < q) (hle : p ≤ e) (hblank : Blank s p e)
    (hc : s[e]? = some c) (hink : isBlank c = false) :
    ∃ t us, ts = t :: us ∧ t.position = e := by
  cases ts with
  | nil =>
    obtain ⟨-, -, hall⟩ := tiles_nil_iff.mp h
    exact absurd (hall e c hle hlt hc) (by simp [hink])
  | cons t us =>
    obtain ⟨hp, hbefore, hlexical, -⟩ := tiles_cons_iff.mp h
    refine ⟨t, us, rfl, ?_⟩
    obtain hlt | heq | hgt := Nat.lt_trichotomy t.position e
    · obtain ⟨d, hd, hdink⟩ := hlexical.exists_head
      exact absurd (hblank _ d hp hlt hd) (by simp [hdink])
    · exact heq
    · exact absurd (hbefore e c hle hgt hc) (by simp [hink])

/-- Of two tilings the shorter one is the beginning of the longer one. -/
theorem Tiles.exists_append (h : Tiles s p us q) (h' : Tiles s p us' q') (hle : q ≤ q') :
    ∃ vs, us' = us ++ vs ∧ Tiles s q vs q' := by
  induction us generalizing p us' with
  | nil =>
    obtain ⟨hp, -, hblank⟩ := tiles_nil_iff.mp h
    exact ⟨us', rfl, (tiles_of_blank hp hle hblank).mp h'⟩
  | cons t us ih =>
    -- both go on at the first character that is not blank, with the one lexeme that starts there
    obtain ⟨hp, hblank, hlexical, hrest⟩ := tiles_cons_iff.mp h
    obtain ⟨c, hc, hink⟩ := hlexical.exists_head
    have hlt : t.position < q' := by
      have := hrest.le
      have := hlexical.position_lt_stop
      omega
    obtain ⟨t', us', rfl, hposition⟩ := h'.exists_head hlt hp hblank hc hink
    obtain ⟨-, -, hlexical', hrest'⟩ := tiles_cons_iff.mp h'
    rw [hposition] at hlexical'
    obtain ⟨hkind, htext⟩ := hlexical.unique hlexical'
    obtain rfl : t = t' := by
      cases t; cases t'
      simp_all [String.toList_inj]
    obtain ⟨vs, rfl, hvs⟩ := ih hrest hrest'
    exact ⟨vs, rfl, hvs⟩

/-- A tiling reaches this place, which is not blank, and no token starts there. -/
structure Halts (s : List Char) (p e : Nat) : Prop where
  ink : ∃ c, s[e]? = some c ∧ isBlank c = false
  reached : ∃ us, Tiles s p us e
  stuck : ∀ k w, ¬ StartsWith (s.drop e) k w

/-- No tiling goes past a place where one halts. -/
theorem Halts.le (h : Halts s p e) (hts : Tiles s p ts q) : q ≤ e := by
  by_contra hlt
  obtain ⟨us, hus⟩ := h.reached
  obtain ⟨vs, -, hvs⟩ := hus.exists_append hts (by omega)
  obtain ⟨c, hc, hink⟩ := h.ink
  obtain ⟨t, vs, rfl, rfl⟩ :=
    hvs.exists_head (by omega) (Nat.le_refl e) blank_self hc hink
  exact h.stuck _ _ (tiles_cons_iff.mp hvs).2.2.1

/-! ### What scanning comes to -/

/-- What scanning comes to from `p` on in a text of which blanks follow on `L`. -/
def Outcome (s : List Char) (p L : Nat) : Except Nat (List Token) → Prop
  | .ok ts => ∃ us, ts = us ++ [⟨.endOfText, "", L⟩] ∧ Tiles s p us L
  | .error e => Halts s p e

theorem Outcome.of_blank (h : Outcome s (p + 1) L o) (hc : s[p]? = some c)
    (hblank : isBlank c = true) : Outcome s p L o := by
  have hone : Blank s p (p + 1) := by
    intro n d hn hlt hd
    obtain rfl : n = p := by omega
    obtain rfl := Option.some.inj (hc.symm.trans hd)
    exact hblank
  cases o with
  | ok ts =>
    obtain ⟨us, rfl, hus⟩ := h
    exact ⟨us, rfl, (tiles_of_blank (Nat.le_succ p) hus.le hone).mpr hus⟩
  | error e =>
    obtain ⟨us, hus⟩ := h.reached
    exact ⟨h.ink, ⟨us, (tiles_of_blank (Nat.le_succ p) hus.le hone).mpr hus⟩, h.stuck⟩

theorem Outcome.cons (h : Outcome s (p + w.length) L o) (hw : StartsWith (s.drop p) k w) :
    Outcome s p L (o.map (⟨k, String.ofList w, p⟩ :: ·)) := by
  have hcons : ∀ {us q}, Tiles s (p + w.length) us q →
      Tiles s p (⟨k, String.ofList w, p⟩ :: us) q := by
    intro us q hus
    refine tiles_cons_iff.mpr ⟨Nat.le_refl p, blank_self, ?_, ?_⟩
    · simpa using hw
    · simpa [stop] using hus
  cases o with
  | ok ts =>
    obtain ⟨us, rfl, hus⟩ := h
    exact ⟨_ :: us, rfl, hcons hus⟩
  | error e =>
    obtain ⟨us, hus⟩ := h.reached
    exact ⟨h.ink, ⟨_, hcons hus⟩, h.stuck⟩

theorem outcome_scanFrom (hz : ∀ c ∈ z, isBlank c = true) (hp : p ≤ s.length)
    (hs : s.drop p = x ++ z) : Outcome s p (p + x.length) (scanFrom p x) := by
  -- the rest `x` is looked at with the blanks behind it, as lexemes are those of the whole text
  induction hlength : x.length using Nat.strongRecOn generalizing x p with
  | _ length ih =>
    subst hlength
    cases x with
    | nil =>
      rw [scanFrom_nil]
      exact ⟨[], rfl, .nil_of_le hp⟩
    | cons c r =>
      have hc : s[p]? = some c := by rw [← List.head?_drop, hs, List.cons_append, List.head?_cons]
      have hlt : p < s.length := (List.getElem?_eq_some_iff.mp hc).1
      cases hink : isBlank c with
      | true =>
        rw [scanFrom_blank hink]
        have hrest : s.drop (p + 1) = r ++ z := by
          rw [← List.drop_drop, hs, List.cons_append, List.drop_succ_cons, List.drop_zero]
        have houtcome := ih r.length (by simp) hlt hrest rfl
        rw [show p + (c :: r).length = p + 1 + r.length by rw [List.length_cons]; omega]
        exact houtcome.of_blank hc hink
      | false =>
        cases hl : lexeme? (c :: r) with
        | none =>
          rw [scanFrom_none hink hl]
          refine ⟨⟨c, hc, hink⟩, ⟨[], .nil_of_le hp⟩, fun k w hw => ?_⟩
          rw [hs, startsWith_append_blank hz] at hw
          exact lexeme?_eq_none_iff.mp hl k w hw
        | some l =>
          obtain ⟨hstarts, hlength⟩ := startsWith_of_lexeme? hl
          have hw : StartsWith (s.drop p) l.1 ((c :: r).take l.2) := by
            rw [hs]
            exact (startsWith_append_blank hz).mpr hstarts
          have hpos := lexeme?_pos hl
          have hbehind := hw.add_length_le
          rw [hlength] at hbehind
          have hinside : l.2 ≤ (c :: r).length := hlength ▸ List.length_take_le' ..
          have hrest : s.drop (p + l.2) = (c :: r).drop l.2 ++ z := by
            rw [← List.drop_drop, hs, List.drop_append_of_le_length hinside]
          have hlast : p + (c :: r).length = p + l.2 + ((c :: r).drop l.2).length := by
            rw [List.length_drop]
            omega
          rw [scanFrom_lexeme hink hl, hlast]
          refine Outcome.cons ?_ hw
          rw [hlength]
          exact ih _ (by rw [List.length_drop]; simp; omega) hbehind hrest rfl

theorem outcome_scan (s : List Char) : Outcome s 0 (trimRight s).length (scan s) := by
  obtain ⟨z, hs, hz⟩ := exists_trimRight_append s
  have houtcome := outcome_scanFrom hz (Nat.zero_le _) hs
  rwa [Nat.zero_add] at houtcome

theorem Tiles.eq_nil (h : Tiles s p ts p) : ts = [] := by
  cases ts with
  | nil => rfl
  | cons t ts =>
    obtain ⟨hp, -, hlexical, hrest⟩ := tiles_cons_iff.mp h
    have := hrest.le
    have := hlexical.position_lt_stop
    omega

/-- A token behind a tiling is right of all of its tokens. -/
theorem Tiles.increasing (h : Tiles s p ts q) (t : Token) (ht : t.position = q) :
    ((ts ++ [t]).map position).Pairwise (· < ·) := by
  have hlt : ∀ u ∈ ts, u.position < u.stop := fun u hu => (h.lexical u hu).position_lt_stop
  rw [List.pairwise_map, List.pairwise_append]
  refine ⟨h.apart.imp_of_mem fun hu _ hle => (hlt _ hu).trans_le hle, List.pairwise_singleton _ _,
    fun u hu t' ht' => ?_⟩
  obtain rfl := List.mem_singleton.mp ht'
  exact ht ▸ (hlt u hu).trans_le (h.within u hu).2

theorem Halts.lt_length_trimRight (h : Halts s p e) : e < (trimRight s).length := by
  obtain ⟨z, hs, hz⟩ := exists_trimRight_append s
  obtain ⟨c, hc, hink⟩ := h.ink
  by_contra hle
  rw [hs, List.getElem?_append_right (by omega)] at hc
  exact absurd (hz c (List.mem_of_getElem? hc)) (by simp [hink])

/-- A text halts at one place at most, and then no tiling reaches its end. -/
theorem Halts.eq (h : Halts s p e) (h' : Halts s p e') : e = e' := by
  obtain ⟨us, hus⟩ := h.reached
  obtain ⟨us', hus'⟩ := h'.reached
  exact Nat.le_antisymm (h'.le hus) (h.le hus')

theorem scan_eq_ok_iff : scan s = .ok ts ↔
    ∃ us, ts = us ++ [⟨.endOfText, "", (trimRight s).length⟩] ∧
      Tiles s 0 us (trimRight s).length := by
  have houtcome := outcome_scan s
  cases hscan : scan s with
  | ok ts' =>
    rw [hscan] at houtcome
    obtain ⟨us', rfl, hus'⟩ := houtcome
    rw [Except.ok.injEq]
    constructor
    · rintro rfl
      exact ⟨us', rfl, hus'⟩
    · rintro ⟨us, rfl, hus⟩
      obtain ⟨vs, rfl, hvs⟩ := hus'.exists_append hus (Nat.le_refl _)
      rw [hvs.eq_nil, List.append_nil]
  | error e =>
    rw [hscan] at houtcome
    refine iff_of_false (by simp) ?_
    rintro ⟨us, -, hus⟩
    have := houtcome.le hus
    have := houtcome.lt_length_trimRight
    omega

theorem scan_eq_error_iff : scan s = .error e ↔ Halts s 0 e := by
  have houtcome := outcome_scan s
  cases hscan : scan s with
  | ok ts =>
    rw [hscan] at houtcome
    obtain ⟨us, -, hus⟩ := houtcome
    refine iff_of_false (by simp) fun h => ?_
    have := h.le hus
    have := h.lt_length_trimRight
    omega
  | error e' =>
    rw [hscan] at houtcome
    rw [Except.error.injEq]
    exact ⟨fun heq => heq ▸ houtcome, fun h => houtcome.eq h⟩

theorem parse_of_scan_error {text : String} (h : scan text.toList = .error e) :
    Formula.parse text = .error ⟨.unexpectedCharacter, text, e⟩ := by
  have hink : ¬ (trim text.toList).isEmpty = true := by
    rw [List.isEmpty_iff, trim_eq_nil_iff]
    intro hblank
    rw [scan, trimRight_eq_nil_iff.mpr hblank, scanFrom_nil] at h
    exact absurd h (by simp)
  rw [Formula.parse, if_neg hink, h]

/-- The tokens of a text are those of its one tiling, up to the blanks at its end, and a mark behind
them; they begin further and further right, each with the part of the text that stands there. Where
there is none, the fault is at the first place that a tiling reaches, that is not blank and where no
token starts. -/
theorem scan_tiles (text : String) :
    (∀ ts, scan text.toList = .ok ts ↔
      ∃ us, ts = us ++ [⟨.endOfText, "", (trimRight text.toList).length⟩] ∧
        Tiles text.toList 0 us (trimRight text.toList).length) ∧
    (∀ ts, scan text.toList = .ok ts → (ts.map position).Pairwise (· < ·) ∧
      ∀ t ∈ ts, (text.toList.drop t.position).take t.text.toList.length = t.text.toList) ∧
    (∀ e, scan text.toList = .error e ↔ IsLeast {e | Halts text.toList 0 e} e) ∧
    ∀ e, scan text.toList = .error e →
      Formula.parse text = .error ⟨.unexpectedCharacter, text, e⟩ := by
  refine ⟨fun ts => scan_eq_ok_iff, fun ts hscan => ?_, fun e => ?_, fun e => parse_of_scan_error⟩
  · obtain ⟨us, rfl, hus⟩ := scan_eq_ok_iff.mp hscan
    refine ⟨hus.increasing _ rfl, fun t ht => ?_⟩
    obtain ht | ht := List.mem_append.mp ht
    · exact (hus.lexical t ht).take_eq
    · obtain rfl := List.mem_singleton.mp ht
      simp
  · rw [scan_eq_error_iff]
    exact ⟨fun h => ⟨h, fun e' h' => (h.eq h').le⟩, fun h => h.1⟩

end Token

end DeductionBoard
