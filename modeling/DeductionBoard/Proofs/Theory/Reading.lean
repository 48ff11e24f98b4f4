import DeductionBoard.Proofs.Data.Steps
import DeductionBoard.Proofs.Theory.Scanning

/-! What a theory text says. The text holds one lemma; a lemma assumes labelled propositions and
shows one. How it is proved does not change what it says. Main result: the theory of a query is read
as the lemma whose assumptions are the hypotheses of the query and which shows its conclusion. -/

namespace DeductionBoard

open Query
open Smt (Expression Machine nester)
open Token (isIdentifierPart)

/-- A lemma of a theory: labelled assumptions and what they are to show. -/
structure Theory.Lemma where
  name : String
  assumptions : List (String × Formula)
  conclusion : Formula
  deriving DecidableEq, Repr

structure Theory where
  name : String
  content : Theory.Lemma
  deriving DecidableEq, Repr

namespace Theory

/-! ### Propositions -/

def name? : Expression → Option String
  | .bare w => if isWord w.toList = true then some w else none
  | _ => none

def connective? : String → Option Connective
  | "\\<and>" => some .and
  | "\\<or>" => some .or
  | "\\<longrightarrow>" => some .implies
  | _ => none

def quantifier? : String → Option Quantifier
  | "\\<forall>" => some .all
  | "\\<exists>" => some .exist
  | _ => none

/-- A name, or a name that is applied to others. -/
def application? : Expression → Option Formula
  | .list (n :: a :: args) =>
    match name? n, (a :: args).mapM name? with
    | some n, some args => some (.atom n args)
    | _, _ => none
  | e => (name? e).map (.atom · [])

def formula? : Expression → Option Formula
  | .list [.bare "\\<not>", f] => (formula? f).map .neg
  | .list [.bare q, v, .bare ".", f] =>
    match quantifier? q, name? v, formula? f with
    | some q, some v, some f => some (.quantified q v f)
    | _, _, _ => none
  | e@(.list [l, .bare w, r]) =>
    match connective? w with
    | some op =>
      match formula? l, formula? r with
      | some l, some r => some (.binary op l r)
      | _, _ => none
    | none => application? e
  | e => application? e

/-- The formula that a text between quotation marks is. -/
def proposition? (text : String) : Option Formula :=
  match (tokens? text).bind (nester.output []) with
  | some [.expression e] => formula? e
  | _ => none

/-! ### Lemmas -/

/-- The assumptions behind the first one, with their labels, and the tokens behind them. -/
def further : List Smt.Token → List (String × String) × List Smt.Token
  | .bare "and" :: .bare l :: .bare ":" :: .quoted t :: ts => ((l, t) :: (further ts).1, (further ts).2)
  | ts => ([], ts)

def assumed : List Smt.Token → List (String × String) × List Smt.Token
  | .bare "assumes" :: .bare l :: .bare ":" :: .quoted t :: ts =>
    ((l, t) :: (further ts).1, (further ts).2)
  | ts => ([], ts)

def lemma? (name : String) (ts : List Smt.Token) : Option Lemma :=
  match assumed ts with
  | (as, .bare "shows" :: .quoted t :: proof) =>
    if proof.getLast? = some (.bare "end") then
      match as.mapM (fun a => (proposition? a.2).map (a.1, ·)), proposition? t with
      | some fs, some f => some ⟨name, fs, f⟩
      | _, _ => none
    else none
  | _ => none

def theory? : List Smt.Token → Option Theory
  | .bare "theory" :: .bare t :: .bare "imports" :: .bare "Main" :: .bare "begin" ::
      .bare "lemma" :: .bare n :: .bare ":" :: ts => (lemma? n ts).map (⟨t, ·⟩)
  | _ => none

def read (text : String) : Option Theory := (tokens? text).bind theory?

section Propositions

variable {n : String} {f : Formula}

theorem name?_bare (h : isWord n.toList = true) : name? (.bare n) = some n := if_pos h

theorem mapM_name?_bare {ns : List String} (h : ∀ n ∈ ns, isWord n.toList = true) :
    (ns.map Expression.bare).mapM name? = some ns := by
  refine mapM_eq_some_iff.mpr ?_
  rw [List.map_map]
  exact List.map_congr_left fun n hn => name?_bare (h n hn)

/-- A word is no symbol. -/
theorem ne_of_isWord (h : isWord n.toList = true) {w : String} (hw : isWord w.toList = false) :
    n ≠ w := by
  rintro rfl
  exact absurd (h.symm.trans hw) (by decide)

/-- What begins with a name is an application. -/
theorem formula?_application {args : List String} (hn : isWord n.toList = true)
    (hargs : ∀ a ∈ args, isWord a.toList = true) :
    formula? (.list (.bare n :: args.map .bare)) =
      application? (.list (.bare n :: args.map .bare)) := by
  have hconnective : ∀ w, isWord w.toList = true → connective? w = none := by
    intro w hw
    unfold connective?
    split <;> first | rfl | exact absurd hw (by decide)
  unfold formula?
  split
  · next heq =>
    obtain ⟨hnot, -⟩ := List.cons.inj (Expression.list.inj heq)
    exact absurd (Expression.bare.inj hnot) (ne_of_isWord hn (by decide))
  · next q v f heq =>
    obtain ⟨-, hrest⟩ := List.cons.inj (Expression.list.inj heq)
    have hdot : Expression.bare "." ∈ args.map Expression.bare := by simp [hrest]
    obtain ⟨a, ha, hadot⟩ := List.mem_map.mp hdot
    exact absurd (Expression.bare.inj hadot) (ne_of_isWord (hargs a ha) (by decide))
  · next l w r heq =>
    obtain ⟨-, hrest⟩ := List.cons.inj (Expression.list.inj heq)
    have hmem : Expression.bare w ∈ args.map Expression.bare := by simp [hrest]
    obtain ⟨a, ha, haw⟩ := List.mem_map.mp hmem
    obtain rfl := Expression.bare.inj haw
    rw [hconnective a (hargs a ha), heq]
  · rfl

theorem formula?_expression (h : ∀ n ∈ f.names, isWord n.toList = true) :
    formula? (expression f) = some f := by
  induction f with
  | atom n args =>
    rw [Formula.names, List.forall_mem_cons] at h
    cases args with
    | nil =>
      rw [expression, formula?, application?, name?_bare h.1] <;> simp
    | cons a args =>
      rw [expression, formula?_application h.1 h.2, List.map_cons, application?, name?_bare h.1,
        ← List.map_cons, mapM_name?_bare h.2]
  | neg f ih =>
    rw [expression, formula?, ih h]
    rfl
  | binary op l r ihl ihr =>
    rw [Formula.names, List.forall_mem_append] at h
    cases op <;>
    · rw [expression, theoryConnective, formula?]
      simp [connective?, ihl h.1, ihr h.2]
  | quantified q v f ih =>
    rw [Formula.names, List.forall_mem_cons] at h
    cases q <;>
    · rw [expression, theoryQuantifier, formula?, name?_bare h.1, ih h.2]
      rfl

/-- The text of a formula is read as the formula. -/
theorem proposition?_theoryFormula (h : ∀ n ∈ f.names, isWord n.toList = true) :
    proposition? (theoryFormula f) = some f := by
  have hnest : nester.output [] (expression f).tokens = some [.expression (expression f)] :=
    Machine.Takes.output (Expression.takes_tokens (expression f) []) rfl
  rw [proposition?, tokens?, output_theoryFormula h, Option.bind_some, hnest]
  exact formula?_expression h

end Propositions

/-! ### Texts -/

section Texts

variable {f : Formula} {c : Char} {cs ds : List Char} {ts us : List Smt.Token}

theorem mem_spaced {ns : List String} (h : c ∈ (spaced ns).toList) :
    c = ' ' ∨ ∃ n ∈ ns, c ∈ n.toList := by
  induction ns with
  | nil => exact absurd h List.not_mem_nil
  | cons n ns ih =>
    cases ns with
    | nil => exact .inr ⟨n, List.mem_cons_self, spaced_singleton n ▸ h⟩
    | cons n' ns =>
      rw [spaced_cons_cons, String.toList_append, String.toList_append, List.mem_append,
        List.mem_append] at h
      rcases h with (h | h) | h
      · exact .inr ⟨n, List.mem_cons_self, h⟩
      · exact .inl (List.mem_singleton.mp h)
      · rcases ih h with h | ⟨m, hm, hc⟩
        · exact .inl h
        · exact .inr ⟨m, List.mem_cons_of_mem _ hm, hc⟩

/-- No formula ends the quotation that it stands in. -/
theorem quotationMark_notMem (h : ∀ n ∈ f.names, isWord n.toList = true) :
    quotationMark ∉ (theoryFormula f).toList := by
  have hword : ∀ n : String, isWord n.toList = true → quotationMark ∉ n.toList :=
    fun n hn hmem => absurd (isIdentifierPart_of_isWord hn _ hmem) (by decide)
  induction f with
  | atom n args =>
    rw [Formula.names, List.forall_mem_cons] at h
    rw [theoryFormula]
    split
    · exact hword n h.1
    · have hargs : quotationMark ∉ (spaced args).toList := by
        intro hmem
        rcases mem_spaced hmem with hblank | ⟨a, ha, hc⟩
        · exact absurd hblank (by decide)
        · exact hword a (h.2 a ha) hc
      simpa [quotationMark] using And.intro (hword n h.1) hargs
  | neg f ih => simpa [theoryFormula, quotationMark] using ih h
  | binary op l r ihl ihr =>
    rw [Formula.names, List.forall_mem_append] at h
    have hop : quotationMark ∉ (theoryConnective op).toList := by cases op <;> decide
    simpa [theoryFormula, quotationMark] using And.intro (ihl h.1) (And.intro hop (ihr h.2))
  | quantified q v f ih =>
    rw [Formula.names, List.forall_mem_cons] at h
    have hq : quotationMark ∉ (theoryQuantifier q).toList := by cases q <;> decide
    simpa [theoryFormula, quotationMark] using And.intro hq (And.intro (hword v h.1) (ih h.2))

/-- Whole tokens, one after the other. -/
def Cuts (cs : List Char) (ts : List Smt.Token) : Prop := scanner.Takes .idle cs ts .idle

theorem Cuts.append (h : Cuts cs ts) (h' : Cuts ds us) : Cuts (cs ++ ds) (ts ++ us) :=
  Machine.Takes.append h h'

/-- The same for a line with its end. -/
def CutsLine (l : String) (ts : List Smt.Token) : Prop := Cuts (l.toList ++ ['\n']) ts

theorem cuts_lines {ls : List String} {tss : List (List Smt.Token)}
    (h : List.Forall₂ CutsLine ls tss) :
    Cuts (String.join (ls.map (· ++ "\n"))).toList tss.flatten := by
  induction h with
  | nil => exact .nil _ _
  | cons hl _ ih =>
    rw [List.map_cons, String.join_cons, String.toList_append, String.toList_append,
      List.flatten_cons]
    exact Cuts.append hl ih

/-- A name up to a colon. -/
theorem cuts_heading {w : String} (hw : isWord w.toList = true) :
    Cuts (w.toList ++ [':']) [.bare w, .bare ":"] :=
  takes_delimited (output_name hw) (by decide) rfl

/-- A formula between quotation marks at the end of a line. -/
theorem cuts_quotation (h : ∀ n ∈ f.names, isWord n.toList = true) :
    Cuts (quotationMark :: ((theoryFormula f).toList ++ [quotationMark]) ++ ['\n'])
      [.quoted (theoryFormula f)] := by
  have hquoted := takes_quoted (quotationMark_notMem h)
  rw [String.ofList_toList] at hquoted
  exact Cuts.append hquoted (.single rfl)

theorem isWord_label (n : Nat) : isWord ("h" ++ toString n).toList = true := by
  have hdigits : (toString n).toList.all isIdentifierPart = true := by
    refine List.all_eq_true.mpr fun c hc => ?_
    rw [Nat.toString_eq_ofList_toDigits, String.toList_ofList] at hc
    simp [isIdentifierPart, Char.isAlphanum, Nat.isDigit_of_mem_toDigits (by omega) (by omega) hc]
  rw [String.toList_append]
  exact hdigits

theorem isWord_theoryName (name : String) : isWord (theoryName name).toList = true := by
  let cs := name.toList.map fun c => if isIdentifierPart c then c else '_'
  let ds := if cs.isEmpty then "proof".toList else cs
  have hds : ∀ c ∈ ds, isIdentifierPart c = true := by
    intro c hc
    simp only [ds] at hc
    split at hc
    · have hproof : "proof".toList.all isIdentifierPart = true := by decide
      exact List.all_eq_true.mp hproof c hc
    · obtain ⟨d, -, rfl⟩ := List.mem_map.mp hc
      split
      · assumption
      · decide
  have hname : (theoryName name).toList = if (ds.headD '_').isAlpha then ds else 'p' :: '_' :: ds :=
    String.toList_ofList
  rw [hname]
  split
  · next halpha =>
    cases hd : ds with
    | nil => rw [hd] at halpha; exact absurd halpha (by decide)
    | cons c r =>
      rw [hd] at halpha hds
      have hstart : Token.isIdentifierStart c = true := by
        rw [Token.isIdentifierStart, Bool.or_eq_true]
        exact .inl halpha
      have hrest : r.all isIdentifierPart = true :=
        List.all_eq_true.mpr fun d hd => hds d (List.mem_cons_of_mem _ hd)
      rw [isWord, hstart, hrest]
      rfl
  · have hrest : ('_' :: ds).all isIdentifierPart = true :=
      List.all_eq_true.mpr (List.forall_mem_cons.mpr ⟨by decide, hds⟩)
    rw [isWord, hrest]
    rfl

/-- The tokens of an assumption; the first one begins in another way than the others. -/
def assumptionTokens (first : Nat → String) (label : Nat → String) (i : Nat) (f : Formula) :
    List Smt.Token :=
  [.bare (first i), .bare (label i), .bare ":", .quoted (theoryFormula f)]

def keyword (i : Nat) : String := if i = 0 then "assumes" else "and"

def label (i : Nat) : String := "h" ++ toString (i + 1)

theorem cuts_hypothesisLine (h : ∀ n ∈ f.names, isWord n.toList = true) (i : Nat) :
    CutsLine (hypothesisLine i f) (assumptionTokens keyword label i f) := by
  have hfirst : Cuts ("  " ++ (if i = 0 then "assumes" else "    and") ++ " ").toList
      [.bare (keyword i)] := by
    rw [keyword]
    split <;> exact rfl
  have hblank : Cuts [' '] [] := .single rfl
  have hline := hfirst.append ((cuts_heading (isWord_label (i + 1))).append
    (hblank.append (cuts_quotation h)))
  simpa [CutsLine, hypothesisLine, assumptionTokens, label, quotationMark] using hline

theorem cuts_assumptions {hs : List Formula} (h : ∀ f ∈ hs, ∀ n ∈ f.names, isWord n.toList = true) :
    List.Forall₂ CutsLine (hs.mapIdx hypothesisLine)
      (hs.mapIdx (assumptionTokens keyword label)) := by
  refine List.forall₂_iff_get.mpr ⟨by simp, fun i hi hi' => ?_⟩
  simp only [List.get_eq_getElem, List.getElem_mapIdx]
  exact cuts_hypothesisLine (h _ (List.getElem_mem _)) i

/-- The tokens behind what a lemma shows. -/
def proofTokens (q : Query) : List Smt.Token :=
  (if q.hypotheses.isEmpty then [] else [.bare "using", .bare "assms"]) ++
    [.bare "by", .bare "blast", .bare "end"]

variable {q : Query} {rest : List Smt.Token}

/-- The tokens of a theory. -/
theorem tokens?_theory (h : ∀ f ∈ q.hypotheses ++ [q.conclusion], ∀ n ∈ f.names,
    isWord n.toList = true) (name : String) :
    tokens? (theory q name) = some
      ([.bare "theory", .bare (theoryName name), .bare "imports", .bare "Main", .bare "begin",
        .bare "lemma", .bare (theoryName name), .bare ":"] ++
        ((q.hypotheses.mapIdx (assumptionTokens keyword label)).flatten ++
          .bare "shows" :: .quoted (theoryFormula q.conclusion) :: proofTokens q)) := by
  rw [List.forall_mem_append, List.forall_mem_singleton] at h
  have hname := isWord_theoryName name
  have htheory : CutsLine ("theory " ++ theoryName name)
      [.bare "theory", .bare (theoryName name)] := by
    have hword : Cuts ((theoryName name).toList ++ ['\n']) [.bare (theoryName name)] :=
      takes_delimited (output_name hname) (by decide) rfl
    have hstart : Cuts "theory ".toList [.bare "theory"] := rfl
    simpa [CutsLine] using hstart.append hword
  have hlemma : CutsLine ("lemma " ++ theoryName name ++ ":")
      [.bare "lemma", .bare (theoryName name), .bare ":"] := by
    have hstart : Cuts "lemma ".toList [.bare "lemma"] := rfl
    have hend : Cuts ['\n'] [] := .single rfl
    simpa [CutsLine] using hstart.append ((cuts_heading hname).append hend)
  have hshows : CutsLine ("  shows \"" ++ theoryFormula q.conclusion ++ "\"")
      [.bare "shows", .quoted (theoryFormula q.conclusion)] := by
    have hstart : Cuts "  shows ".toList [.bare "shows"] := rfl
    simpa [CutsLine, quotationMark] using hstart.append (cuts_quotation h.2)
  have hproof : CutsLine (if q.hypotheses.isEmpty then "  by blast" else
      "  using assms by blast")
      ((if q.hypotheses.isEmpty then [] else [.bare "using", .bare "assms"]) ++
        [.bare "by", .bare "blast"]) := by
    split <;> rfl
  have hblank : CutsLine "" [] := rfl
  have hbegin : CutsLine "begin" [.bare "begin"] := rfl
  have himports : CutsLine "  imports Main" [.bare "imports", .bare "Main"] := rfl
  have hend : CutsLine "end" [.bare "end"] := rfl
  have hhead := List.Forall₂.cons htheory (.cons himports (.cons hbegin (.cons hblank
    (.cons hlemma .nil))))
  have htail := List.Forall₂.cons hshows (.cons hproof (.cons hblank (.cons hend .nil)))
  have hlines := List.rel_append (List.rel_append hhead (cuts_assumptions h.1)) htail
  have hcuts : tokens? (theory q name) = some _ := Machine.Takes.output (cuts_lines hlines) rfl
  rw [hcuts, proofTokens]
  simp

/-! ### Lemmas -/

theorem further_eq (hs : List Formula) (labels : Nat → String) :
    further ((hs.mapIdx (assumptionTokens (fun _ => "and") labels)).flatten ++
      .bare "shows" :: rest) =
      (hs.mapIdx fun i f => (labels i, theoryFormula f), .bare "shows" :: rest) := by
  induction hs generalizing labels with
  | nil => rfl
  | cons f hs ih =>
    let ts := (hs.mapIdx (assumptionTokens (fun _ => "and") fun i => labels (i + 1))).flatten ++
      .bare "shows" :: rest
    rw [List.mapIdx_cons, List.mapIdx_cons, List.flatten_cons, List.append_assoc]
    show ((labels 0, theoryFormula f) :: (further ts).1, (further ts).2) = _
    rw [ih]

theorem assumed_eq (hs : List Formula) :
    assumed ((hs.mapIdx (assumptionTokens keyword label)).flatten ++ .bare "shows" :: rest) =
      (hs.mapIdx fun i f => (label i, theoryFormula f), .bare "shows" :: rest) := by
  cases hs with
  | nil => rfl
  | cons f hs =>
    let ts := (hs.mapIdx (assumptionTokens (fun _ => "and") fun i => label (i + 1))).flatten ++
      .bare "shows" :: rest
    rw [List.mapIdx_cons, List.mapIdx_cons, List.flatten_cons, List.append_assoc]
    show ((label 0, theoryFormula f) :: (further ts).1, (further ts).2) = _
    rw [further_eq]

/-- The lemma that a query is exported as. -/
def lemmaOf (q : Query) (name : String) : Lemma :=
  ⟨theoryName name, q.hypotheses.mapIdx fun i f => (label i, f), q.conclusion⟩

theorem map_snd_lemmaOf (q : Query) (name : String) :
    (lemmaOf q name).assumptions.map (·.2) = q.hypotheses :=
  List.ext_getElem (by simp [lemmaOf]) fun i hi hi' => by simp [lemmaOf]

theorem lemma?_eq (h : ∀ f ∈ q.hypotheses ++ [q.conclusion], ∀ n ∈ f.names,
    isWord n.toList = true) (name : String) :
    lemma? (theoryName name) ((q.hypotheses.mapIdx (assumptionTokens keyword label)).flatten ++
      .bare "shows" :: .quoted (theoryFormula q.conclusion) :: proofTokens q) =
      some (lemmaOf q name) := by
  have hassumptions : (q.hypotheses.mapIdx fun i f => (label i, theoryFormula f)).mapM
      (fun a => (proposition? a.2).map (a.1, ·)) =
        some (q.hypotheses.mapIdx fun i f => (label i, f)) := by
    refine mapM_eq_some_iff.mpr (List.ext_getElem (by simp) fun i hi hi' => ?_)
    have hi : i < q.hypotheses.length := by simpa using hi
    have hf := proposition?_theoryFormula
      (h _ (List.mem_append_left _ (List.getElem_mem hi)))
    simp [hf]
  have hconclusion := proposition?_theoryFormula
    (h _ (List.mem_append_right _ (List.mem_singleton_self _)))
  have hlast : (proofTokens q).getLast? = some (.bare "end") := by
    rw [proofTokens]
    simp
  rw [lemma?, assumed_eq]
  show (if (proofTokens q).getLast? = some (.bare "end") then _ else none) = _
  rw [if_pos hlast, hassumptions, hconclusion]
  rfl

/-- The theory of a query is read as the lemma of the query. -/
theorem read_theory (h : ∀ f ∈ q.hypotheses ++ [q.conclusion], ∀ n ∈ f.names,
    isWord n.toList = true) (name : String) :
    read (theory q name) = some ⟨theoryName name, lemmaOf q name⟩ := by
  rw [read, tokens?_theory h, Option.bind_some]
  exact congrArg (Option.map _) (lemma?_eq h name)

end Texts

end Theory

end DeductionBoard
