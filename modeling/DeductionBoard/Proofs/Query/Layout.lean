import DeductionBoard.Proofs.Query.Declarations

/-! What the text of a script spells: two comments, the logic, the declarations, and the assertions
with their labels. Main results: the text of a script is read as its entries, where every name in it
can be written and no line breaks early; the entries are well-sorted where the assertions are,
behind declarations of different names. -/

namespace DeductionBoard.Query

open Smt (Expression)

variable {sort : String}

/-- A text without line breaks. -/
def SingleLine (s : String) : Prop := ∀ c ∈ s.toList, Smt.isLineBreak c = false

instance : DecidablePred SingleLine := fun s =>
  List.decidableBAll (fun c => Smt.isLineBreak c = false) s.toList

theorem SingleLine.append {s t : String} (hs : SingleLine s) (ht : SingleLine t) :
    SingleLine (s ++ t) := by
  intro c hc
  rcases List.mem_append.mp (String.toList_append ▸ hc) with hc | hc
  · exact hs c hc
  · exact ht c hc

namespace Script

variable {s : Script}

/-- The script in the solver language: two comments, the logic, the declarations, and the assertions
with their labels. -/
def entries (sort : String) (s : Script) : Smt.Script :=
  [.comment (" proofwork " ++ s.title), .comment (" " ++ s.sequent), .command (.setLogic s.logic)] ++
    (if s.firstOrder then [.command (.declareSort sort)] else []) ++
    s.declarations.flatMap (fun d => [.command (d.command sort)]) ++
    s.assertions.flatMap (fun a =>
      [.command (.assert (a.1.statement sort)), .comment (" " ++ a.2)]) ++
    [.command .checkSat]

/-- No line of the script breaks early, and every name in it can be written. -/
structure Clean (sort : String) (s : Script) : Prop where
  sort_eq : s.sort = symbol sort
  sort_nameable : Nameable sort
  title : SingleLine s.title
  sequent : SingleLine s.sequent
  declarations : ∀ d ∈ s.declarations, d.Named
  sentences : ∀ a ∈ s.assertions, a.1.Named
  labels : ∀ a ∈ s.assertions, SingleLine a.2

/-- The text of a line with the character that ends it. -/
def lineChars (line : String) : List Char := line.toList ++ ['\n']

theorem reads_line {line : String} {e : Expression} {c : Smt.Command} (h : e.chars = line.toList)
    (hp : e.Printable) (hc : e.command? = some c) :
    Smt.Reads (lineChars line) [.command c] := by
  unfold lineChars
  rw [← h]
  exact .command hp hc (by decide)

theorem reads_comment {t line : String} (hline : line.toList = ';' :: t.toList)
    (h : SingleLine t) : Smt.Reads (lineChars line) [.comment t] := by
  unfold lineChars
  rw [hline]
  exact .comment h

theorem reads_title (h : s.Clean sort) :
    Smt.Reads (lineChars ("; proofwork " ++ s.title)) [.comment (" proofwork " ++ s.title)] :=
  reads_comment (by simp) ((by decide : SingleLine " proofwork ").append h.title)

theorem reads_sequent (h : s.Clean sort) :
    Smt.Reads (lineChars ("; " ++ s.sequent)) [.comment (" " ++ s.sequent)] :=
  reads_comment (by simp) ((by decide : SingleLine " ").append h.sequent)

theorem reads_setLogic (s : Script) :
    Smt.Reads (lineChars ("(set-logic " ++ s.logic ++ ")")) [.command (.setLogic s.logic)] := by
  have hword := printable_bare (s := "set-logic") (by decide)
  have hlogic : Smt.isSimpleSymbol s.logic = true := by
    unfold logic
    split <;> decide
  have hexpression : (Expression.list [.bare "set-logic", .bare s.logic]).Printable :=
    printable_list (by simp [hword, printable_bare hlogic])
  refine reads_line ?_ hexpression rfl
  simp [Expression.chars, Expression.closedChars]

theorem reads_declareSort (hsort : Nameable sort) :
    Smt.Reads (lineChars ("(declare-sort " ++ symbol sort ++ " 0)"))
      [.command (.declareSort sort)] := by
  have hword := printable_bare (s := "declare-sort") (by decide)
  have hdigit : ∀ c ∈ "0".toList, Smt.isWordChar c = true := fun c hc => by
    obtain rfl := List.mem_singleton.mp hc
    decide
  have hzero : (Expression.bare "0").Printable := by
    rw [Expression.Printable]
    exact ⟨by decide, hdigit⟩
  have hcommand : (Expression.list [.bare "declare-sort", symbolExpression sort,
      .bare "0"]).command? = some (.declareSort sort) := by
    rw [Expression.command?, symbol?_symbolExpression hsort]
    rfl
  refine reads_line ?_ (printable_list ?_) hcommand
  · simp [Expression.chars, Expression.closedChars, chars_symbolExpression]
  · simp [hword, printable_symbolExpression hsort, hzero]

theorem reads_declaration {d : Declaration} (hd : d.Named) (hsort : Nameable sort) :
    Smt.Reads (lineChars (d.text (symbol sort))) [.command (d.command sort)] :=
  reads_line d.chars_expression (hd.printable hsort) (hd.command? hsort)

/-- An assertion, and behind it its label as a comment. -/
theorem reads_assertion {f : Sentence} {label : String} (hf : f.Named) (hsort : Nameable sort)
    (h : SingleLine label) :
    Smt.Reads (lineChars ("(assert " ++ f.text (symbol sort) ++ ") ; " ++ label))
      [.command (.assert (f.statement sort)), .comment (" " ++ label)] := by
  have hassert := printable_bare (s := "assert") (by decide)
  have hexpression : (Expression.list [.bare "assert", f.expression sort]).Printable :=
    printable_list (by simp [hassert, hf.printable hsort])
  have hcommand : (Expression.list [.bare "assert", f.expression sort]).command? =
      some (.assert (f.statement sort)) := by
    rw [Expression.command?, hf.statement? hsort]
    rfl
  have hlabel : Smt.Reads (lineChars ("; " ++ label)) [.comment (" " ++ label)] :=
    reads_comment (by simp) ((by decide : SingleLine " ").append h)
  have htext : lineChars ("(assert " ++ f.text (symbol sort) ++ ") ; " ++ label) =
      (Expression.list [.bare "assert", f.expression sort]).chars ++ [' '] ++
        lineChars ("; " ++ label) := by
    simp [lineChars, Expression.chars, Expression.closedChars, f.chars_expression]
  rw [htext]
  exact (Smt.Reads.command hexpression hcommand (by decide)).append hlabel

theorem reads_checkSat : Smt.Reads (lineChars "(check-sat)") [.command .checkSat] := by
  have hword := printable_bare (s := "check-sat") (by decide)
  have hexpression : (Expression.list [.bare "check-sat"]).Printable :=
    printable_list (by simp [hword])
  refine reads_line ?_ hexpression rfl
  simp [Expression.chars, Expression.closedChars]

theorem toList_text (s : Script) : s.text.toList = s.lines.flatMap lineChars := by
  have hline : (fun line : String => (line ++ "\n").toList) = lineChars := by
    funext line
    exact String.toList_append
  rw [text, String.toList_join, List.flatMap_map, hline]

/-- The text of a script is read as its entries. -/
theorem Clean.read_text (h : s.Clean sort) : Smt.read s.text = some (s.entries sort) := by
  have hhead := (reads_title h).append ((reads_sequent h).append ((reads_setLogic s).append .nil))
  have hsort : Smt.Reads
      ((if s.firstOrder then ["(declare-sort " ++ s.sort ++ " 0)"] else []).flatMap lineChars)
      (if s.firstOrder then [.command (.declareSort sort)] else []) := by
    rw [h.sort_eq]
    split
    · exact (reads_declareSort h.sort_nameable).append .nil
    · exact .nil
  have hdeclarations : Smt.Reads (s.declarations.flatMap fun d => lineChars (d.text s.sort))
      (s.declarations.flatMap fun d => [.command (d.command sort)]) := by
    rw [h.sort_eq]
    exact .flatMap fun d hd => reads_declaration (h.declarations d hd) h.sort_nameable
  have hassertions : Smt.Reads
      (s.assertions.flatMap fun a => lineChars ("(assert " ++ a.1.text s.sort ++ ") ; " ++ a.2))
      (s.assertions.flatMap fun a =>
        [.command (.assert (a.1.statement sort)), .comment (" " ++ a.2)]) := by
    rw [h.sort_eq]
    exact .flatMap fun a ha => reads_assertion (h.sentences a ha) h.sort_nameable (h.labels a ha)
  have hlast := reads_checkSat.append .nil
  refine Smt.Reads.read_eq ?_
  rw [toList_text, lines, entries]
  simp only [List.flatMap_append, List.flatMap_map]
  exact (((hhead.append hsort).append hdeclarations).append hassertions).append hlast

theorem labelled_entries (s : Script) :
    (s.entries sort).labelled =
      s.assertions.map fun a => (a.1.statement sort, some (" " ++ a.2)) := by
  have hassertions : ∀ (as : List (Sentence × String)) (t : Smt.Script),
      Smt.Script.labelled (as.flatMap (fun a =>
          [.command (.assert (a.1.statement sort)), .comment (" " ++ a.2)]) ++ t) =
        as.map (fun a => (a.1.statement sort, some (" " ++ a.2))) ++ t.labelled := by
    intro as t
    induction as with
    | nil => rfl
    | cons a as ih => exact congrArg (_ :: ·) ih
  rw [entries, List.append_assoc, Smt.Script.labelled_append, hassertions]
  · simp [Smt.Script.labelled]
  · intro f hf
    cases hfirst : s.firstOrder <;> simp [hfirst, Declaration.command] at hf

/-- The commands in order: the logic, the declarations, the assertions, and the question. -/
theorem commands_entries (s : Script) :
    (s.entries sort).commands = [.setLogic s.logic] ++
      (if s.firstOrder then [.declareSort sort] else []) ++
      s.declarations.map (Declaration.command sort) ++
      s.assertions.map (fun a => .assert (a.1.statement sort)) ++ [.checkSat] := by
  have hdeclarations : ∀ ds : List Declaration,
      Smt.Script.commands (ds.flatMap fun d => [.command (d.command sort)]) =
        ds.map (Declaration.command sort) := by
    intro ds
    induction ds with
    | nil => rfl
    | cons d ds ih => exact congrArg (_ :: ·) ih
  have hassertions : ∀ as : List (Sentence × String),
      Smt.Script.commands (as.flatMap fun a =>
          [.command (.assert (a.1.statement sort)), .comment (" " ++ a.2)]) =
        as.map fun a => .assert (a.1.statement sort) := by
    intro as
    induction as with
    | nil => rfl
    | cons a as ih => exact congrArg (_ :: ·) ih
  rw [entries]
  simp only [Smt.Script.commands_append, hdeclarations, hassertions]
  cases s.firstOrder <;> rfl

theorem assertions_entries (s : Script) :
    (s.entries sort).assertions = s.assertions.map fun a => a.1.statement sort := by
  rw [Smt.Script.assertions, labelled_entries, List.map_map]
  rfl

/-- The context behind the declarations, with a sort where the script speaks about individuals. -/
def declared (sort : String) (s : Script) : Smt.Context :=
  Smt.Context.afterAll ⟨if s.firstOrder then some sort else none, []⟩
    (s.declarations.map (Declaration.command sort))

theorem allAdmissible_assertions {c : Smt.Context} {as : List (Sentence × String)}
    (h : ∀ a ∈ as, (a.1.statement sort).WellSorted c) :
    Smt.AllAdmissible c (as.map (fun a => .assert (a.1.statement sort)) ++ [.checkSat]) := by
  induction as with
  | nil => exact ⟨trivial, trivial⟩
  | cons a as ih =>
    rw [List.forall_mem_cons] at h
    exact ⟨h.1, ih h.2⟩

theorem wellSorted_entries (hnodup : (s.declarations.map Declaration.name).Nodup)
    (hsort : ∀ d ∈ s.declarations, s.firstOrder = true ∨ d.rank sort = ⟨[], .truth⟩)
    (hassertions : ∀ a ∈ s.assertions, (a.1.statement sort).WellSorted (s.declared sort)) :
    (s.entries sort).WellSorted := by
  have hdeclarations : Smt.AllAdmissible ⟨if s.firstOrder then some sort else none, []⟩
      (s.declarations.map (Declaration.command sort)) :=
    allAdmissible_declarations hnodup (fun _ _ => rfl) fun d hd =>
      (hsort d hd).imp_left fun hfirst => if_pos hfirst
  have hbehind := Smt.allAdmissible_append.mpr
    ⟨hdeclarations, allAdmissible_assertions hassertions⟩
  rw [Smt.Script.WellSorted, commands_entries, List.append_assoc, List.append_assoc,
    List.append_assoc]
  refine ⟨trivial, ?_⟩
  split
  · next hfirst =>
    rw [if_pos hfirst] at hbehind
    exact ⟨rfl, hbehind⟩
  · next hfirst =>
    rw [if_neg hfirst] at hbehind
    exact hbehind

end Script

end DeductionBoard.Query
