import DeductionBoard.Proofs.Derivation.History
import DeductionBoard.Proofs.Query.Skolemization

/-! The header of a script. The title of an entailment is free text in a comment, and a comment ends
where its line does. Main results: titles without line breaks leave the commands of a query as they
are; behind a line break the text of a title is read as commands. -/

namespace DeductionBoard

namespace Smt

def Item.expression? : Item → Option Expression
  | .expression e => some e
  | .comment _ => none

/-- The commands of a text as they are written. Comments are left out. -/
def expressions (text : String) : Option (List Expression) :=
  (items text).map (List.filterMap Item.expression?)

theorem exists_expressions_of_read {text : String} {s : Script} (h : read text = some s) :
    ∃ es, expressions text = some es := by
  obtain ⟨is, his, -⟩ := Option.bind_eq_some_iff.mp h
  exact ⟨_, by rw [expressions, his, Option.map_some]⟩

theorem expressions_append {cs : List Char} {is : List Item} {text rest : String}
    (h : Spells cs is) (htext : text.toList = cs ++ rest.toList) :
    expressions text = (expressions rest).map (is.filterMap Item.expression? ++ ·) := by
  rw [expressions, h.items_append htext, expressions, Option.map_map, Option.map_map]
  congr 1
  funext js
  exact List.filterMap_append

end Smt

namespace Query

variable {o : Options} {e : Entailment} {t t' : String}

/-- The line of a title holds no command, however much the title looks like one. -/
theorem expressions_header (ht : SingleLine t) (rest : String) :
    Smt.expressions ("; proofwork " ++ t ++ "\n" ++ rest) = Smt.expressions rest := by
  have hline : SingleLine (" proofwork " ++ t) := (by decide : SingleLine " proofwork ").append ht
  have htext : ("; proofwork " ++ t ++ "\n" ++ rest).toList =
      ';' :: ((" proofwork " ++ t).toList ++ ['\n']) ++ rest.toList := by
    simp
  rw [Smt.expressions_append (Smt.Spells.comment hline) htext]
  exact Option.map_id'

/-- Behind the first line break a title is not part of the comment. -/
theorem expressions_broken_header (ht : SingleLine t) (more rest : String) :
    Smt.expressions ("; proofwork " ++ (t ++ "\n" ++ more) ++ "\n" ++ rest) =
      Smt.expressions (more ++ "\n" ++ rest) := by
  rw [← expressions_header ht (more ++ "\n" ++ rest)]
  simp only [String.append_assoc]

namespace Entailment

theorem Plain.read_text {s : Signature} (h : e.Plain o) (hs : e.signature = .ok s) :
    Smt.read (e.script o s).text = some ((e.script o s).entries o.sortName) := by
  cases ho : o.skolemize with
  | true => exact (h.clean_skolem ho hs).read_text
  | false => exact (h.clean ho hs).read_text

/-- The script asserts one sentence for each label, in the order of the labels. -/
theorem labels_script (o : Options) (e : Entailment) (s : Signature) :
    (e.script o s).labels = e.allLabels := by
  rw [Script.labels]
  cases ho : o.skolemize with
  | true =>
    rw [assertions_script_skolem ho]
    exact List.map_snd_zip (Nat.le_of_eq (length_skolemSentences e).symm)
  | false =>
    rw [assertions_script ho]
    exact List.map_snd_zip (Nat.le_of_eq (length_sentences e).symm)

theorem labels_entries (o : Options) (e : Entailment) (s : Signature) :
    ((e.script o s).entries o.sortName).labels =
      e.allLabels.map (fun label => some (" " ++ label)) := by
  rw [Smt.Script.labels, Script.labelled_entries, List.map_map, ← labels_script o e s,
    Script.labels, List.map_map]
  rfl

end Entailment

/-- Whatever the titles of two queries hold but line breaks, the queries fail alike or have the same
commands; where names and lines are plain, there is one assertion for each label. -/
theorem expressions_independent_of_title (o : Options) (e : Entailment) (ht : SingleLine t)
    (ht' : SingleLine t') :
    (∃ f, { e with title := t }.query o = .error f ∧ { e with title := t' }.query o = .error f) ∨
      ∃ q q', { e with title := t }.query o = .ok q ∧ { e with title := t' }.query o = .ok q' ∧
        Smt.expressions q.text = Smt.expressions q'.text ∧
          ({ e with title := t }.Plain o → ∃ s, Smt.read q.text = some s ∧
            s.labels = e.allLabels.map fun label => some (" " ++ label)) := by
  rcases Entailment.query_of_title o e with ⟨f, hf⟩ | ⟨rest, hrest⟩
  · exact .inl ⟨f, hf t, hf t'⟩
  obtain ⟨q, hq, htext⟩ := hrest t
  obtain ⟨q', hq', htext'⟩ := hrest t'
  refine .inr ⟨q, q', hq, hq', ?_, fun hplain => ?_⟩
  · rw [htext, htext', expressions_header ht, expressions_header ht']
  · unfold Entailment.query at hq
    split at hq
    · exact absurd hq (by simp)
    next s hs =>
    obtain rfl := Except.ok.inj hq
    exact ⟨_, hplain.read_text hs, Entailment.labels_entries o { e with title := t } s⟩

/-- A hypothesis from which the goal does not follow. -/
def unrelated (title : String) : Entailment :=
  ⟨[⟨.atom "P" [], "hyp_1", none⟩], .atom "Q" [], none, title⟩

theorem plain_unrelated (ht : SingleLine t) : (unrelated t).Plain .standard where
  names := (by decide : ∀ f ∈ (unrelated "").allFormulas, ∀ n ∈ f.names, IsIdentifier n)
  sort_simple := by decide
  sort_free := by decide
  title := ht
  labels := (by decide : ∀ h ∈ (unrelated "").hypotheses, SingleLine h.label)

/-- Titles that are made of commands and quotes. -/
theorem expressions_independent_of_title_quoted :
    SingleLine "x (assert false)" ∧ SingleLine "|;" ∧ (unrelated "x (assert false)").Plain .standard ∧
      ∃ q q', (unrelated "x (assert false)").query .standard = .ok q ∧
        (unrelated "|;").query .standard = .ok q' ∧
        Smt.expressions q.text = Smt.expressions q'.text ∧
        ∃ s, Smt.read q.text = some s ∧ s.labels = [some " hyp_1", some " goal"] := by
  have ht : SingleLine "x (assert false)" := by decide
  have ht' : SingleLine "|;" := by decide
  have hplain := plain_unrelated ht
  refine ⟨ht, ht', hplain, ?_⟩
  have hsignature : (unrelated "").signature = .ok [("P", .predicate 0), ("Q", .predicate 0)] := by
    decide
  rcases expressions_independent_of_title .standard (unrelated "") ht ht' with
    ⟨f, hf, -⟩ | ⟨q, q', hq, hq', heq, hlabels⟩
  · have hq := Entailment.query_of_signature (e := unrelated "x (assert false)") hsignature .standard
    exact absurd (hf.symm.trans hq) (by simp)
  · exact ⟨q, q', hq, hq', heq, hlabels hplain⟩

/-- A title with a line break adds an assertion that no label belongs to. -/
theorem expressions_of_broken_title : ∃ q q' es, (unrelated "x").query .standard = .ok q ∧
    (unrelated "x\n(assert false)").query .standard = .ok q' ∧ Smt.expressions q.text = some es ∧
      Smt.expressions q'.text = some (.list [.bare "assert", .bare "false"] :: es) := by
  have hx : SingleLine "x" := by decide
  have hsignature : (unrelated "").signature = .ok [("P", .predicate 0), ("Q", .predicate 0)] := by
    decide
  have hquery := Entailment.query_of_signature (e := unrelated "x") hsignature .standard
  rcases Entailment.query_of_title .standard (unrelated "") with ⟨f, hf⟩ | ⟨rest, hrest⟩
  · exact absurd ((hf "x").symm.trans hquery) (by simp)
  obtain ⟨q, hq, htext⟩ := hrest "x"
  obtain ⟨q', hq', htext'⟩ := hrest "x\n(assert false)"
  obtain rfl := Except.ok.inj (hquery.symm.trans hq)
  obtain ⟨es, hes⟩ := Smt.exists_expressions_of_read ((plain_unrelated hx).read_text hsignature)
  have hprintable : (Smt.Expression.list [.bare "assert", .bare "false"]).Printable :=
    printable_list (by simp [printable_bare (s := "assert") (by decide),
      printable_bare (s := "false") (by decide)])
  have hspells := Smt.Spells.expression hprintable (c := '\n') (by decide)
  refine ⟨_, q', es, hquery, hq', hes, ?_⟩
  have htitle : "x\n(assert false)" = "x" ++ "\n" ++ "(assert false)" := by decide
  have htail : ("(assert false)" ++ "\n" ++ rest).toList =
      (Smt.Expression.list [.bare "assert", .bare "false"]).chars ++ ['\n'] ++ rest.toList := by
    simp [Smt.Expression.chars, Smt.Expression.closedChars]
  rw [htext', htitle, expressions_broken_header hx, Smt.expressions_append hspells htail,
    ← expressions_header hx, ← htext]
  exact congrArg (Option.map _) hes

end Query

end DeductionBoard
