import DeductionBoard.Proofs.Query.Spelling
import DeductionBoard.Query.Script

/-! Declarations. A declaration is written as an expression that is read as a command. A list of
declarations of different symbols is admissible, and behind it every one of them has its rank. -/

namespace DeductionBoard.Query

open Smt (Expression)

variable {sort : String}

namespace Declaration

def expression (sort : String) : Declaration → Expression
  | .individual n => .list [.bare "declare-const", symbolExpression n, symbolExpression sort]
  | .predicate n 0 => .list [.bare "declare-const", symbolExpression n, .bare "Bool"]
  | .predicate n (k + 1) =>
    .list [.bare "declare-fun", symbolExpression n,
      .list (List.replicate (k + 1) (symbolExpression sort)), .bare "Bool"]
  | .witness i 0 => .list [.bare "declare-const", .bare (witnessName i), symbolExpression sort]
  | .witness i (k + 1) =>
    .list [.bare "declare-fun", .bare (witnessName i),
      .list (List.replicate (k + 1) (symbolExpression sort)), symbolExpression sort]

def name : Declaration → String
  | .individual n => n
  | .predicate n _ => n
  | .witness i _ => witnessName i

def rank (sort : String) : Declaration → Smt.Rank
  | .individual _ => ⟨[], .individual sort⟩
  | .predicate _ k => ⟨List.replicate k sort, .truth⟩
  | .witness _ k => ⟨List.replicate k sort, .individual sort⟩

def command (sort : String) (d : Declaration) : Smt.Command := .declare d.name (d.rank sort)

def Named : Declaration → Prop
  | .individual n => Nameable n
  | .predicate n _ => Nameable n
  | .witness _ _ => True

theorem chars_constant {e r : Expression} {t u : String} (he : e.chars = t.toList)
    (hr : r.chars = u.toList) :
    (Expression.list [.bare "declare-const", e, r]).chars =
      ("(declare-const " ++ t ++ " " ++ u ++ ")").toList := by
  have hhead : "(declare-const " = "(" ++ "declare-const" ++ " " := by decide
  have hlist : (Expression.list [.bare "declare-const", e, r]).chars =
      ("(" ++ spaced ["declare-const", t, u] ++ ")").toList :=
    chars_list (by simp [he, hr, Expression.chars])
  rw [hlist, hhead, spaced_cons_cons, spaced_cons_cons, spaced_singleton]
  simp only [String.append_assoc]

theorem chars_function {e r : Expression} {t u : String} (n : Nat) (he : e.chars = t.toList)
    (hr : r.chars = u.toList) :
    (Expression.list [.bare "declare-fun", e,
        .list (List.replicate n (symbolExpression sort)), r]).chars =
      ("(declare-fun " ++ t ++ " (" ++ spaced (List.replicate n (symbol sort)) ++ ") " ++ u ++
        ")").toList := by
  have hhead : "(declare-fun " = "(" ++ "declare-fun" ++ " " := by decide
  have hopen : " (" = " " ++ "(" := by decide
  have hclose : ") " = ")" ++ " " := by decide
  have harguments : (Expression.list (List.replicate n (symbolExpression sort))).chars =
      ("(" ++ spaced (List.replicate n (symbol sort)) ++ ")").toList :=
    chars_list (by rw [List.map_replicate, List.map_replicate, chars_symbolExpression])
  have hlist : (Expression.list [.bare "declare-fun", e,
        .list (List.replicate n (symbolExpression sort)), r]).chars =
      ("(" ++ spaced ["declare-fun", t, "(" ++ spaced (List.replicate n (symbol sort)) ++ ")", u] ++
        ")").toList :=
    chars_list (by
      rw [List.map_cons, List.map_cons, List.map_cons, List.map_cons, he, harguments, hr]
      rfl)
  rw [hlist, hhead, hopen, hclose, spaced_cons_cons, spaced_cons_cons, spaced_cons_cons,
    spaced_singleton]
  simp only [String.append_assoc]

theorem chars_expression (d : Declaration) :
    (d.expression sort).chars = (d.text (symbol sort)).toList := by
  have hs := chars_symbolExpression sort
  have hbool : (Expression.bare "Bool").chars = "Bool".toList := by rw [Expression.chars]
  cases d with
  | individual n => exact chars_constant (chars_symbolExpression n) hs
  | predicate n k =>
    cases k with
    | zero =>
      have htail : " Bool)" = " " ++ ("Bool" ++ ")") := by decide
      show _ = ("(declare-const " ++ symbol n ++ " Bool)").toList
      rw [expression, chars_constant (chars_symbolExpression n) hbool, htail]
      simp only [String.append_assoc]
    | succ k =>
      have htail : ") Bool)" = ") " ++ ("Bool" ++ ")") := by decide
      show _ = ("(declare-fun " ++ symbol n ++ " (" ++
        spaced (List.replicate (k + 1) (symbol sort)) ++ ") Bool)").toList
      rw [expression, chars_function (k + 1) (chars_symbolExpression n) hbool, htail]
      simp only [String.append_assoc]
  | witness i k =>
    have hname : (Expression.bare (witnessName i)).chars = (witnessName i).toList := by
      rw [Expression.chars]
    cases k with
    | zero => exact chars_constant hname hs
    | succ k => exact chars_function (k + 1) hname hs

theorem Named.printable {d : Declaration} (h : d.Named) (hsort : Nameable sort) :
    (d.expression sort).Printable := by
  have hs := printable_symbolExpression hsort
  have hlist : ∀ n, (Expression.list (List.replicate n (symbolExpression sort))).Printable := by
    intro n
    refine printable_list fun e he => ?_
    rw [List.eq_of_mem_replicate he]
    exact hs
  have hconst := printable_bare (s := "declare-const") (by decide)
  have hfun := printable_bare (s := "declare-fun") (by decide)
  have hbool := printable_bare (s := "Bool") (by decide)
  cases d with
  | individual n => exact printable_list (by simp [hconst, printable_symbolExpression h, hs])
  | predicate n k =>
    have hn := printable_symbolExpression h
    cases k with
    | zero => exact printable_list (by simp [hconst, hn, hbool])
    | succ k => exact printable_list (by simp [hfun, hn, hlist, hbool])
  | witness i k =>
    have hn := printable_bare (isSimpleSymbol_witnessName i).1
    cases k with
    | zero => exact printable_list (by simp [hconst, hn, hs])
    | succ k => exact printable_list (by simp [hfun, hn, hlist, hs])

theorem range?_of_symbol? {e : Expression} {s : String} (h : e.symbol? = some s) :
    e.range? = some (.individual s) := by
  have hbool : (Expression.bare "Bool").symbol? = none := by decide
  unfold Expression.range?
  split
  · exact absurd (hbool.symm.trans h) (by simp)
  · rw [h, Option.map_some]

theorem Named.command? {d : Declaration} (h : d.Named) (hsort : Nameable sort) :
    (d.expression sort).command? = some (d.command sort) := by
  have hs := symbol?_symbolExpression hsort
  have hr := range?_of_symbol? hs
  have hbool : (Expression.bare "Bool").range? = some .truth := rfl
  have hargs : ∀ n, (List.replicate n (symbolExpression sort)).mapM Expression.symbol? =
      some (List.replicate n sort) := by
    intro n
    refine mapM_eq_some_iff.mpr ?_
    rw [List.map_replicate, List.map_replicate, hs]
  cases d with
  | individual n => rw [expression, Expression.command?, symbol?_symbolExpression h, hr]; rfl
  | predicate n k =>
    have hn := symbol?_symbolExpression h
    cases k with
    | zero => rw [expression, Expression.command?, hn, hbool]; rfl
    | succ k => rw [expression, Expression.command?, hn, hargs, hbool]; rfl
  | witness i k =>
    obtain ⟨hsimple, hreserved⟩ := isSimpleSymbol_witnessName i
    have hn := symbol?_bare hsimple hreserved
    cases k with
    | zero => rw [expression, Expression.command?, hn, hr]; rfl
    | succ k => rw [expression, Expression.command?, hn, hargs, hr]; rfl

end Declaration

section Contexts

variable {c : Smt.Context} {ds : List Declaration}

theorem sort_afterAll_declarations (c : Smt.Context) (ds : List Declaration) :
    (c.afterAll (ds.map (Declaration.command sort))).sort = c.sort := by
  induction ds generalizing c with
  | nil => rfl
  | cons d ds ih => exact ih _

theorem rank?_after_declaration (d : Declaration) (n : String) :
    (c.after (d.command sort)).rank? n = if n = d.name then some (d.rank sort) else c.rank? n := by
  show List.lookup n ((d.name, d.rank sort) :: c.ranks) = _
  rw [List.lookup_cons]
  by_cases hn : n = d.name
  · rw [if_pos hn, hn, beq_self_eq_true]
  · rw [if_neg hn, beq_false_of_ne hn]
    rfl

/-- Declarations leave other symbols alone. -/
theorem rank?_afterAll_of_notMem (sort : String) {n : String} (h : n ∉ ds.map Declaration.name) :
    (c.afterAll (ds.map (Declaration.command sort))).rank? n = c.rank? n := by
  induction ds generalizing c with
  | nil => rfl
  | cons d ds ih =>
    rw [List.map_cons, List.mem_cons, not_or] at h
    have := ih (c := c.after (d.command sort)) h.2
    rw [rank?_after_declaration, if_neg h.1] at this
    exact this

theorem rank?_afterAll_of_mem {d : Declaration} (hnodup : (ds.map Declaration.name).Nodup)
    (hd : d ∈ ds) :
    (c.afterAll (ds.map (Declaration.command sort))).rank? d.name = some (d.rank sort) := by
  induction ds generalizing c with
  | nil => exact absurd hd List.not_mem_nil
  | cons d' ds ih =>
    rw [List.map_cons, List.nodup_cons] at hnodup
    rcases List.mem_cons.mp hd with rfl | hd
    · have := rank?_afterAll_of_notMem (c := c.after (d.command sort)) sort hnodup.1
      rw [rank?_after_declaration, if_pos rfl] at this
      exact this
    · exact ih hnodup.2 hd

/-- A declaration speaks of no other sort. -/
theorem eq_of_rank (sort : String) (d : Declaration) :
    (∀ s ∈ (d.rank sort).arguments, s = sort) ∧
      ∀ s, (d.rank sort).range = .individual s → s = sort := by
  cases d with
  | individual n => exact ⟨by simp [Declaration.rank], fun s hs => (Smt.Range.individual.inj hs).symm⟩
  | predicate n k =>
    exact ⟨fun s hs => List.eq_of_mem_replicate hs, fun s hs => absurd hs (by simp [Declaration.rank])⟩
  | witness i k =>
    exact ⟨fun s hs => List.eq_of_mem_replicate hs, fun s hs => (Smt.Range.individual.inj hs).symm⟩

/-- Declarations of different new symbols are admissible, where the sort is declared or not needed. -/
theorem allAdmissible_declarations (hnodup : (ds.map Declaration.name).Nodup)
    (hfresh : ∀ d ∈ ds, c.rank? d.name = none)
    (hsort : ∀ d ∈ ds, c.sort = some sort ∨ d.rank sort = ⟨[], .truth⟩) :
    Smt.AllAdmissible c (ds.map (Declaration.command sort)) := by
  induction ds generalizing c with
  | nil => trivial
  | cons d ds ih =>
    rw [List.map_cons, List.nodup_cons] at hnodup
    rw [List.forall_mem_cons] at hfresh hsort
    obtain ⟨harguments, hrange⟩ := eq_of_rank sort d
    refine ⟨⟨hfresh.1, fun s hs => ?_, fun s hs => ?_⟩, ih hnodup.2 (fun d' hd' => ?_) hsort.2⟩
    · rcases hsort.1 with hdeclared | hnone
      · rw [harguments s hs, hdeclared]
      · rw [hnone] at hs
        exact absurd hs List.not_mem_nil
    · rcases hsort.1 with hdeclared | hnone
      · rw [hrange s hs, hdeclared]
      · rw [hnone] at hs
        exact absurd hs (by simp)
    · have hne : d'.name ≠ d.name := fun heq => hnodup.1 (heq ▸ List.mem_map_of_mem hd')
      rw [rank?_after_declaration, if_neg hne]
      exact hfresh.2 d' hd'

end Contexts

end DeductionBoard.Query
