import Mathlib
import RelationalLP.Grounding.Blocks
import RelationalLP.Number.Double
import RelationalLP.Proofs.Facts.GuardedJoins
import RelationalLP.Proofs.Facts.MarkedTexts
import RelationalLP.Proofs.Facts.SatisfyingAssignments
import RelationalLP.Proofs.Flow.ModelText
import RelationalLP.Proofs.Logic.ConstantValues
import RelationalLP.Solving.Simplex

/-! # Names taken literally

The names of the source and the sink of a flow problem are put into the texts of its queries as they are. The
queries then are about the nodes with these names exactly when both names are lower-case words: every other
name is read as a variable, a number, a quoted text without its quotes or several words, if it is read at
all. -/

namespace RelationalLP

namespace Flow

open Token Formula

variable {K : Type} [Scalar K] {source sink : String}

/-! ### Queries about the names -/

/-- **Queries that mention the names**: the one constant of the objective's query is the sink's name, and those
of the last constraint's query are the names of the source and the sink, as texts. -/
structure MentionsNames (m : Model K) (source sink : String) : Prop where
  /-- The objective's query mentions the sink. -/
  objective : ∃ q e, m.objective = some (.sum q e) ∧ q.formula.constants = [.text sink]
  /-- The last constraint's query mentions the source and the sink. -/
  passing : ∃ q r, m.constraints.getLast? = some (.forAll q r)
    ∧ q.formula.constants = [.text source, .text sink]

/-- **Queries that select by the names**: whatever the facts are, the objective sums over the nodes with an
edge to the sink, and what enters a node leaves it for the nodes other than the source and the sink. -/
structure SelectsByNames (m : Model K) (source sink : String) : Prop where
  /-- The objective sums over the edges into the sink. -/
  objective : ∃ q e, m.objective = some (.sum q e)
    ∧ q.Selects fun fb t => ∃ x, t = [x] ∧ [x, .text sink] ∈ fb.rows "edge"
  /-- The last constraint is about the inner nodes. -/
  passing : ∃ q r, m.constraints.getLast? = some (.forAll q r)
    ∧ q.Selects fun fb t => ∃ v, t = [v] ∧ [v] ∈ fb.rows "node" ∧ v ≠ .text source ∧ v ≠ .text sink

/-! ### The queries of the model -/

omit [Scalar K] in
/-- A binding of one symbol is read as its cell. -/
theorem reads_bind_iff {symbol : Symbol} {x : Constant K} {t : Tuple K} :
    Valuation.Reads (Binding.bind .empty symbol x).get? [symbol] t ↔ t = [x] := by
  constructor
  · intro h
    exact h.unique (.cons (by rw [Binding.get?_bind, if_pos rfl]) .nil)
  · rintro rfl
    exact .cons (by rw [Binding.get?_bind, if_pos rfl]) .nil

/-- **A query of one symbol** selects the cells to which its symbol is bound. -/
theorem selects_of_solve {symbol : Symbol} {f : Formula K} {conjunction : Conjunction K}
    {P : FactBase K → Constant K → Prop} (hdnf : f.toDnf = [conjunction]) (hsymbol : symbol ∈ f.vars)
    (hsolve : ∀ fb : FactBase K, ∃ bs, fb.solve conjunction = .ok bs
      ∧ ∀ b, b ∈ bs ↔ ∃ x, P fb x ∧ Binding.bind .empty symbol x = b) :
    (Query.ofSymbols [symbol] f).Selects fun fb t => ∃ x, t = [x] ∧ P fb x := by
  intro fb
  obtain ⟨bs, hbs, hmem⟩ := hsolve fb
  have hbound : ∀ b ∈ bs, ∀ s ∈ [symbol], (b.get? s).isSome := by
    intro b hb s hs
    obtain ⟨x, -, rfl⟩ := (hmem b).mp hb
    rw [List.mem_singleton.mp hs, Binding.get?_bind, if_pos rfl]
    rfl
  obtain ⟨rows, hrows, hread⟩ := FactBase.exists_answers_of_solve hdnf
    (List.forall_mem_singleton.mpr hsymbol) hbs hbound
  refine ⟨rows, hrows, fun t => (hread t).trans ?_⟩
  constructor
  · rintro ⟨b, hb, ht⟩
    obtain ⟨x, hx, rfl⟩ := (hmem b).mp hb
    exact ⟨x, reads_bind_iff.mp ht, hx⟩
  · rintro ⟨x, rfl, hx⟩
    exact ⟨_, (hmem _).mpr ⟨x, hx, rfl⟩, reads_bind_iff.mpr rfl⟩

/-- The edges into a node are joined by binding their first ends. -/
theorem mem_join_edgesInto {fb : FactBase K} {symbol target : String} {b : Binding K} :
    b ∈ fb.join [.empty] (edgeAtom (variableTerm symbol) (.const (.text target)))
      ↔ ∃ x, [x, .text target] ∈ fb.rows "edge" ∧ Binding.bind .empty ⟨symbol⟩ x = b := by
  rw [FactBase.mem_join]
  constructor
  · rintro ⟨b₀, hb₀, row, hrow, hlength, hunify⟩
    obtain rfl := List.mem_singleton.mp hb₀
    match row, hlength with
    | [x, y], _ =>
      simp only [edgeAtom, relationAtom, Atom.substitute, List.map_cons, List.map_nil, Term.substitute,
        variableTerm, Binding.get?_empty, FactBase.unify, Constant.sameValue_text_left_iff,
        Option.ite_none_right_eq_some, Option.some.injEq] at hunify
      obtain ⟨rfl, rfl⟩ := hunify
      exact ⟨x, hrow, rfl⟩
  · rintro ⟨x, hrow, rfl⟩
    refine ⟨.empty, List.mem_singleton_self _, _, hrow, rfl, ?_⟩
    simp [edgeAtom, relationAtom, Atom.substitute, Term.substitute, variableTerm, FactBase.unify]

/-- **The query of the edges into a node** selects their first ends. -/
theorem selects_edgesInto (symbol target : String) :
    (edgesInto (K := K) symbol (.const (.text target))).Selects fun fb t =>
      ∃ x, t = [x] ∧ [x, .text target] ∈ fb.rows "edge" :=
  selects_of_solve (P := fun fb x => [x, .text target] ∈ fb.rows "edge")
    (f := .atom (edgeAtom (variableTerm symbol) (.const (.text target)))) rfl
    (List.mem_singleton_self (Symbol.mk symbol))
    fun fb => ⟨_, FactBase.solve_positive fb [_], fun _ => mem_join_edgesInto⟩

/-- The nodes are joined by binding them. -/
theorem mem_join_nodes {fb : FactBase K} {b : Binding K} :
    b ∈ fb.join [.empty] (nodeAtom (variableTerm "V"))
      ↔ ∃ v, [v] ∈ fb.rows "node" ∧ Binding.bind .empty ⟨"V"⟩ v = b := by
  rw [FactBase.mem_join]
  constructor
  · rintro ⟨b₀, hb₀, row, hrow, hlength, hunify⟩
    obtain rfl := List.mem_singleton.mp hb₀
    match row, hlength with
    | [v], _ => exact ⟨v, hrow, Option.some.inj hunify⟩
  · rintro ⟨v, hrow, rfl⟩
    exact ⟨.empty, List.mem_singleton_self _, _, hrow, rfl, rfl⟩

/-- A node is no other node under the binding of its variable. -/
theorem kleene_otherThan_iff {node : String} {v : Constant K} :
    (otherThan "V" node).kleene (Binding.bind .empty ⟨"V"⟩ v).get? = some true ↔ v ≠ .text node := by
  have hcompare : (otherThan "V" node).kleene (Binding.bind .empty ⟨"V"⟩ v).get?
      = CompareOp.ne.kleene (v.compareValue (.text node)) := rfl
  rw [hcompare]
  cases v with
  | text s => simp [Constant.compareValue, CompareOp.kleene, CompareOp.holds]
  | integer n => exact iff_of_true rfl fun h => by cases h
  | real x => exact iff_of_true rfl fun h => by cases h

/-- Where the source is the sink, the simplified query names it once. -/
theorem toDnf_innerNodes (source sink : String) : (innerNodes (K := K) source sink).formula.toDnf
    = [FactBase.guarded (nodeAtom (variableTerm "V"))
        (distinct [otherThan "V" source, otherThan "V" sink]) []] := by
  have hgs : ∀ node : String, simplifyList [Formula.atom (nodeAtom (variableTerm (K := K) "V")),
      .compare (otherThan "V" source), .compare (otherThan "V" node)]
        = [.atom (nodeAtom (variableTerm "V")), .compare (otherThan "V" source),
          .compare (otherThan "V" node)] := fun _ => rfl
  rcases eq_or_ne source sink with rfl | hne
  · have hguards : distinct [otherThan (K := K) "V" source, otherThan "V" source]
        = [otherThan "V" source] := by
      simp [distinct, insertNew]
    have hkept : distinct [Formula.atom (nodeAtom (variableTerm (K := K) "V")),
        .compare (otherThan "V" source), .compare (otherThan "V" source)]
          = [.atom (nodeAtom (variableTerm "V")), .compare (otherThan "V" source)] := by
      simp [distinct, insertNew]
    rw [hguards, toDnf]
    exact congrArg (dnf false) (simplify_conj_eq_of_distinct (hgs source) (by simp) rfl hkept le_rfl)
  · have hguards : [otherThan (K := K) "V" source, otherThan "V" sink].Nodup := by simp [otherThan, hne]
    have hkept : [Formula.atom (nodeAtom (variableTerm (K := K) "V")),
        .compare (otherThan "V" source), .compare (otherThan "V" sink)].Nodup := by simp [otherThan, hne]
    rw [distinct_of_nodup hguards, toDnf]
    exact congrArg (dnf false) (simplify_conj_eq (hgs sink) (by simp) rfl hkept (Nat.le_succ 2))

/-- The nodes are joined, and those that are the source or the sink are left out. -/
theorem exists_solve_innerNodes (source sink : String) (fb : FactBase K) :
    ∃ bs, fb.solve (FactBase.guarded (nodeAtom (variableTerm "V"))
        (distinct [otherThan "V" source, otherThan "V" sink]) []) = .ok bs
      ∧ ∀ b, b ∈ bs ↔ ∃ v, ([v] ∈ fb.rows "node" ∧ v ≠ .text source ∧ v ≠ .text sink)
        ∧ Binding.bind .empty ⟨"V"⟩ v = b := by
  have hguard : ∀ {P : Comparison K → Prop}, (∀ c ∈ distinct [otherThan "V" source, otherThan "V" sink], P c)
      ↔ P (otherThan "V" source) ∧ P (otherThan "V" sink) := by
    simp
  refine ⟨_, FactBase.solve_guarded [] (hguard.mpr ⟨rfl, rfl⟩)
    (hguard.mpr ⟨fun x hx => hx, fun x hx => hx⟩), fun b => ?_⟩
  rw [List.foldl_nil, FactBase.mem_foldl_check, mem_join_nodes, hguard]
  · constructor
    · rintro ⟨⟨v, hv, rfl⟩, hsource, hsink⟩
      exact ⟨v, ⟨hv, kleene_otherThan_iff.mp hsource, kleene_otherThan_iff.mp hsink⟩, rfl⟩
    · rintro ⟨v, ⟨hv, hsource, hsink⟩, rfl⟩
      exact ⟨⟨v, hv, rfl⟩, kleene_otherThan_iff.mpr hsource, kleene_otherThan_iff.mpr hsink⟩
  · intro b hb
    obtain ⟨v, -, rfl⟩ := mem_join_nodes.mp hb
    have hV : ∀ x ∈ [Symbol.mk "V"], ((Binding.bind .empty ⟨"V"⟩ v).get? x).isSome :=
      List.forall_mem_singleton.mpr rfl
    exact hguard.mpr ⟨hV, hV⟩

/-- **The query of the inner nodes** selects the nodes other than the source and the sink. -/
theorem selects_innerNodes (source sink : String) :
    (innerNodes (K := K) source sink).Selects fun fb t =>
      ∃ v, t = [v] ∧ [v] ∈ fb.rows "node" ∧ v ≠ .text source ∧ v ≠ .text sink :=
  selects_of_solve (toDnf_innerNodes source sink) (List.mem_singleton_self (Symbol.mk "V"))
    (exists_solve_innerNodes source sink)

/-! ### Names in texts -/

/-- Lower-case words have the characters of words only. -/
theorem not_mem_of_startsWith {name : String} (h : StartsWith Char.isLower name) {c : Char}
    (hc : isWord c = false) : c ∉ name.toList := by
  obtain ⟨d, ds, rfl, hd, hds⟩ := h
  rw [String.toList_ofList, List.mem_cons, not_or]
  constructor
  · rintro rfl
    rw [isWord, Char.isAlphanum, Char.isAlpha, hd, Bool.or_true] at hc
    cases hc
  · intro hmem
    rw [hds c hmem] at hc
    cases hc

/-- The beginning of a lower-case word is one. -/
theorem startsWith_of_prefix {name word : String} (h : StartsWith Char.isLower word) (hne : name ≠ "")
    (hbegins : name.toList <+: word.toList) : StartsWith Char.isLower name := by
  obtain ⟨c, cs, rfl, hc, hcs⟩ := h
  rw [String.toList_ofList] at hbegins
  cases hname : name.toList with
  | nil => exact absurd (String.toList_eq_nil_iff.mp hname) hne
  | cons d ds =>
    rw [hname, List.cons_prefix_cons] at hbegins
    obtain ⟨rfl, hbegins⟩ := hbegins
    refine ⟨d, ds, ?_, hc, fun e he => hcs e (hbegins.subset he)⟩
    rw [← hname, String.ofList_toList]

/-- **A name with which a text of a parsed formula starts** is a lower-case word, where only the name can
bring quotes into the formula. -/
theorem startsWith_of_text {text name s : String} {f : Formula K} (h : Formula.parse text = .ok f)
    (hne : name ≠ "") (hquote : '\'' ∈ text.toList → '\'' ∈ name.toList)
    (hs : .const (.text s) ∈ f.terms) (hbegins : name.toList <+: s.toList) :
    StartsWith Char.isLower name := by
  rcases text_of_parse h hs with hword | ⟨hnone, hsome⟩
  · exact startsWith_of_prefix hword hne hbegins
  · exact absurd (hbegins.subset (hquote hsome)) hnone

variable {f : Formula K} {s : String}

/-- A text that starts with the sink's name, in the objective's query. -/
theorem startsWith_of_parse_edgesInto (h : Formula.parse ("edge(X, " ++ sink ++ ")") = .ok f)
    (hs : .const (.text s) ∈ f.terms) (hbegins : sink.toList <+: s.toList) :
    StartsWith Char.isLower sink := by
  refine startsWith_of_text h ?_ (fun hquote => ?_) hs hbegins
  · rintro rfl
    cases h.symm.trans (Formula.parse_eq_error_of_lexes (lexes_edgesInto lexes_nil) rfl)
  · simpa using hquote

/-- A text that starts with the source's name, in the query of the inner nodes. -/
theorem startsWith_of_parse_innerNodes
    (h : Formula.parse ("node(V) & V != " ++ source ++ " & V != " ++ sink) = .ok f)
    (hsink : StartsWith Char.isLower sink) (hs : .const (.text s) ∈ f.terms)
    (hbegins : source.toList <+: s.toList) : StartsWith Char.isLower source := by
  have hnone : '\'' ∉ sink.toList := not_mem_of_startsWith hsink rfl
  refine startsWith_of_text h ?_ (fun hquote => ?_) hs hbegins
  · rintro rfl
    have hempty : LexesTo "".toList ([] : List (Token K)) := lexes_nil
    cases h.symm.trans (Formula.parse_eq_error_of_lexes
      (lexes_innerNodes hempty (lexes_lower hsink)) rfl)
  · simpa [hnone] using hquote

/-! ### Names that are taken literally -/

/-- A fact base of one fact. -/
def oneFact (relation : String) (row : Tuple K) : FactBase K := ⟨[(relation, row)]⟩

omit [Scalar K] in
theorem rows_oneFact (relation : String) (row : Tuple K) : (oneFact relation row).rows relation = [row] := by
  simp [oneFact, FactBase.rows]

/-- **Only a lower-case sink is selected by its name**: the query cannot tell another name from the marked
one. -/
theorem startsWith_of_selects_edgesInto (h : Formula.parse ("edge(X, " ++ sink ++ ")") = .ok f)
    (hselects : (Query.ofSymbols [⟨"X"⟩] f).Selects fun fb t =>
      ∃ x, t = [x] ∧ [x, .text sink] ∈ fb.rows "edge") : StartsWith Char.isLower sink := by
  by_contra hword
  have hf : Domain.Knows (Function.fixedPoints (Constant.mark sink)) f.terms :=
    Constant.knows_fixedPoints_mark fun s hs hbegins =>
      hword (startsWith_of_parse_edgesInto h hs hbegins)
  obtain ⟨x, -, hrow⟩ := (hselects.mapConstants_iff (Constant.embeds_mark sink) hf
    (oneFact "edge" [.text sink, .text sink])).mpr
      ⟨[.text sink], ⟨.text sink, rfl, by rw [rows_oneFact]; exact List.mem_singleton_self _⟩, rfl⟩
  rw [FactBase.rows_mapConstants, rows_oneFact, List.map_singleton, List.mem_singleton] at hrow
  exact Constant.mark_text_self_ne sink (List.cons.inj (List.cons.inj hrow).2).1.symm

/-- **Only a lower-case source is left out by its name.** -/
theorem startsWith_of_selects_innerNodes
    (h : Formula.parse ("node(V) & V != " ++ source ++ " & V != " ++ sink) = .ok f)
    (hsink : StartsWith Char.isLower sink)
    (hselects : (Query.ofSymbols [⟨"V"⟩] f).Selects fun fb t =>
      ∃ v, t = [v] ∧ [v] ∈ fb.rows "node" ∧ v ≠ .text source ∧ v ≠ .text sink) :
    StartsWith Char.isLower source := by
  by_contra hword
  have hf : Domain.Knows (Function.fixedPoints (Constant.mark source)) f.terms :=
    Constant.knows_fixedPoints_mark fun s hs hbegins =>
      hword (startsWith_of_parse_innerNodes h hsink hs hbegins)
  -- the marked source is an inner node, as the mark stands in no word
  have hne : Constant.mark source (.text source : Constant K) ≠ .text sink := by
    rw [Constant.mark_text_self, ne_eq, Constant.text.injEq, String.ofList_eq]
    intro heq
    exact not_mem_of_startsWith hsink (c := '\x00') rfl
      (heq ▸ List.mem_append_right _ (List.mem_singleton_self _))
  have hrow : [Constant.mark source (.text source)]
      ∈ ((oneFact "node" [.text source] : FactBase K).mapConstants (Constant.mark source)).rows "node" := by
    rw [FactBase.rows_mapConstants, rows_oneFact]
    exact List.mem_singleton_self _
  obtain ⟨u, ⟨v, rfl, hv, hsource, -⟩, -⟩ := (hselects.mapConstants_iff (Constant.embeds_mark source) hf
    (oneFact "node" [.text source])).mp ⟨_, rfl, hrow, Constant.mark_text_self_ne source, hne⟩
  rw [rows_oneFact, List.mem_singleton] at hv
  exact hsource (List.cons.inj hv).1

/-- **Names are taken literally exactly when they are lower-case words.** For any two names, declaring the
flow problem gives a model whose queries mention the names as texts, and a model whose queries select by these
texts whatever the facts are, exactly when both names are words that start with a lower-case letter. -/
theorem maxFlow_takes_names_literally_tfae (grounder : Grounder K) (solver : Solver K)
    (source sink : String) :
    [StartsWith Char.isLower source ∧ StartsWith Char.isLower sink,
      ∃ p, maxFlow grounder solver source sink = .ok p ∧ MentionsNames p.model source sink,
      ∃ p, maxFlow grounder solver source sink = .ok p ∧ SelectsByNames p.model source sink].TFAE := by
  tfae_have 1 → 2 := fun ⟨hsource, hsink⟩ =>
    ⟨_, maxFlow_eq_ok grounder solver hsource hsink, ⟨_, _, rfl, rfl⟩, ⟨_, _, rfl, rfl⟩⟩
  tfae_have 1 → 3 := fun ⟨hsource, hsink⟩ =>
    ⟨_, maxFlow_eq_ok grounder solver hsource hsink, ⟨_, _, rfl, selects_edgesInto "X" sink⟩,
      ⟨_, _, rfl, selects_innerNodes source sink⟩⟩
  tfae_have 2 → 1 := by
    rintro ⟨p, hp, ⟨q, e, hq, hsink⟩, ⟨r, c, hr, hboth⟩⟩
    obtain ⟨into, inner, hinto, hinner, rfl⟩ := maxFlow_eq_ok_iff.mp hp
    cases hq
    cases hr
    have hmem : ∀ {g : Formula K} {s : String}, .text s ∈ g.constants → .const (.text s) ∈ g.terms := by
      intro g s hs
      obtain ⟨t, ht, hconst⟩ := List.mem_filterMap.mp hs
      cases t <;> cases hconst
      exact ht
    -- the sink is read first: the query of the inner nodes puts it behind the source
    have hword := startsWith_of_parse_edgesInto hinto
      (hmem (hsink ▸ List.mem_singleton_self _)) (List.prefix_refl _)
    exact ⟨startsWith_of_parse_innerNodes hinner hword (hmem (hboth ▸ List.mem_cons_self))
      (List.prefix_refl _), hword⟩
  tfae_have 3 → 1 := by
    rintro ⟨p, hp, ⟨q, e, hq, hsink⟩, ⟨r, c, hr, hboth⟩⟩
    obtain ⟨into, inner, hinto, hinner, rfl⟩ := maxFlow_eq_ok_iff.mp hp
    cases hq
    cases hr
    have hword := startsWith_of_selects_edgesInto hinto hsink
    exact ⟨startsWith_of_selects_innerNodes hinner hword hboth, hword⟩
  tfae_finish

/-- An edge into a node whose name is a text of one digit. -/
def edgeToDigit : FactBase Double := oneFact "edge" [.text "s", .text "7"]

/-- **A name that is no lower-case word is not found**: the sink `7` is read as a number, so the objective's
query does not select the node with the edge into it. -/
theorem maxFlow_reads_digit_as_number :
    edgeToDigit.rows "edge" = [[.text "s", .text "7"]] ∧ ∃ p q e,
      maxFlow (Blocks.ground edgeToDigit.knowledgeBase) (Simplex.solve .standard) "s" "7" = .ok p
        ∧ p.model.objective = some (.sum q e) ∧ edgeToDigit.ask q.symbols q.formula none = .ok [] := by
  have hs : StartsWith Char.isLower "s" := ⟨'s', [], rfl, rfl, nofun⟩
  have hdigit : LexesTo "7".toList [(constant (.integer 7) : Token Double)] :=
    lexes_integer (n := 7) ⟨by decide, by decide⟩
  have hinto : (Formula.parse ("edge(X, " ++ "7" ++ ")") : Except ExprError (Formula Double))
      = .ok (.atom (edgeAtom (variableTerm "X") (.const (.integer 7)))) :=
    Formula.parse_of_lexes (lexes_edgesInto hdigit) rfl
  have hinner := Formula.parse_of_lexes (lexes_innerNodes (lexes_lower (K := Double) hs) hdigit) rfl
  exact ⟨rows_oneFact _ _, _, _, _, maxFlow_eq_ok_iff.mpr ⟨_, _, hinto, hinner, rfl⟩, rfl,
    by decide +kernel⟩

end Flow

end RelationalLP
