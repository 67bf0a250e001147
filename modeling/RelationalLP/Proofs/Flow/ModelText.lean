import Mathlib
import RelationalLP.Problem.Flow
import RelationalLP.Proofs.Collections.Traversal
import RelationalLP.Proofs.Logic.WrittenFormulas

/-! # The text of the flow model

The queries of the flow model are given by their texts, into which the names of the source and the sink
are put. Names that are words of lower-case letters are read as themselves, so declaring the problem
succeeds and gives one model whose queries are known. -/

namespace RelationalLP

variable {K : Type}

/-! ### Reading queries -/

section

variable [Scalar K]

open Token Formula

/-- A text that is scanned as some tokens is read as these are. -/
theorem Formula.bind_ofTokens?_of_lexes {text : String} {ts : List (Token K)}
    (h : LexesTo text.toList ts) : (scan? text.toList).bind ofTokens? = ofTokens? ts := by
  have hscan := h [] ends_nil
  rw [List.append_nil, scan?_nil, Option.map_some, List.append_nil] at hscan
  rw [hscan, Option.bind_some]

/-- A text that is scanned as tokens of a formula is parsed as this formula. -/
theorem Formula.parse_of_lexes {text : String} {ts : List (Token K)} {f : Formula K}
    (h : LexesTo text.toList ts) (hf : ofTokens? ts = some f) : parse text = .ok f := by
  rw [parse, bind_ofTokens?_of_lexes h, hf]

/-- A text that is scanned as tokens of no formula is not parsed. -/
theorem Formula.parse_eq_error_of_lexes {text : String} {ts : List (Token K)}
    (h : LexesTo text.toList ts) (hnone : ofTokens? ts = none) :
    (parse text : Except ExprError (Formula K)) = .error .malformed := by
  rw [parse, bind_ofTokens?_of_lexes h, hnone]

end

namespace Flow

/-! ### The queries -/

/-- A node. -/
def nodeAtom (node : Term K) : Atom K := Formula.relationAtom "node" [node]

/-- An edge from one node to another. -/
def edgeAtom (source target : Term K) : Atom K := Formula.relationAtom "edge" [source, target]

/-- The edges into the node that a term stands for, by their first ends. -/
def edgesInto (symbol : String) (target : Term K) : Query K :=
  .ofSymbols [⟨symbol⟩] (.atom (edgeAtom (variableTerm symbol) target))

/-- The edges out of the node that a term stands for, by their second ends. -/
def edgesOutOf (symbol : String) (source : Term K) : Query K :=
  .ofSymbols [⟨symbol⟩] (.atom (edgeAtom source (variableTerm symbol)))

/-- All edges. -/
def allEdges : Query K :=
  .ofSymbols [⟨"X"⟩, ⟨"Y"⟩] (.atom (edgeAtom (variableTerm "X") (variableTerm "Y")))

/-- The condition that a variable is no given node. -/
def otherThan (symbol node : String) : Comparison K :=
  ⟨variableTerm symbol, .ne, .const (.text node)⟩

/-- The nodes other than the source and the sink. -/
def innerNodes (source sink : String) : Query K :=
  .ofSymbols [⟨"V"⟩] (.conj [.atom (nodeAtom (variableTerm "V")),
    .compare (otherThan "V" source), .compare (otherThan "V" sink)])

variable [Scalar K]

/-! ### The model -/

/-- The flow along the edges into the sink. -/
def intoSink (sink : String) : Expr K :=
  .sum (edgesInto "X" (.const (.text sink))) (flow (variableTerm "X") (.const (.text sink)))

/-- No edge carries more than its capacity. -/
def withinCapacity : Constraint K :=
  .forAll allEdges ⟨flow (variableTerm "X") (variableTerm "Y"), .le,
    capacity (variableTerm "X") (variableTerm "Y")⟩

/-- No edge carries less than nothing. -/
def notNegative : Constraint K :=
  .forAll allEdges ⟨flow (variableTerm "X") (variableTerm "Y"), .ge, .constant 0⟩

/-- Nodes other than the source and the sink pass on what they receive. -/
def passedOn (source sink : String) : Constraint K :=
  .forAll (innerNodes source sink)
    ⟨.sum (edgesInto "U" (variableTerm "V")) (flow (variableTerm "U") (variableTerm "V")), .eq,
      .sum (edgesOutOf "W" (variableTerm "V")) (flow (variableTerm "V") (variableTerm "W"))⟩

/-- The model of the greatest flow between two nodes. -/
def model (source sink : String) : Model K where
  sense := .maximize
  objective := some (intoSink sink)
  constraints := [withinCapacity, notNegative, passedOn source sink]
  decision := [flowTemplate]

/-! ### The texts -/

open Token Formula

variable {source sink : String}

/-- The one letter of a variable of the model. -/
theorem lexes_variable {c : Char} (hc : c.isUpper = true) :
    LexesTo [c] [(upper (String.ofList [c]) : Token K)] := by
  have hword : StartsWith Char.isUpper (String.ofList [c]) := ⟨c, [], rfl, hc, nofun⟩
  have hlex := lexes_upper (K := K) hword
  rwa [String.toList_ofList] at hlex

/-- An edge from a word. -/
theorem lexes_edge {cs ds : List Char} {t : Token K} {us : List (Token K)} (ht : LexesTo cs [t])
    (hu : LexesTo ds us) : LexesTo ("edge(".toList ++ (cs ++ (", ".toList ++ (ds ++ [')']))))
      (lower "edge" :: .opening :: t :: .comma :: (us ++ [.closing])) := by
  have hedge : StartsWith Char.isLower "edge" :=
    ⟨'e', ['d', 'g', 'e'], rfl, rfl, List.all_eq_true.mp rfl⟩
  have harguments : LexesTo (cs ++ (", ".toList ++ (ds ++ [')']))) (t :: .comma :: (us ++ [.closing])) :=
    ht.append (ends_cons rfl (by decide) _) (hu.closing.blank.cons rfl fun _ => rfl)
  exact (lexes_lower hedge).append (ends_cons rfl (by decide) _)
    (harguments.cons (c := '(') (t := .opening) rfl fun _ => rfl)

theorem parse_edge_variables {text : String} {c d : Char} (hc : c.isUpper = true)
    (hd : d.isUpper = true) (htext : text.toList = "edge(".toList ++ ([c] ++ (", ".toList ++ [d, ')']))) :
    Formula.parse text = .ok (Formula.atom (edgeAtom (variableTerm (String.ofList [c]))
      (variableTerm (String.ofList [d]))) : Formula K) := by
  have hlex := lexes_edge (K := K) (lexes_variable hc) (lexes_variable hd)
  exact Formula.parse_of_lexes (by rw [htext]; exact hlex) rfl

/-- The text of the objective's query, whatever the sink is read as. -/
theorem lexes_edgesInto {us : List (Token K)} (hsink : LexesTo sink.toList us) :
    LexesTo ("edge(X, " ++ sink ++ ")").toList
      (lower "edge" :: .opening :: upper "X" :: .comma :: (us ++ [.closing])) := by
  have htext : ("edge(X, " ++ sink ++ ")").toList
      = "edge(".toList ++ (['X'] ++ (", ".toList ++ (sink.toList ++ [')']))) := by
    rw [String.toList_append, String.toList_append, List.append_assoc]
    rfl
  rw [htext]
  exact lexes_edge (lexes_variable (c := 'X') rfl) hsink

theorem parse_edgesInto (h : StartsWith Char.isLower sink) :
    Formula.parse ("edge(X, " ++ sink ++ ")")
      = .ok (Formula.atom (edgeAtom (variableTerm "X") (.const (.text sink))) : Formula K) :=
  Formula.parse_of_lexes (lexes_edgesInto (lexes_lower h)) rfl

/-- The text of the query of the inner nodes, whatever the source and the sink are read as. -/
theorem lexes_innerNodes {ts us : List (Token K)} (hsource : LexesTo source.toList ts)
    (hsink : LexesTo sink.toList us) :
    LexesTo ("node(V) & V != " ++ source ++ " & V != " ++ sink).toList
      ([lower "node", .opening, upper "V", .closing, .amp, upper "V", .op .ne] ++ ts
        ++ ([.amp, upper "V", .op .ne] ++ us)) := by
  have hnode : StartsWith Char.isLower "node" :=
    ⟨'n', ['o', 'd', 'e'], rfl, rfl, List.all_eq_true.mp rfl⟩
  have hother : ∀ {cs : List Char} {ts : List (Token K)}, LexesTo cs ts →
      LexesTo ("V != ".toList ++ cs) (upper "V" :: .op .ne :: ts) :=
    fun hname => (lexes_variable rfl).append (ends_cons rfl (by decide) _) (hname.comparison .ne)
  have hand : ∀ {cs : List Char} {ts : List (Token K)}, LexesTo cs ts →
      LexesTo (" & ".toList ++ cs) (.amp :: ts) := fun h => (h.blank.cons rfl fun _ => rfl).blank
  have hclosed : LexesTo ['V', ')'] [(upper "V" : Token K), .closing] := (lexes_variable rfl).closing
  have hatom := (lexes_lower hnode).append (ends_cons rfl (by decide) _)
    (hclosed.cons (c := '(') (t := .opening) rfl fun _ => rfl)
  -- the text is cut into words that end before the next one starts
  have hlex := hatom.append (ends_cons rfl (by decide) _)
    (hand ((hother hsource).append (ends_cons rfl (by decide) _) (hand (hother hsink))))
  have htext : ("node(V) & V != " ++ source ++ " & V != " ++ sink).toList
      = "node".toList ++ ['(', 'V', ')'] ++ (" & ".toList ++ ("V != ".toList ++ source.toList
        ++ (" & ".toList ++ ("V != ".toList ++ sink.toList)))) := by
    rw [String.toList_append, String.toList_append, String.toList_append, List.append_assoc,
      List.append_assoc]
    rfl
  rw [htext]
  exact hlex

theorem parse_innerNodes (hsource : StartsWith Char.isLower source)
    (hsink : StartsWith Char.isLower sink) :
    Formula.parse ("node(V) & V != " ++ source ++ " & V != " ++ sink)
      = .ok (innerNodes (K := K) source sink).formula :=
  Formula.parse_of_lexes (lexes_innerNodes (lexes_lower hsource) (lexes_lower hsink)) rfl

/-- A query is read from its text when the text is that of a formula. -/
theorem query_eq_ok_iff {symbols : List String} {text : String} {q : Query K} :
    query symbols text = .ok q
      ↔ ∃ f, Formula.parse text = .ok f ∧ Query.ofSymbols (symbols.map Symbol.mk) f = q := by
  rw [query, Query.parse]
  cases (Formula.parse text : Except ExprError (Formula K)) with
  | error e => exact iff_of_false nofun fun ⟨_, h, _⟩ => nomatch h
  | ok f =>
    constructor
    · rintro ⟨⟩
      exact ⟨f, rfl, rfl⟩
    · rintro ⟨g, hg, rfl⟩
      rw [← Except.ok.inj hg]
      rfl

/-- The model whose queries with names ask for two formulas. -/
def modelWith (sink : String) (into inner : Formula K) : Model K where
  sense := .maximize
  objective := some (.sum (.ofSymbols [⟨"X"⟩] into) (flow (variableTerm "X") (.const (.text sink))))
  constraints := [withinCapacity, notNegative, .forAll (.ofSymbols [⟨"V"⟩] inner)
    ⟨.sum (edgesInto "U" (variableTerm "V")) (flow (variableTerm "U") (variableTerm "V")), .eq,
      .sum (edgesOutOf "W" (variableTerm "V")) (flow (variableTerm "V") (variableTerm "W"))⟩]
  decision := [flowTemplate]

/-- **What declaring the flow problem does**: it reads two formulas from the texts with the names, and gives
the model whose queries ask for them. -/
theorem maxFlow_eq_ok_iff {grounder : Grounder K} {solver : Solver K} {p : Problem K} :
    maxFlow grounder solver source sink = .ok p
      ↔ ∃ into inner, Formula.parse ("edge(X, " ++ sink ++ ")") = .ok into
        ∧ Formula.parse ("node(V) & V != " ++ source ++ " & V != " ++ sink) = .ok inner
        ∧ { name := "maxflow", model := modelWith sink into inner, grounder, solver } = p := by
  have hedges : query ["X", "Y"] "edge(X, Y)" = .ok (allEdges (K := K)) :=
    query_eq_ok_iff.mpr ⟨_, parse_edge_variables (c := 'X') (d := 'Y') rfl rfl rfl, rfl⟩
  have hU : query ["U"] "edge(U, V)" = .ok (edgesInto (K := K) "U" (variableTerm "V")) :=
    query_eq_ok_iff.mpr ⟨_, parse_edge_variables (c := 'U') (d := 'V') rfl rfl rfl, rfl⟩
  have hW : query ["W"] "edge(V, W)" = .ok (edgesOutOf (K := K) "W" (variableTerm "V")) :=
    query_eq_ok_iff.mpr ⟨_, parse_edge_variables (c := 'V') (d := 'W') rfl rfl rfl, rfl⟩
  unfold maxFlow
  rw [hedges, hU, hW]
  constructor
  · intro h
    obtain ⟨declared, hdeclared, h⟩ := bind_eq_ok_iff.mp h
    obtain ⟨q, hq, h⟩ := bind_eq_ok_iff.mp h
    obtain ⟨into, hinto, rfl⟩ := query_eq_ok_iff.mp hq
    obtain ⟨aimed, haimed, h⟩ := bind_eq_ok_iff.mp h
    obtain ⟨edges, hedge, h⟩ := bind_eq_ok_iff.mp h
    obtain ⟨r, hr, h⟩ := bind_eq_ok_iff.mp h
    obtain ⟨inner, hinner, rfl⟩ := query_eq_ok_iff.mp hr
    -- only the two queries with names depend on what they are read as
    cases hdeclared
    cases haimed
    cases hedge
    cases h
    exact ⟨into, inner, hinto, hinner, rfl⟩
  · rintro ⟨into, inner, hinto, hinner, rfl⟩
    rw [query_eq_ok_iff.mpr ⟨into, hinto, rfl⟩, query_eq_ok_iff.mpr ⟨inner, hinner, rfl⟩]
    rfl

/-- **Declaring the flow problem succeeds** for a source and a sink whose names are words of lower-case
letters, and gives the model of the greatest flow between them. -/
theorem maxFlow_eq_ok (grounder : Grounder K) (solver : Solver K)
    (hsource : StartsWith Char.isLower source) (hsink : StartsWith Char.isLower sink) :
    maxFlow grounder solver source sink
      = .ok { name := "maxflow", model := model source sink, grounder, solver } :=
  maxFlow_eq_ok_iff.mpr ⟨_, _, parse_edgesInto hsink, parse_innerNodes hsource hsink, rfl⟩

end Flow

end RelationalLP
