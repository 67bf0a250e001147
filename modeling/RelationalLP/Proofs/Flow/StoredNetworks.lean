import Mathlib
import RelationalLP.Number.Rational
import RelationalLP.Proofs.Expr.ValuePreservation
import RelationalLP.Proofs.Facts.GuardedJoins
import RelationalLP.Proofs.Flow.ModelText
import RelationalLP.Proofs.Flow.Networks
import RelationalLP.Proofs.Logic.ConstantValues

/-! # Networks in fact bases

A fact base stores a network when its nodes, its edges and the capacity of each edge are rows. The
queries of the flow model then list the edges and nodes that they are about, each once: the edges into
or out of a node, all edges, the nodes besides the source and the sink, and the edges at these. -/

namespace RelationalLP

namespace Flow

open FactBase Formula

variable {N : Network} {fb : FactBase ℚ} {source sink : String}

/-- **A fact base that stores a network**: the rows of the nodes and of the edges are those of the network,
and each edge has one row with a number, its capacity. -/
structure Network.StoredIn (N : Network) (fb : FactBase ℚ) : Prop where
  /-- The nodes are the rows of one cell. -/
  node_iff : ∀ row, row ∈ fb.rows "node" ∧ row.length = 1 ↔ ∃ v ∈ N.nodes, row = [.text v]
  /-- The edges are the rows of two cells. -/
  edge_iff : ∀ row, row ∈ fb.rows "edge" ∧ row.length = 2
    ↔ ∃ e ∈ N.edges, row = [.text e.1, .text e.2]
  /-- Each edge has one row with its capacity. -/
  capacity_eq : ∀ e ∈ N.edges, ∃ c : Constant ℚ, c.number? = some (N.capacity e)
    ∧ (fb.rows "cap").filter (fun row => row.length = 3 ∧ row.take 2 = [.text e.1, .text e.2])
      = [[.text e.1, .text e.2, c]]

/-- The nodes other than the source and the sink. -/
def Network.inner (N : Network) (source sink : String) : Finset String :=
  {v ∈ N.nodes | v ≠ source ∧ v ≠ sink}

theorem Network.mem_inner {v : String} :
    v ∈ N.inner source sink ↔ v ∈ N.nodes ∧ v ≠ source ∧ v ≠ sink := Finset.mem_filter

/-! ### Joins -/

theorem mem_join_node (h : N.StoredIn fb) {bs : List (Binding ℚ)} {t : Term ℚ} {b' : Binding ℚ} :
    b' ∈ fb.join bs (nodeAtom t)
      ↔ ∃ b ∈ bs, ∃ v ∈ N.nodes, unify b [t.substitute b] [.text v] = some b' := by
  rw [mem_join]
  refine exists_congr fun b => and_congr_right fun _ => ?_
  constructor
  · rintro ⟨row, hrow, hlength, hunify⟩
    obtain ⟨v, hv, rfl⟩ := (h.node_iff row).mp ⟨hrow, hlength⟩
    exact ⟨v, hv, hunify⟩
  · rintro ⟨v, hv, hunify⟩
    obtain ⟨hrow, hlength⟩ := (h.node_iff _).mpr ⟨v, hv, rfl⟩
    exact ⟨_, hrow, hlength, hunify⟩

theorem mem_join_edge (h : N.StoredIn fb) {bs : List (Binding ℚ)} {t u : Term ℚ} {b' : Binding ℚ} :
    b' ∈ fb.join bs (edgeAtom t u) ↔ ∃ b ∈ bs, ∃ e ∈ N.edges,
      unify b [t.substitute b, u.substitute b] [.text e.1, .text e.2] = some b' := by
  rw [mem_join]
  refine exists_congr fun b => and_congr_right fun _ => ?_
  constructor
  · rintro ⟨row, hrow, hlength, hunify⟩
    obtain ⟨e, he, rfl⟩ := (h.edge_iff row).mp ⟨hrow, hlength⟩
    exact ⟨e, he, hunify⟩
  · rintro ⟨e, he, hunify⟩
    obtain ⟨hrow, hlength⟩ := (h.edge_iff _).mpr ⟨e, he, rfl⟩
    exact ⟨_, hrow, hlength, hunify⟩

/-! ### Edges -/

theorem text_inj {v v' : String} {cells : Tuple ℚ}
    (h : [Constant.text v] ++ cells = [.text v'] ++ cells) : v = v' := by
  simpa using h

theorem texts_inj {v v' u u' : String} {cells : Tuple ℚ}
    (h : [Constant.text v, .text u] ++ cells = [.text v', .text u'] ++ cells) : v = v' ∧ u = u' := by
  simpa using h

/-- The edges into a node are listed by their first ends. -/
theorem lists_edgesInto (h : N.StoredIn fb) (symbol target : String) (cells : Tuple ℚ) :
    Lists (fb.collect [⟨symbol⟩] (.atom (edgeAtom (variableTerm symbol) (.const (.text target))))
        fun _ => .ok cells)
      {e ∈ N.edges | e.2 = target} fun e => [.text e.1] ++ cells := by
  refine lists_collect (B := fun e => .bind .empty ⟨symbol⟩ (.text e.1)) ?_ rfl ?_
    (solve_positive fb [_]) ?_ ?_
  · intro e he e' he' heq
    have htarget := (Finset.mem_filter.mp he).2.trans (Finset.mem_filter.mp he').2.symm
    exact Prod.ext (text_inj heq) htarget
  · exact fun s hs => hs
  · intro b
    rw [List.foldl_cons, List.foldl_nil, mem_join_edge h]
    simp [unify, Term.substitute, variableTerm]
  · intro e he
    refine ⟨[.text e.1], cells, ?_, rfl, rfl⟩
    simp [Binding.get?_bind]

/-- The edges out of a node are listed by their second ends. -/
theorem lists_edgesOutOf (h : N.StoredIn fb) (symbol source : String) (cells : Tuple ℚ) :
    Lists (fb.collect [⟨symbol⟩] (.atom (edgeAtom (.const (.text source)) (variableTerm symbol)))
        fun _ => .ok cells)
      {e ∈ N.edges | e.1 = source} fun e => [.text e.2] ++ cells := by
  refine lists_collect (B := fun e => .bind .empty ⟨symbol⟩ (.text e.2)) ?_ rfl ?_
    (solve_positive fb [_]) ?_ ?_
  · intro e he e' he' heq
    have hsource := (Finset.mem_filter.mp he).2.trans (Finset.mem_filter.mp he').2.symm
    exact Prod.ext hsource (text_inj heq)
  · exact fun s hs => hs
  · intro b
    rw [List.foldl_cons, List.foldl_nil, mem_join_edge h]
    simp [unify, Term.substitute, variableTerm]
  · intro e he
    refine ⟨[.text e.2], cells, ?_, rfl, rfl⟩
    simp [Binding.get?_bind]

/-- The ends of an edge, as the variables of the model call them. -/
def bindEnds (e : String × String) : Binding ℚ := .bind (.bind .empty ⟨"X"⟩ (.text e.1)) ⟨"Y"⟩ (.text e.2)

theorem mem_join_allEdges (h : N.StoredIn fb) {b : Binding ℚ} :
    b ∈ fb.join [.empty] (edgeAtom (variableTerm "X") (variableTerm "Y"))
      ↔ ∃ e ∈ N.edges, bindEnds e = b := by
  rw [mem_join_edge h]
  simp [unify, Term.substitute, variableTerm, Binding.get?_bind, bindEnds]

/-- All edges are listed by both ends. -/
theorem lists_allEdges (h : N.StoredIn fb) (cells : Tuple ℚ) :
    Lists (fb.collect [⟨"X"⟩, ⟨"Y"⟩] (.atom (edgeAtom (variableTerm "X") (variableTerm "Y")))
      fun _ => .ok cells) N.edges fun e => [.text e.1, .text e.2] ++ cells := by
  refine lists_collect (B := bindEnds) ?_ rfl ?_ (solve_positive fb [_])
    (fun b => mem_join_allEdges h) ?_
  · exact fun e _ e' _ heq => Prod.ext (texts_inj heq).1 (texts_inj heq).2
  · exact fun s hs => hs
  · intro e he
    refine ⟨[.text e.1, .text e.2], cells, ?_, rfl, rfl⟩
    simp [Binding.get?_bind, bindEnds]

/-! ### Capacities -/

/-- The atom of the relation that stores capacities, for an edge and its capacity. -/
def capAtom (source target value : Term ℚ) : Atom ℚ :=
  ⟨capTemplate.valueRelation, [source, target, value]⟩

theorem askFact_of_filter {a : Atom ℚ} {args row : Tuple ℚ} {q : ℚ} (hground : a.ground? = some args)
    (hfound : (fb.rows a.name).filter
      (fun row => startsWith args row && row.length == args.length + 1) = [row])
    (hvalue : row.getLast?.bind Constant.number? = some q) : fb.askFact a = .ok (some q) := by
  rw [askFact, hground]
  dsimp only
  rw [hfound]
  dsimp only
  rw [hvalue]

/-- A lookup finds the capacity of an edge. -/
theorem askFact_capacity (h : N.StoredIn fb) {e : String × String} (he : e ∈ N.edges) :
    fb.askFact ⟨capTemplate, [.const (.text e.1), .const (.text e.2)]⟩
      = .ok (some (N.capacity e)) := by
  obtain ⟨c, hnumber, hrows⟩ := h.capacity_eq e he
  have hfound : (fb.rows "cap").filter (fun row => startsWith [.text e.1, .text e.2] row
      && row.length == 2 + 1) = [[.text e.1, .text e.2, c]] := by
    rw [← hrows]
    -- only rows of three cells can agree with an edge in their first two
    refine List.filter_congr fun row _ => Bool.eq_iff_iff.mpr ?_
    match row with
    | [] | [_] | [_, _] | _ :: _ :: _ :: _ :: _ => simp
    | [_, _, _] => simp [startsWith]
  exact askFact_of_filter rfl hfound hnumber

/-- Joining an edge with its capacity binds the capacity. -/
theorem unify_capacity {c : Constant ℚ} {e : String × String}
    (hrows : (fb.rows "cap").filter (fun row => row.length = 3 ∧ row.take 2 = [.text e.1, .text e.2])
      = [[.text e.1, .text e.2, c]]) {v : Symbol} {b b' : Binding ℚ} (hv : b.get? v = none) :
    (∃ row ∈ fb.rows "cap", row.length = 3
        ∧ unify b [.const (.text e.1), .const (.text e.2), .var v] row = some b')
      ↔ b.bind v c = b' := by
  -- the functional dependency leaves one row for the edge
  have hmem : ∀ row, row ∈ fb.rows "cap" ∧ row.length = 3 ∧ row.take 2 = [.text e.1, .text e.2]
      ↔ row = [.text e.1, .text e.2, c] := by
    intro row
    rw [← List.mem_singleton (b := [Constant.text e.1, .text e.2, c]), ← hrows, List.mem_filter,
      decide_eq_true_eq]
  constructor
  · rintro ⟨row, hrow, hlength, hunify⟩
    match row, hlength with
    | [x, y, z], hlength =>
      simp only [unify, Constant.sameValue_text_left_iff, hv, Option.ite_none_right_eq_some,
        Option.some.injEq] at hunify
      obtain ⟨rfl, rfl, rfl⟩ := hunify
      have hstored := (hmem _).mp ⟨hrow, rfl, rfl⟩
      simp only [List.cons.injEq, true_and, and_true] at hstored
      rw [hstored]
  · rintro rfl
    obtain ⟨hrow, hlength, -⟩ := (hmem _).mpr rfl
    refine ⟨_, hrow, hlength, ?_⟩
    simp [unify, hv]

/-- The edges with their capacities are joined. -/
theorem mem_join_capAtom (h : N.StoredIn fb) {cell : String × String → Constant ℚ}
    (hrows : ∀ e ∈ N.edges, (fb.rows "cap").filter
      (fun row => row.length = 3 ∧ row.take 2 = [.text e.1, .text e.2]) = [[.text e.1, .text e.2, cell e]])
    {v : Symbol} (hX : v ≠ ⟨"X"⟩) (hY : v ≠ ⟨"Y"⟩) {b : Binding ℚ} :
    b ∈ fb.join (fb.join [.empty] (edgeAtom (variableTerm "X") (variableTerm "Y")))
        (capAtom (variableTerm "X") (variableTerm "Y") (.var v))
      ↔ ∃ e ∈ N.edges, (bindEnds e).bind v (cell e) = b := by
  -- the value symbol is not bound by the edge, so the capacity is free when it is joined
  have hfresh : ∀ e, (bindEnds e).get? v = none := by
    intro e
    simp [bindEnds, Binding.get?_bind, hX, hY]
  have hends : ∀ e, (capAtom (variableTerm "X") (variableTerm "Y") (.var v)).substitute (bindEnds e)
      = capAtom (.const (.text e.1)) (.const (.text e.2)) (.var v) := by
    intro e
    simp [capAtom, Atom.substitute, Term.substitute, variableTerm, Binding.get?_bind, bindEnds, hX, hY]
  rw [mem_join]
  constructor
  · rintro ⟨b₀, hb₀, hrow⟩
    obtain ⟨e, he, rfl⟩ := (mem_join_allEdges h).mp hb₀
    rw [hends] at hrow
    exact ⟨e, he, (unify_capacity (hrows e he) (hfresh e)).mp hrow⟩
  · rintro ⟨e, he, hb⟩
    refine ⟨bindEnds e, (mem_join_allEdges h).mpr ⟨e, he, rfl⟩, ?_⟩
    rw [hends]
    exact (unify_capacity (hrows e he) (hfresh e)).mpr hb

theorem evaluate_opposite {i : Interpretation ℚ Id} {b : Binding ℚ} {v : Symbol} {q : ℚ}
    (h : (b.get? v).bind Constant.number? = some q) :
    (Expr.mul [.constant (-1), .symbol v]).evaluate i b = .ok (-q) := by
  have hvalue : (Expr.symbol v).evaluate i b = .ok q :=
    liftExcept_eq_ok_iff.mpr (Expr.symbolValue_eq_ok_iff.mpr h)
  have hproduct : (1 * (-1) * q : ℚ) = -q := by rw [one_mul, neg_one_mul]
  rw [Expr.evaluate, Expr.evaluateProduct]
  refine exceptT_bind_eq_ok_iff.mpr ⟨-1, rfl, exceptT_bind_eq_ok_iff.mpr ⟨q, hvalue, ?_⟩⟩
  rw [Expr.evaluateProduct, hproduct]
  rfl

/-- The cell of a coefficient holds its value. -/
theorem coefficientCell_of_evaluate {i : Interpretation ℚ Id} {e : Expr ℚ} {b : Binding ℚ} {y : ℚ}
    (h : e.evaluate i b = .ok y) :
    (KnowledgeBase.coefficientCell i e b).run.map ([·]) = .ok [.real y] := by
  rw [KnowledgeBase.coefficientCell, h]
  rfl

/-- **All edges with their capacities** are listed by both ends, with minus the capacity as value. -/
theorem lists_capacities (h : N.StoredIn fb) {v : Symbol} (hX : v ≠ ⟨"X"⟩) (hY : v ≠ ⟨"Y"⟩) :
    Lists (fb.ask [⟨"X"⟩, ⟨"Y"⟩] (.conj [.atom (edgeAtom (variableTerm "X") (variableTerm "Y")),
        .atom (capAtom (variableTerm "X") (variableTerm "Y") (.var v))])
        (some (.mul [.constant (-1), .symbol v])))
      N.edges fun e => [.text e.1, .text e.2, .real (-N.capacity e)] := by
  choose! cell hnumber hrows using h.capacity_eq
  refine lists_collect (B := fun e => (bindEnds e).bind v (cell e)) ?_ rfl ?_
    (solve_positive fb [_, _]) (fun b => mem_join_capAtom h hrows hX hY) ?_
  · intro e _ e' _ heq
    obtain ⟨hsource, htarget, -⟩ : e.1 = e'.1 ∧ e.2 = e'.2 ∧ _ := by simpa using heq
    exact Prod.ext hsource htarget
  · intro s hs
    rw [Formula.vars, mem_distinct]
    exact List.mem_append_left _ hs
  · intro e he
    refine ⟨[.text e.1, .text e.2], [.real (-N.capacity e)], ?_, ?_, rfl⟩
    · simp [Binding.get?_bind, bindEnds, hX.symm, hY.symm]
    · refine coefficientCell_of_evaluate (evaluate_opposite ?_)
      rw [Binding.get?_bind, if_pos rfl]
      exact hnumber e he

/-! ### Inner nodes -/

/-- The conditions on an inner node. -/
def innerParts (source sink : String) : List (Formula ℚ) :=
  [.atom (nodeAtom (variableTerm "V")), .compare (otherThan "V" source),
    .compare (otherThan "V" sink)]

theorem simplify_innerParts (hne : source ≠ sink) :
    (conj (innerParts source sink)).simplify = conj (innerParts source sink) := by
  have hnodup : (innerParts source sink).Nodup := by simp [innerParts, otherThan, hne]
  have hgs : simplifyList (innerParts source sink) = innerParts source sink := rfl
  exact simplify_conj_eq hgs (by simp [innerParts]) rfl hnodup (Nat.le_succ 2)

theorem nodup_innerParts_edge (hne : source ≠ sink) (t u : Term ℚ) :
    (innerParts source sink ++ [Formula.atom (edgeAtom t u)]).Nodup := by
  simp [innerParts, otherThan, nodeAtom, edgeAtom, relationAtom, hne]

/-- The conditions on an inner node and an edge at it are spliced. -/
theorem simplify_innerParts_edge (hne : source ≠ sink) (t u : Term ℚ) :
    (conj [conj (innerParts source sink), .atom (edgeAtom t u)]).simplify
      = conj (innerParts source sink ++ [.atom (edgeAtom t u)]) := by
  have hgs : simplifyList [conj (innerParts source sink), .atom (edgeAtom t u)]
      = [conj (innerParts source sink), .atom (edgeAtom t u)] := by
    rw [simplifyList, simplify_innerParts hne]
    rfl
  exact simplify_conj_eq hgs (by simp) rfl (nodup_innerParts_edge hne t u) (Nat.le_add_left 2 2)

theorem toDnf_innerParts (hne : source ≠ sink) : (conj (innerParts source sink)).toDnf
    = [guarded (nodeAtom (variableTerm "V")) [otherThan "V" source, otherThan "V" sink] []] := by
  rw [toDnf, simplify_innerParts hne]
  rfl

theorem toDnf_innerParts_edge (hne : source ≠ sink) (t u : Term ℚ) :
    (conj (innerParts source sink ++ [.atom (edgeAtom t u)])).toDnf
      = [guarded (nodeAtom (variableTerm "V")) [otherThan "V" source, otherThan "V" sink]
        [edgeAtom t u]] := by
  have hgs : simplifyList (innerParts source sink ++ [.atom (edgeAtom t u)])
      = innerParts source sink ++ [.atom (edgeAtom t u)] := rfl
  rw [toDnf, simplify_conj_eq hgs (by simp [innerParts]) rfl (nodup_innerParts_edge hne t u)
    (Nat.le_add_left 2 2)]
  rfl

/-- The binding of the variable of nodes. -/
def bindNode (v : String) : Binding ℚ := .bind .empty ⟨"V"⟩ (.text v)

theorem kleene_otherThan {v node : String} :
    (otherThan "V" node).kleene (bindNode v).get? = some true ↔ v ≠ node := by
  have hcompare : (otherThan "V" node).kleene (bindNode v).get?
      = CompareOp.ne.kleene (some (compare v node)) := rfl
  rw [hcompare, CompareOp.kleene, Option.some.injEq]
  simp [CompareOp.holds]

/-- **The bindings of inner nodes**, with atoms that are joined to them. -/
theorem exists_solve_inner (h : N.StoredIn fb) (source sink : String) (atoms : List (Atom ℚ)) :
    ∃ bs, fb.solve (guarded (nodeAtom (variableTerm "V"))
        [otherThan "V" source, otherThan "V" sink] atoms) = .ok (atoms.foldl fb.join bs)
      ∧ ∀ b, b ∈ bs ↔ ∃ v ∈ N.inner source sink, bindNode v = b := by
  have hnodes : ∀ b, b ∈ fb.join [.empty] (nodeAtom (variableTerm "V"))
      ↔ ∃ v ∈ N.nodes, bindNode v = b := by
    intro b
    rw [mem_join_node h]
    simp [unify, Term.substitute, variableTerm, bindNode]
  refine ⟨_, solve_guarded atoms
    (List.forall_mem_cons.mpr ⟨rfl, List.forall_mem_singleton.mpr rfl⟩)
    (List.forall_mem_cons.mpr ⟨fun x hx => hx, List.forall_mem_singleton.mpr fun x hx => hx⟩),
    fun b => ?_⟩
  rw [mem_foldl_check, hnodes]
  · constructor
    · rintro ⟨⟨v, hv, rfl⟩, hguards⟩
      rw [List.forall_mem_cons, List.forall_mem_singleton, kleene_otherThan, kleene_otherThan] at hguards
      exact ⟨v, Network.mem_inner.mpr ⟨hv, hguards⟩, rfl⟩
    · rintro ⟨v, hv, rfl⟩
      obtain ⟨hv, hguards⟩ := Network.mem_inner.mp hv
      rw [List.forall_mem_cons, List.forall_mem_singleton, kleene_otherThan, kleene_otherThan]
      exact ⟨⟨v, hv, rfl⟩, hguards⟩
  · -- the guards read the node only, which every binding of the atom has
    intro b hb
    obtain ⟨v, -, rfl⟩ := (hnodes b).mp hb
    refine List.forall_mem_cons.mpr ⟨?_, List.forall_mem_singleton.mpr ?_⟩ <;>
    · intro x hx
      obtain rfl : x = ⟨"V"⟩ := List.mem_singleton.mp hx
      rfl

/-- The inner nodes are listed. -/
theorem lists_innerNodes (h : N.StoredIn fb) (hne : source ≠ sink) :
    Lists (fb.answers [⟨"V"⟩] (conj (innerParts source sink))) (N.inner source sink)
      fun v => [.text v] := by
  obtain ⟨bs, hsolve, hbs⟩ := exists_solve_inner h source sink []
  refine lists_collect (B := bindNode) ?_ (toDnf_innerParts hne) ?_ hsolve hbs ?_
  · exact fun v _ v' _ heq => Constant.text.inj (List.cons.inj heq).1
  · exact fun s hs => hs
  · exact fun v _ => yields_plain.mpr (.cons rfl .nil)

/-- Edges that are joined to the inner nodes at one end are listed by this end and the other one. -/
theorem lists_innerEdges (h : N.StoredIn fb) (hne : source ≠ sink) {symbol : Symbol} {t u : Term ℚ}
    (near far : String × String → String)
    (hunify : ∀ (v : String) (e : String × String) (b : Binding ℚ),
      unify (bindNode v) [t.substitute (bindNode v), u.substitute (bindNode v)] [.text e.1, .text e.2]
          = some b
        ↔ v = near e ∧ (bindNode v).bind symbol (.text (far e)) = b)
    (hends : ∀ e e', near e = near e' → far e = far e' → e = e') (hsymbol : symbol ≠ ⟨"V"⟩)
    (hvars : ∀ s ∈ [⟨"V"⟩, symbol],
      s ∈ (conj (innerParts source sink ++ [.atom (edgeAtom t u)])).vars) (cells : Tuple ℚ) :
    Lists (fb.collect [⟨"V"⟩, symbol] (conj (innerParts source sink ++ [.atom (edgeAtom t u)]))
        fun _ => .ok cells)
      {e ∈ N.edges | near e ∈ N.inner source sink}
      fun e => [.text (near e), .text (far e)] ++ cells := by
  obtain ⟨bs, hsolve, hbs⟩ := exists_solve_inner h source sink [edgeAtom t u]
  refine lists_collect (B := fun e => (bindNode (near e)).bind symbol (.text (far e))) ?_
    (toDnf_innerParts_edge hne t u) hvars hsolve (fun b => ?_) ?_
  · -- the ends that the binding holds tell the edges apart
    exact fun e _ e' _ heq => hends e e' (texts_inj heq).1 (texts_inj heq).2
  · rw [List.foldl_cons, List.foldl_nil, mem_join_edge h]
    constructor
    · rintro ⟨b₀, hb₀, e, he, hjoined⟩
      obtain ⟨v, hv, rfl⟩ := (hbs b₀).mp hb₀
      obtain ⟨rfl, rfl⟩ := (hunify v e b).mp hjoined
      exact ⟨e, Finset.mem_filter.mpr ⟨he, hv⟩, rfl⟩
    · rintro ⟨e, he, rfl⟩
      obtain ⟨he, hv⟩ := Finset.mem_filter.mp he
      exact ⟨_, (hbs _).mpr ⟨_, hv, rfl⟩, e, he, (hunify _ e _).mpr ⟨rfl, rfl⟩⟩
  · intro e _
    refine ⟨[.text (near e), .text (far e)], cells, ?_, rfl, rfl⟩
    simp [Binding.get?_bind, bindNode, hsymbol.symm]

/-- The edges into inner nodes are listed, their second ends first. -/
theorem lists_innerInto (h : N.StoredIn fb) (hne : source ≠ sink) (cells : Tuple ℚ) :
    Lists (fb.collect [⟨"V"⟩, ⟨"U"⟩] (conj (innerParts source sink
        ++ [.atom (edgeAtom (variableTerm "U") (variableTerm "V"))])) fun _ => .ok cells)
      {e ∈ N.edges | e.2 ∈ N.inner source sink} fun e => [.text e.2, .text e.1] ++ cells := by
  refine lists_innerEdges h hne Prod.snd Prod.fst (fun v e b => ?_) (fun e e' h h' => Prod.ext h' h)
    (by decide) ?_ cells
  · simp [unify, Term.substitute, variableTerm, bindNode, Binding.get?_bind]
  · exact fun s hs => hs

/-- The edges out of inner nodes are listed, their first ends first. -/
theorem lists_innerOutOf (h : N.StoredIn fb) (hne : source ≠ sink) (cells : Tuple ℚ) :
    Lists (fb.collect [⟨"V"⟩, ⟨"W"⟩] (conj (innerParts source sink
        ++ [.atom (edgeAtom (variableTerm "V") (variableTerm "W"))])) fun _ => .ok cells)
      {e ∈ N.edges | e.1 ∈ N.inner source sink} fun e => [.text e.1, .text e.2] ++ cells := by
  refine lists_innerEdges h hne Prod.fst Prod.snd (fun v e b => ?_) (fun e e' h h' => Prod.ext h h')
    (by decide) ?_ cells
  · simp [unify, Term.substitute, variableTerm, bindNode, Binding.get?_bind]
  · exact fun s hs => hs

end Flow

end RelationalLP
