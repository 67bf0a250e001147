import Mathlib
import RelationalLP.Proofs.Facts.Matching

/-! # The search for bindings

A search has taken care of some literals. What it keeps is exact: its bindings bind the variables of
those literals, make them true, and every valuation that makes them true extends one of them. Joining
an atom and applying a filter that is ready keep a search exact, hence so does a whole run, and a
run that leaves no literal pending has taken care of the conjunction. -/

namespace RelationalLP

/-- Taking out the first item that passes a test leaves the others. -/
theorem mem_iff_of_find? {α : Type} {p : α → Bool} {ls : List α} {l : α}
    (h : ls.find? p = some l) (l' : α) : l' ∈ ls ↔ l' = l ∨ l' ∈ ls.eraseP p := by
  obtain ⟨hl, before, after, rfl, hbefore⟩ := List.find?_eq_some_iff_append.mp h
  have hnone : ∀ x ∈ before, ¬ p x = true := fun x hx => by simpa using hbefore x hx
  rw [List.eraseP_append_right _ hnone, List.eraseP_cons_of_pos hl]
  simp only [List.mem_append, List.mem_cons]
  tauto

variable {K : Type} {D : Domain K}

/-! ### Terms under a binding -/

theorem Domain.Inside.knows_substitute {b : Binding K} (hb : D.Inside b.get?) {ts : List (Term K)}
    (hts : D.Knows ts) : D.Knows (ts.map (Term.substitute b)) := by
  intro c hc
  obtain ⟨t, ht, heq⟩ := List.mem_map.mp hc
  cases hv : t.valueAt b.get? with
  | some d =>
    rw [Term.substitute_eq_const hv, Term.const.injEq] at heq
    exact heq ▸ hb.valueAt hts ht hv
  | none =>
    rw [Term.substitute_eq_self hv] at heq
    exact hts c (heq ▸ ht)

theorem Term.var_mem_map_substitute {b : Binding K} {ts : List (Term K)} {x : Symbol} :
    .var x ∈ ts.map (Term.substitute b) ↔ .var x ∈ ts ∧ b.get? x = none := by
  rw [List.mem_map]
  constructor
  · rintro ⟨t, ht, heq⟩
    cases hv : t.valueAt b.get? with
    | some c =>
      rw [Term.substitute_eq_const hv] at heq
      cases heq
    | none =>
      rw [Term.substitute_eq_self hv] at heq
      subst heq
      exact ⟨ht, hv⟩
  · rintro ⟨hx, hb⟩
    exact ⟨.var x, hx, Term.substitute_eq_self hb⟩

/-! ### Equations -/

/-- **An equation of a symbol**: the symbol stands on one side, the given term on the other. -/
structure Comparison.Equates (c : Comparison K) (x : Symbol) (side : Term K) : Prop where
  /-- It is an equation. -/
  op_eq : c.op = .eq
  /-- The symbol stands on the left or on the right. -/
  sides : c.left = .var x ∧ c.right = side ∨ c.left = side ∧ c.right = .var x

namespace Comparison.Equates

variable {c : Comparison K} {x : Symbol} {side : Term K}

theorem side_mem (h : c.Equates x side) : side ∈ c.terms := by
  rcases h.sides with ⟨-, rfl⟩ | ⟨rfl, -⟩
  · exact List.mem_cons_of_mem _ (List.mem_singleton_self _)
  · exact List.mem_cons_self

theorem mem_vars_iff (h : c.Equates x side) {y : Symbol} :
    y ∈ c.vars ↔ y = x ∨ y ∈ side.symbol? := by
  rw [Comparison.mem_vars]
  rcases h.sides with ⟨hleft, hright⟩ | ⟨hleft, hright⟩
  · rw [hleft, hright]
    simp [Term.symbol?, eq_comm]
  · rw [hleft, hright]
    simp [Term.symbol?, eq_comm, or_comm]

end Comparison.Equates

variable [Scalar K] {fb : FactBase K}

/-- Constants of the domain that are equal by value are one constant. -/
theorem Domain.Covers.kleene_eq_iff (hD : D.Covers fb) {x y : Constant K} (hx : x ∈ D) (hy : y ∈ D) :
    CompareOp.eq.kleene (x.compareValue y) = some true ↔ x = y := by
  constructor
  · intro h
    refine hD.discrete x hx y hy ?_
    cases hxy : x.compareValue y with
    | none => rw [hxy] at h; cases h
    | some o =>
      rw [hxy, CompareOp.kleene, CompareOp.holds, Option.some.injEq, Ordering.isEq_iff_eq_eq] at h
      rw [h]
  · rintro rfl
    rw [hD.reflexive x hx]
    rfl

/-- An equation of constants of the domain is true when both sides are one constant. -/
theorem Domain.Covers.equation_iff (hD : D.Covers fb) {c : Comparison K} (hop : c.op = .eq)
    {v : Valuation K} (hv : D.Inside v) (hc : D.Knows c.terms) :
    c.kleene v = some true ↔ ∃ x, c.left.valueAt v = some x ∧ c.right.valueAt v = some x := by
  have hleft : c.left ∈ c.terms := List.mem_cons_self
  have hright : c.right ∈ c.terms := List.mem_cons_of_mem _ (List.mem_singleton_self _)
  rw [Comparison.kleene_eq_some_iff, hop]
  constructor
  · rintro ⟨x, y, hl, hr, heq⟩
    obtain rfl := (hD.kleene_eq_iff (hv.valueAt hc hleft hl) (hv.valueAt hc hright hr)).mp heq
    exact ⟨x, hl, hr⟩
  · rintro ⟨x, hl, hr⟩
    have hx : x ∈ D := hv.valueAt hc hleft hl
    exact ⟨x, x, hl, hr, (hD.kleene_eq_iff hx hx).mpr rfl⟩

/-- An equation of a symbol is true when the symbol has the value of the other side. -/
theorem Comparison.Equates.kleene_iff {c : Comparison K} {x : Symbol} {side : Term K}
    (h : c.Equates x side) (hD : D.Covers fb) {v : Valuation K} (hv : D.Inside v)
    (hc : D.Knows c.terms) :
    c.kleene v = some true ↔ ∃ d, v x = some d ∧ side.valueAt v = some d := by
  rw [hD.equation_iff h.op_eq hv hc]
  rcases h.sides with ⟨hleft, hright⟩ | ⟨hleft, hright⟩
  · rw [hleft, hright, Term.valueAt]
  · rw [hleft, hright, Term.valueAt]
    exact exists_congr fun d => and_comm

namespace FactBase

/-! ### What a search keeps -/

/-- **An exact search** for the literals taken care of so far. -/
structure Search.Exact (fb : FactBase K) (D : Domain K) (done : List (Literal K)) (s : Search K) :
    Prop where
  /-- A binding binds the symbols that the search says are bound. -/
  bound : ∀ b ∈ s.bindings, ∀ x, (b.get? x).isSome ↔ x ∈ s.bound
  /-- Only symbols of the literals are bound. -/
  origin : ∀ x ∈ s.bound, ∃ l ∈ done, x ∈ l.vars
  /-- They are bound to constants of the domain. -/
  inside : ∀ b ∈ s.bindings, D.Inside b.get?
  /-- It makes the literals true. -/
  sound : ∀ b ∈ s.bindings, Conjunction.Holds b.get? fb.holds done
  /-- Every valuation that makes the literals true extends a binding. -/
  complete : ∀ v, D.Inside v → Conjunction.Holds v fb.holds done →
    ∃ b ∈ s.bindings, v.Extends b.get?

variable {s : Search K} {done : List (Literal K)}

/-- **One more literal**: a search stays exact when its bindings are extended to bind the variables of
the literal and to make it true, and no valuation is lost that makes it true. -/
theorem Search.Exact.extend (hs : s.Exact fb D done) {l : Literal K} {bs : List (Binding K)}
    (hnew : ∀ b' ∈ bs, ∃ b ∈ s.bindings, Valuation.Extends b'.get? b.get? ∧ D.Inside b'.get?
      ∧ (∀ x, (b'.get? x).isSome ↔ x ∈ s.bound ∨ x ∈ l.vars)
      ∧ l.kleene b'.get? fb.holds = some true)
    (hkept : ∀ b ∈ s.bindings, ∀ v : Valuation K, D.Inside v → v.Extends b.get? →
      l.kleene v fb.holds = some true → ∃ b' ∈ bs, v.Extends b'.get?)
    (pending : List (Literal K)) :
    (⟨bs, pending, s.bound ++ l.vars⟩ : Search K).Exact fb D (l :: done) where
  bound := by
    intro b' hb' x
    obtain ⟨b, -, -, -, hbound, -⟩ := hnew b' hb'
    rw [hbound, List.mem_append]
  origin := by
    intro x hx
    rcases List.mem_append.mp hx with hx | hx
    · obtain ⟨l', hl', hx⟩ := hs.origin x hx
      exact ⟨l', List.mem_cons_of_mem _ hl', hx⟩
    · exact ⟨l, List.mem_cons_self, hx⟩
  inside := by
    intro b' hb'
    obtain ⟨b, -, -, hin, -⟩ := hnew b' hb'
    exact hin
  sound := by
    intro b' hb'
    obtain ⟨b, hb, hext, -, -, htrue⟩ := hnew b' hb'
    exact List.forall_mem_cons.mpr
      -- what was true before stays true when more symbols are bound
      ⟨htrue, fun l' hl' => Literal.kleene_mono hext (hs.sound b hb l' hl')⟩
  complete := by
    intro v hv hall
    obtain ⟨htrue, hall⟩ := List.forall_mem_cons.mp hall
    obtain ⟨b, hb, hext⟩ := hs.complete v hv hall
    exact hkept b hb v hv hext htrue

theorem mem_join {bs : List (Binding K)} {a : Atom K} {b' : Binding K} :
    b' ∈ fb.join bs a ↔ ∃ b ∈ bs, ∃ row ∈ fb.rows a.name, row.length = a.arity
      ∧ unify b (a.substitute b).arguments row = some b' := by
  rw [join, List.mem_flatMap]
  simp only [List.mem_filterMap, List.mem_filter, beq_iff_eq, and_assoc]

/-- A joined binding makes the atom true and binds its variables besides those bound before. -/
theorem unify_substitute (hD : D.Covers fb) {b b' : Binding K} (hin : D.Inside b.get?) {a : Atom K}
    (ha : D.Knows a.arguments) {row : Tuple K} (hrow : row ∈ fb.rows a.name)
    (hlen : row.length = a.arity) (h : unify b (a.substitute b).arguments row = some b') :
    Valuation.Extends b'.get? b.get? ∧ D.Inside b'.get?
      ∧ (∀ x, (b'.get? x).isSome ↔ (b.get? x).isSome ∨ x ∈ a.vars)
      ∧ (Literal.positive a).kleene b'.get? fb.holds = some true := by
  have hcells := hD.cells _ row hrow
  obtain ⟨hext, hin', hbound, hall⟩ := unify_sound hD hin (hin.knows_substitute ha) hcells
    (hlen.trans (List.length_map _).symm) h
  refine ⟨hext, hin', fun x => ?_, ?_⟩
  · -- substitution removes the variables that are bound already, and no others
    have hvar : x ∈ a.vars ↔ .var x ∈ a.arguments := by
      rw [Atom.mem_vars]
      constructor
      · rintro ⟨t, ht, hsym⟩
        cases t with
        | var y => rwa [Option.some.inj hsym] at ht
        | const c => cases hsym
      · intro h
        exact ⟨_, h, rfl⟩
    rw [hbound, Term.var_mem_map_substitute, hvar]
    cases b.get? x <;> simp
  · have hground : a.groundAt b'.get? = some ⟨a.template, row.map .const⟩ := by
      rw [Atom.groundAt, Option.map_eq_some_iff]
      refine ⟨row, mapM_eq_some_iff.mpr ?_, rfl⟩
      rw [List.forall₂_map_left_iff] at hall
      refine hall.imp fun t c htc => ?_
      rwa [Term.valueAt_substitute, hext.filled_eq] at htc
    rw [Literal.kleene, hground, Option.map_some, (hD.holds_iff hcells).mpr hrow]

/-- **Joining an atom keeps a search exact.** -/
theorem Search.Exact.join (hD : D.Covers fb) (hs : s.Exact fb D done) {a : Atom K}
    (ha : D.Knows a.arguments) :
    ({ s with bindings := fb.join s.bindings a, bound := s.bound ++ a.vars } : Search K).Exact fb D
      (.positive a :: done) := by
  refine hs.extend (l := .positive a) (fun b' hb' => ?_) (fun b hb v hv hext htrue => ?_) s.pending
  · obtain ⟨b, hb, row, hrow, hlen, hunify⟩ := mem_join.mp hb'
    obtain ⟨hext, hin, hbound, htrue⟩ :=
      unify_substitute hD (hs.inside b hb) ha hrow hlen hunify
    refine ⟨b, hb, hext, hin, fun x => ?_, htrue⟩
    rw [hbound, hs.bound b hb]
    rfl
  · -- the cells under the valuation are a stored row, which unifies
    obtain ⟨g, hg, hholds⟩ := Option.map_eq_some_iff.mp htrue
    obtain ⟨row, hrow, rfl⟩ := Option.map_eq_some_iff.mp hg
    rw [mapM_eq_some_iff] at hrow
    have hcells : ∀ c ∈ row, c ∈ D := forall_mem_of_forall₂ hrow fun t ht c hc =>
      hv.valueAt ha ht hc
    have hstored := (hD.holds_iff hcells).mp hholds
    have hterms : List.Forall₂ (fun t c => t.valueAt v = some c) (a.substitute b).arguments row := by
      rw [Atom.substitute, List.forall₂_map_left_iff]
      refine hrow.imp fun t c htc => ?_
      rwa [Term.valueAt_substitute, hext.filled_eq]
    obtain ⟨b', hb', hext'⟩ := unify_complete hD hext hterms hcells
    exact ⟨b', mem_join.mpr ⟨b, hb, row, hstored, hrow.length_eq.symm, hb'⟩, hext'⟩

/-! ### Filters -/

/-- A literal whose variables are bound keeps the binding where it is true. -/
theorem check_of_bound {l : Literal K} {b : Binding K}
    (hl : ∀ x ∈ l.vars, (b.get? x).isSome) {b' : Binding K} :
    fb.check l b = some b' ↔ b' = b ∧ l.kleene b.get? fb.holds = some true := by
  cases l with
  | positive a =>
    rw [check, Literal.kleene, Atom.groundAt_of_bound hl, Option.map_some]
    cases fb.holds (a.substitute b) <;> simp [eq_comm]
  | negative a =>
    rw [check, Literal.kleene, Atom.groundAt_of_bound hl, Option.map_some]
    cases fb.holds (a.substitute b) <;> simp [eq_comm]
  | compare c =>
    obtain ⟨x, y, hx, hy⟩ := Comparison.isSome_vars_iff.mp hl
    rw [check, Term.substitute_eq_const hx, Term.substitute_eq_const hy, Literal.kleene,
      Comparison.kleene, hx, hy]
    simp only [← Comparison.decide_eq_true_iff]
    cases Comparison.decide c.op x y <;> simp [eq_comm]

/-- An equation with a single unbound symbol on one side only equates it with a bound side. -/
theorem exists_equates {bound : List Symbol} {c : Comparison K} {s : Symbol} (hop : c.op = .eq)
    (hsides : ((c.left == .var s) != (c.right == .var s)) = true)
    (hsingle : ∀ x ∈ c.vars, x ∉ bound → x = s) :
    ∃ side, c.Equates s side ∧ ∀ x ∈ side.symbol?, x ∈ bound := by
  have hbound : ∀ side : Term K, (c.left = side ∨ c.right = side) → side ≠ .var s →
      ∀ x ∈ side.symbol?, x ∈ bound := by
    intro side hside hne x hx
    by_contra hb
    have hvars : x ∈ c.vars := Comparison.mem_vars.mpr
      (hside.imp (fun h => by rw [h]; exact hx) fun h => by rw [h]; exact hx)
    have hxs : x = s := hsingle x hvars hb
    cases side with
    | var y => exact hne (by rw [← hxs, Option.some.inj hx])
    | const d => cases hx
  rcases Decidable.em (c.left = .var s) with hleft | hleft
  · have hright : c.right ≠ .var s := by
      intro hright
      simp [hleft, hright] at hsides
    exact ⟨c.right, ⟨hop, .inl ⟨hleft, rfl⟩⟩, hbound _ (.inr rfl) hright⟩
  · have hright : c.right = .var s := by
      by_contra hright
      simp [hleft, hright] at hsides
    exact ⟨c.left, ⟨hop, .inr ⟨rfl, hright⟩⟩, hbound _ (.inl rfl) hleft⟩

/-- A ready literal has its variables bound, or is an equation of an unbound symbol with a bound side. -/
theorem cases_of_isReady {bound : List Symbol} {l : Literal K} (h : isReady bound l = true) :
    (∀ x ∈ l.vars, x ∈ bound)
      ∨ ∃ c s side, l = .compare c ∧ c.Equates s side ∧ s ∉ bound
        ∧ ∀ x ∈ side.symbol?, x ∈ bound := by
  unfold isReady at h
  have hunbound : ∀ x, x ∈ distinct (l.vars.filter (· ∉ bound)) ↔ x ∈ l.vars ∧ x ∉ bound := by
    intro x
    rw [mem_distinct, List.mem_filter, decide_eq_true_eq]
  -- only the unbound symbols of the literal matter from here on
  generalize distinct (l.vars.filter (· ∉ bound)) = unbound at h hunbound
  cases unbound with
  | nil =>
    left
    intro x hx
    by_contra hb
    exact absurd ((hunbound x).mpr ⟨hx, hb⟩) List.not_mem_nil
  | cons s rest =>
    cases rest with
    | cons t rest => cases l <;> cases h
    | nil =>
      cases l with
      | positive a => cases h
      | negative a => cases h
      | compare c =>
        rw [Bool.and_eq_true, beq_iff_eq] at h
        obtain ⟨side, hequates, hside⟩ := exists_equates h.1 h.2 fun x hx hb =>
          List.mem_singleton.mp ((hunbound x).mpr ⟨hx, hb⟩)
        exact .inr ⟨c, s, side, rfl, hequates, ((hunbound s).mp (List.mem_singleton_self s)).2, hside⟩

/-- A filter whose variables are bound drops the bindings under which it is not true. -/
theorem Search.Exact.filter_of_bound (hs : s.Exact fb D done) {l : Literal K}
    (hall : ∀ x ∈ l.vars, x ∈ s.bound) (rest : List (Literal K)) :
    (⟨s.bindings.filterMap (fb.check l), rest, s.bound ++ l.vars⟩ : Search K).Exact fb D
      (l :: done) := by
  have hcheck : ∀ b ∈ s.bindings, ∀ b', fb.check l b = some b'
      ↔ b' = b ∧ l.kleene b.get? fb.holds = some true := fun b hb _ =>
    check_of_bound fun x hx => (hs.bound b hb x).mpr (hall x hx)
  refine hs.extend (fun b' hb' => ?_) (fun b hb v hv hext htrue => ?_) rest
  · obtain ⟨b, hb, h⟩ := List.mem_filterMap.mp hb'
    obtain ⟨rfl, htrue⟩ := (hcheck b hb b').mp h
    refine ⟨b', hb, .refl _, hs.inside b' hb, fun y => ?_, htrue⟩
    rw [hs.bound b' hb]
    exact ⟨.inl, fun h => h.elim id (hall y)⟩
  · -- the valuation has the values of the binding at the variables of the filter
    refine ⟨b, List.mem_filterMap.mpr ⟨b, hb, (hcheck b hb b).mpr ⟨rfl, ?_⟩⟩, hext⟩
    rw [← htrue]
    refine Literal.kleene_congr fun y hy => ?_
    obtain ⟨d, hd⟩ := Option.isSome_iff_exists.mp ((hs.bound b hb y).mpr (hall y hy))
    rw [hd, hext y d hd]

/-- The check of an equation binds its unbound symbol. -/
theorem check_of_equates {c : Comparison K} {x : Symbol} {side : Term K} (h : c.Equates x side)
    {b : Binding K} (hx : b.get? x = none) {d : Constant K} (hd : side.valueAt b.get? = some d) :
    fb.check (.compare c) b = some (b.bind x d) := by
  have hvar : (Term.var x).substitute b = .var x := Term.substitute_eq_self hx
  rcases h.sides with ⟨hleft, hright⟩ | ⟨hleft, hright⟩
  · rw [check, hleft, hright, hvar, Term.substitute_eq_const hd]
  · rw [check, hleft, hright, hvar, Term.substitute_eq_const hd]

/-- An equation of an unbound symbol binds it to the value of the other side. -/
theorem Search.Exact.filter_equation (hD : D.Covers fb) (hs : s.Exact fb D done) {c : Comparison K}
    (hc : D.Knows c.terms) {x : Symbol} {side : Term K} (h : c.Equates x side) (hx : x ∉ s.bound)
    (hside : ∀ y ∈ side.symbol?, y ∈ s.bound) (rest : List (Literal K)) :
    (⟨s.bindings.filterMap (fb.check (.compare c)), rest, s.bound ++ (Literal.compare c).vars⟩ :
      Search K).Exact fb D (.compare c :: done) := by
  have hopen : ∀ b ∈ s.bindings, b.get? x = none := by
    intro b hb
    rw [← Option.not_isSome_iff_eq_none, hs.bound b hb]
    exact hx
  have hvalue : ∀ b ∈ s.bindings, ∃ d, side.valueAt b.get? = some d := fun b hb =>
    Option.isSome_iff_exists.mp ((Term.isSome_valueAt b.get? side).mpr fun y hy =>
      (hs.bound b hb y).mpr (hside y hy))
  refine hs.extend (fun b' hb' => ?_) (fun b hb v hv hext htrue => ?_) rest
  · obtain ⟨b, hb, hcheck⟩ := List.mem_filterMap.mp hb'
    obtain ⟨d, hd⟩ := hvalue b hb
    obtain rfl := Option.some.inj ((check_of_equates h (hopen b hb) hd).symm.trans hcheck)
    have hext : Valuation.Extends (b.bind x d).get? b.get? := Binding.extends_bind (hopen b hb) d
    have hin : D.Inside (b.bind x d).get? :=
      (hs.inside b hb).bind x ((hs.inside b hb).valueAt hc h.side_mem hd)
    refine ⟨b, hb, hext, hin, fun y => ?_, (h.kleene_iff hD hin hc).mpr
      ⟨d, by rw [Binding.get?_bind, if_pos rfl], Term.valueAt_mono hext hd⟩⟩
    rw [Binding.get?_bind, Literal.vars, h.mem_vars_iff]
    by_cases hyx : y = x
    · simp [hyx]
    · rw [if_neg hyx, hs.bound b hb]
      constructor
      · exact .inl
      · rintro (hy | hy | hy)
        · exact hy
        · exact absurd hy hyx
        · exact hside y hy
  · -- the equation leaves only one value for the symbol
    obtain ⟨d, hd⟩ := hvalue b hb
    obtain ⟨e, hxe, hse⟩ := (h.kleene_iff hD hv hc).mp htrue
    obtain rfl := Option.some.inj ((Term.valueAt_mono hext hd).symm.trans hse)
    exact ⟨b.bind x d, List.mem_filterMap.mpr ⟨b, hb, check_of_equates h (hopen b hb) hd⟩,
      hext.bind hxe⟩

/-- **Applying a ready filter keeps a search exact.** -/
theorem Search.Exact.filter (hD : D.Covers fb) (hs : s.Exact fb D done) {l : Literal K}
    (hl : D.Knows l.terms) (hready : isReady s.bound l = true) (rest : List (Literal K)) :
    (⟨s.bindings.filterMap (fb.check l), rest, s.bound ++ l.vars⟩ : Search K).Exact fb D
      (l :: done) := by
  rcases cases_of_isReady hready with hall | ⟨c, x, side, rfl, hequates, hx, hside⟩
  · exact hs.filter_of_bound hall rest
  · exact hs.filter_equation hD hl hequates hx hside rest

/-! ### Runs -/

/-- A search stays exact for the same literals in another order. -/
theorem Search.Exact.congr (hs : s.Exact fb D done) {done' : List (Literal K)}
    (h : ∀ l, l ∈ done ↔ l ∈ done') : s.Exact fb D done' where
  bound := hs.bound
  origin := by
    intro x hx
    obtain ⟨l, hl, hx⟩ := hs.origin x hx
    exact ⟨l, (h l).mp hl, hx⟩
  inside := hs.inside
  sound := fun b hb l hl => hs.sound b hb l ((h l).mpr hl)
  complete := fun v hv hall => hs.complete v hv fun l hl => hall l ((h l).mp hl)

/-- Before the first literal one empty binding is exact. -/
theorem exact_start (pending : List (Literal K)) :
    (⟨[.empty], pending, []⟩ : Search K).Exact fb D [] where
  bound := by
    intro b hb x
    rw [List.mem_singleton.mp hb]
    simp
  origin := fun x hx => absurd hx List.not_mem_nil
  inside := by
    intro b hb s c hc
    rw [List.mem_singleton.mp hb] at hc
    cases hc
  sound := fun b _ l hl => absurd hl List.not_mem_nil
  complete := by
    intro v _ _
    refine ⟨.empty, List.mem_singleton_self _, fun s c hc => ?_⟩
    cases hc

/-- Literals that are not ready wait. -/
theorem applyFilters_waiting {s : Search K} (h : ∀ l ∈ s.pending, isReady s.bound l = false) :
    fb.applyFilters s = s := by
  have hnone : s.pending.find? (isReady s.bound) = none :=
    List.find?_eq_none.mpr fun l hl => by rw [h l hl]; exact Bool.false_ne_true
  rw [applyFilters]
  split
  · rfl
  · rename_i l hsome
    cases hnone.symm.trans hsome

/-- The first literal that is ready is applied before the others. -/
theorem applyFilters_ready {s : Search K} {l : Literal K} (h : s.pending.find? (isReady s.bound) = some l) :
    fb.applyFilters s = fb.applyFilters ⟨s.bindings.filterMap (fb.check l),
      s.pending.eraseP (isReady s.bound), s.bound ++ l.vars⟩ := by
  rw [applyFilters]
  split
  · rename_i hnone
    cases h.symm.trans hnone
  · rename_i l' hsome
    rw [Option.some.inj (h.symm.trans hsome)]

/-- **What every step of a search keeps**: a property of the literals taken care of and of the search. -/
structure Search.Kept (fb : FactBase K) (c : Conjunction K)
    (P : List (Literal K) → Search K → Prop) : Prop where
  /-- Joining an atom keeps it. -/
  join : ∀ {done s} {a : Atom K}, P done s → .positive a ∈ c →
    P (.positive a :: done) { s with bindings := fb.join s.bindings a, bound := s.bound ++ a.vars }
  /-- Applying a filter that is ready keeps it, whatever literals go on waiting. -/
  filter : ∀ {done s} {l : Literal K}, P done s → l ∈ c → isReady s.bound l = true →
    ∀ rest, P (l :: done) ⟨s.bindings.filterMap (fb.check l), rest, s.bound ++ l.vars⟩

/-- **A search that has come so far**: it keeps the property, each literal that it has taken up is taken care
of or waits, and what waits is not ready. -/
structure Search.Rests (P : List (Literal K) → Search K → Prop) (taken : List (Literal K))
    (s : Search K) (done : List (Literal K)) : Prop where
  /-- The property holds. -/
  kept : P done s
  /-- No literal gets lost. -/
  mem_iff : ∀ l, l ∈ done ∨ l ∈ s.pending ↔ l ∈ taken
  /-- What waits is not ready. -/
  waits : ∀ l ∈ s.pending, isReady s.bound l = false

variable {c : Conjunction K} {P : List (Literal K) → Search K → Prop}

/-- **Applying the filters keeps what their steps keep**, until the search rests. -/
theorem Search.Kept.applyFilters (h : Search.Kept fb c P) (hs : P done s)
    (hpending : ∀ l ∈ s.pending, l ∈ c) :
    (∀ l ∈ (fb.applyFilters s).pending, l ∈ s.pending)
      ∧ ∃ done', Search.Rests P (done ++ s.pending) (fb.applyFilters s) done' := by
  induction hn : s.pending.length using Nat.strong_induction_on generalizing s done with
  | _ n ih =>
    cases hfind : s.pending.find? (isReady s.bound) with
    | none =>
      have hwaits : ∀ l ∈ s.pending, isReady s.bound l = false := by
        simpa using List.find?_eq_none.mp hfind
      rw [applyFilters_waiting hwaits]
      exact ⟨fun _ => id, done, hs, fun l => List.mem_append.symm, hwaits⟩
    | some l =>
      have hmem := mem_iff_of_find? hfind
      rw [applyFilters_ready hfind]
      obtain ⟨hsub, done', hrests⟩ := ih _ (hn ▸ length_eraseP_lt hfind)
        (h.filter hs (hpending l (List.mem_of_find?_eq_some hfind)) (List.find?_some hfind)
          (s.pending.eraseP (isReady s.bound)))
        (fun l' hl' => hpending l' ((hmem l').mpr (.inr hl'))) rfl
      refine ⟨fun l' hl' => (hmem l').mpr (.inr (hsub l' hl')), done', hrests.kept, fun l' => ?_,
        hrests.waits⟩
      rw [hrests.mem_iff, List.cons_append, List.mem_cons, List.mem_append, List.mem_append, hmem l']
      tauto

/-- **Joining atoms one after another keeps what the steps keep.** -/
theorem Search.Kept.foldl_step (h : Search.Kept fb c P) {taken : List (Literal K)}
    (hs : Search.Rests P taken s done) (hpending : ∀ l ∈ s.pending, l ∈ c) (atoms : List (Atom K))
    (hatoms : ∀ a ∈ atoms, .positive a ∈ c) :
    (∀ l ∈ (atoms.foldl fb.step s).pending, l ∈ s.pending)
      ∧ ∃ done', Search.Rests P (taken ++ atoms.map .positive) (atoms.foldl fb.step s) done' := by
  induction atoms generalizing s done taken with
  | nil =>
    rw [List.map_nil, List.append_nil]
    exact ⟨fun _ => id, done, hs⟩
  | cons a atoms ih =>
    obtain ⟨ha, hatoms⟩ := List.forall_mem_cons.mp hatoms
    obtain ⟨hsub₁, done₁, hrests₁⟩ := h.applyFilters (h.join hs.kept ha) hpending
    have hrests : Search.Rests P (taken ++ [.positive a]) (fb.step s a) done₁ := by
      refine ⟨hrests₁.kept, fun l => (hrests₁.mem_iff l).trans ?_, hrests₁.waits⟩
      rw [List.mem_append, List.mem_cons, List.mem_append, List.mem_singleton, ← hs.mem_iff l]
      tauto
    have hsub : ∀ l ∈ (fb.step s a).pending, l ∈ s.pending := hsub₁
    obtain ⟨hsub₂, done₂, hrests₂⟩ := ih hrests (fun l hl => hpending l (hsub l hl)) hatoms
    rw [List.append_assoc] at hrests₂
    exact ⟨fun l hl => hsub l (hsub₂ l hl), done₂, hrests₂⟩

/-- **What a whole run keeps**: a conjunction is solved by a search that has taken up its literals and rests.
It is solved when no literal waits, and else the first one that does is not safe. -/
theorem Search.Kept.solve (h : Search.Kept fb c P)
    (hstart : P [] ⟨[.empty], c.filter (·.positive?.isNone), []⟩) :
    ∃ s done, Search.Rests P c s done ∧ (∀ l ∈ s.pending, l.positive? = none)
      ∧ (s.pending = [] ∧ fb.solve c = .ok s.bindings
        ∨ ∃ l rest, s.pending = l :: rest ∧ fb.solve c = .error (.notSafe l.render)) := by
  have hfilters : ∀ l ∈ c.filter (·.positive?.isNone), l ∈ c := fun l hl => List.mem_of_mem_filter hl
  have hatoms : ∀ a, a ∈ c.filterMap Literal.positive? ↔ .positive a ∈ c := by
    intro a
    rw [List.mem_filterMap]
    constructor
    · rintro ⟨l, hl, hla⟩
      cases l <;> cases hla
      exact hl
    · exact fun ha => ⟨_, ha, rfl⟩
  obtain ⟨hsub₁, done₁, hrests₁⟩ := h.applyFilters hstart hfilters
  obtain ⟨hsub₂, done₂, hrests₂⟩ := h.foldl_step hrests₁ (fun l hl => hfilters l (hsub₁ l hl))
    (c.filterMap Literal.positive?) (fun a ha => (hatoms a).mp ha)
  refine ⟨_, done₂, ⟨hrests₂.kept, fun l => (hrests₂.mem_iff l).trans ?_, hrests₂.waits⟩, fun l hl => ?_, ?_⟩
  · -- positive literals are joined, the others are filters
    rw [List.nil_append, List.mem_append, List.mem_filter, List.mem_map]
    simp only [hatoms]
    constructor
    · rintro (⟨hl, -⟩ | ⟨a, ha, rfl⟩)
      · exact hl
      · exact ha
    · intro hl
      cases l with
      | positive a => exact .inr ⟨a, hl, rfl⟩
      | negative a => exact .inl ⟨hl, rfl⟩
      | compare d => exact .inl ⟨hl, rfl⟩
  · exact Option.isNone_iff_eq_none.mp (List.mem_filter.mp (hsub₁ l (hsub₂ l hl))).2
  · rw [FactBase.solve]
    generalize (c.filterMap Literal.positive?).foldl fb.step _ = s
    obtain ⟨bindings, pending, bound⟩ := s
    cases pending with
    | nil => exact .inl ⟨rfl, rfl⟩
    | cons l rest => exact .inr ⟨l, rest, rfl, rfl⟩

/-- The steps of a search for literals of the domain keep it exact. -/
theorem Search.kept_exact (hD : D.Covers fb) (hc : ∀ l ∈ c, D.Knows l.terms) :
    Search.Kept fb c fun done s => s.Exact fb D done where
  join := fun hs ha => hs.join hD (hc _ ha)
  filter := fun hs hl hready rest => hs.filter hD (hc _ hl) hready rest

/-- **A solved conjunction has been searched exactly**: the bindings found are those of an exact search
for all of its literals. -/
theorem exists_exact_of_solve (hD : D.Covers fb) {c : Conjunction K}
    (hc : ∀ l ∈ c, D.Knows l.terms) {bs : List (Binding K)} (h : fb.solve c = .ok bs) :
    ∃ s : Search K, s.bindings = bs ∧ s.Exact fb D c := by
  obtain ⟨s, done, hrests, -, ⟨hnil, hsolve⟩ | ⟨l, rest, -, hsolve⟩⟩ :=
    (Search.kept_exact hD hc).solve (exact_start _)
  · refine ⟨s, Except.ok.inj (hsolve.symm.trans h), hrests.kept.congr fun l => ?_⟩
    rw [← hrests.mem_iff l, hnil, or_iff_left List.not_mem_nil]
  · cases hsolve.symm.trans h

end FactBase

end RelationalLP
