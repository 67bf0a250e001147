import Mathlib
import RelationalLP.Proofs.Facts.Answers

/-! # Generic queries

A query treats constants that it does not mention alike. Where a map of constants keeps every comparison and
leaves the constants of a query as they are, answering commutes with it: what is answered from the mapped
facts is what is answered from the facts, mapped. -/

namespace RelationalLP

variable {K : Type}

/-! ### Mapping constants -/

/-- A term with its constant mapped. -/
def Term.mapConstant (φ : Constant K → Constant K) : Term K → Term K
  | var s => var s
  | const c => const (φ c)

/-- A binding to the mapped constants. -/
def Binding.mapConstants (φ : Constant K → Constant K) (b : Binding K) : Binding K :=
  ⟨b.entries.map fun (s, c) => (s, φ c)⟩

/-- The facts with their cells mapped. -/
def FactBase.mapConstants (φ : Constant K → Constant K) (fb : FactBase K) : FactBase K :=
  ⟨fb.facts.map fun (name, row) => (name, row.map φ)⟩

/-- A search with its bindings mapped. -/
def FactBase.Search.mapConstants (φ : Constant K → Constant K) (s : FactBase.Search K) : FactBase.Search K :=
  { s with bindings := s.bindings.map (Binding.mapConstants φ) }

/-- **A map of constants that keeps comparisons**: it tells apart what is different, and orders as before. -/
structure Constant.Embeds [Scalar K] (φ : Constant K → Constant K) : Prop where
  /-- Different constants stay different. -/
  injective : Function.Injective φ
  /-- Constants compare as before. -/
  compareValue_eq : ∀ x y, (φ x).compareValue (φ y) = x.compareValue y

variable {φ : Constant K → Constant K}

@[simp] theorem Binding.mapConstants_bind (b : Binding K) (s : Symbol) (c : Constant K) :
    (b.bind s c).mapConstants φ = (b.mapConstants φ).bind s (φ c) := rfl

@[simp] theorem Binding.mapConstants_empty : (empty : Binding K).mapConstants φ = empty := rfl

@[simp] theorem Binding.get?_mapConstants (b : Binding K) (s : Symbol) :
    (b.mapConstants φ).get? s = (b.get? s).map φ := by
  obtain ⟨entries⟩ := b
  simp only [get?, mapConstants]
  induction entries with
  | nil => rfl
  | cons p entries ih =>
    rw [List.map_cons, List.lookup_cons, List.lookup_cons, ih]
    cases s == p.1 <;> rfl

@[simp] theorem Term.constant?_mapConstant (t : Term K) :
    (t.mapConstant φ).constant? = t.constant?.map φ := by
  cases t <;> rfl

theorem FactBase.rows_mapConstants (fb : FactBase K) (relation : String) :
    (fb.mapConstants φ).rows relation = (fb.rows relation).map (List.map φ) := by
  rw [rows, rows, mapConstants, List.filterMap_map, List.map_filterMap]
  refine List.filterMap_congr fun p _ => ?_
  by_cases h : p.1 = relation
  · simp [h]
  · simp [h]

/-- A term that keeps its constant is put under a mapped binding as it is mapped after the binding. -/
theorem Term.substitute_mapConstants {ts : List (Term K)} (hts : Domain.Knows (Function.fixedPoints φ) ts)
    {t : Term K} (ht : t ∈ ts) (b : Binding K) :
    t.substitute (b.mapConstants φ) = (t.substitute b).mapConstant φ := by
  cases t with
  | const c => exact congrArg Term.const (hts c ht).symm
  | var s =>
    rw [substitute, substitute, Binding.get?_mapConstants]
    cases b.get? s <;> rfl

theorem Atom.arguments_substitute_mapConstants {a : Atom K}
    (ha : Domain.Knows (Function.fixedPoints φ) a.arguments) (b : Binding K) :
    (a.substitute (b.mapConstants φ)).arguments = (a.substitute b).arguments.map (Term.mapConstant φ) := by
  rw [substitute, substitute, List.map_map]
  exact List.map_congr_left fun t ht => Term.substitute_mapConstants ha ht b

/-- The tuple of an atom is mapped with its arguments. -/
theorem Atom.ground?_substitute_mapConstants {a : Atom K}
    (ha : Domain.Knows (Function.fixedPoints φ) a.arguments) (b : Binding K) :
    (a.substitute (b.mapConstants φ)).ground? = (a.substitute b).ground?.map (List.map φ) := by
  rw [ground?, arguments_substitute_mapConstants ha, List.mapM_map]
  exact mapM_eq_map_of_forall fun t _ => Term.constant?_mapConstant t

/-! ### Matching -/

variable [Scalar K]

theorem Constant.Embeds.sameValue_eq (hφ : Constant.Embeds φ) (x y : Constant K) :
    (φ x).sameValue (φ y) = x.sameValue y := by
  simp only [Constant.sameValue, hφ.compareValue_eq, hφ.injective.eq_iff]

theorem Constant.Embeds.decide_eq (hφ : Constant.Embeds φ) (op : CompareOp) (x y : Constant K) :
    Comparison.decide op (φ x) (φ y) = Comparison.decide op x y := by
  rw [Comparison.decide, Comparison.decide, hφ.compareValue_eq]

namespace FactBase

theorem startsWith_map (hφ : Constant.Embeds φ) (args row : Tuple K) :
    startsWith (args.map φ) (row.map φ) = startsWith args row := by
  induction args generalizing row with
  | nil => cases row <;> rfl
  | cons a args ih =>
    cases row with
    | nil => rfl
    | cons c row => rw [List.map_cons, List.map_cons, startsWith, startsWith, hφ.sameValue_eq, ih]

/-- **Unification is generic.** -/
theorem unify_mapConstants (hφ : Constant.Embeds φ) (b : Binding K) (ts : List (Term K)) (row : Tuple K) :
    unify (b.mapConstants φ) (ts.map (Term.mapConstant φ)) (row.map φ)
      = (unify b ts row).map (Binding.mapConstants φ) := by
  induction ts generalizing b row with
  | nil => cases row <;> rfl
  | cons t ts ih =>
    cases row with
    | nil => cases t <;> rfl
    | cons cell row =>
      cases t with
      | const c =>
        rw [List.map_cons, List.map_cons, Term.mapConstant, unify, unify, hφ.sameValue_eq, ih]
        cases c.sameValue cell <;> rfl
      | var s =>
        rw [List.map_cons, List.map_cons, Term.mapConstant, unify, unify, Binding.get?_mapConstants]
        cases b.get? s with
        | none => exact ih (b.bind s cell) row
        | some c =>
          simp only [Option.map_some]
          rw [hφ.sameValue_eq, ih]
          cases c.sameValue cell <;> rfl

/-- Whether an atom under a binding is a row. -/
theorem holds_mapConstants (hφ : Constant.Embeds φ) (fb : FactBase K) {a : Atom K}
    (ha : Domain.Knows (Function.fixedPoints φ) a.arguments) (b : Binding K) :
    (fb.mapConstants φ).holds (a.substitute (b.mapConstants φ)) = fb.holds (a.substitute b) := by
  rw [holds, holds, Atom.ground?_substitute_mapConstants ha]
  cases (a.substitute b).ground? with
  | none => rfl
  | some args =>
    show ((fb.mapConstants φ).rows a.name).any _ = (fb.rows a.name).any _
    rw [rows_mapConstants, List.any_map]
    refine List.any_congr rfl fun row => ?_
    rw [Function.comp_apply, startsWith_map hφ, List.length_map, List.length_map]

/-- **Joining is generic.** -/
theorem join_mapConstants (hφ : Constant.Embeds φ) (fb : FactBase K) (bs : List (Binding K)) {a : Atom K}
    (ha : Domain.Knows (Function.fixedPoints φ) a.arguments) :
    (fb.mapConstants φ).join (bs.map (Binding.mapConstants φ)) a
      = (fb.join bs a).map (Binding.mapConstants φ) := by
  have hrows : ((fb.mapConstants φ).rows a.name).filter (·.length == a.arity)
      = ((fb.rows a.name).filter (·.length == a.arity)).map (List.map φ) := by
    rw [rows_mapConstants, List.filter_map]
    congr 1
    exact List.filter_congr fun row _ => by rw [Function.comp_apply, List.length_map]
  rw [join, join, hrows, List.flatMap_map, List.map_flatMap]
  refine List.flatMap_congr fun b _ => ?_
  rw [List.filterMap_map, List.map_filterMap, Atom.arguments_substitute_mapConstants ha]
  exact List.filterMap_congr fun row _ => unify_mapConstants hφ b _ row

/-! ### Filters -/

/-- **Filtering is generic.** -/
theorem check_mapConstants (hφ : Constant.Embeds φ) (fb : FactBase K) {l : Literal K}
    (hl : Domain.Knows (Function.fixedPoints φ) l.terms) (b : Binding K) :
    (fb.mapConstants φ).check l (b.mapConstants φ) = (fb.check l b).map (Binding.mapConstants φ) := by
  cases l with
  | positive a =>
    rw [check, check, holds_mapConstants hφ fb hl]
    cases fb.holds (a.substitute b) <;> rfl
  | negative a =>
    rw [check, check, holds_mapConstants hφ fb hl]
    cases fb.holds (a.substitute b) <;> rfl
  | compare c =>
    have hleft := Term.substitute_mapConstants hl (t := c.left) (List.mem_cons_self) b
    have hright := Term.substitute_mapConstants hl (t := c.right) (by simp [Literal.terms, Comparison.terms]) b
    rw [check, check, hleft, hright]
    cases c.left.substitute b with
    | var s => cases c.right.substitute b <;> rfl
    | const x =>
      cases c.right.substitute b with
      | var s => rfl
      | const y =>
        show (if Comparison.decide c.op (φ x) (φ y) = true then _ else _) = Option.map _ (if _ then _ else _)
        rw [hφ.decide_eq]
        cases Comparison.decide c.op x y <;> rfl

/-- **Applying filters is generic**, and none starts to wait. -/
theorem applyFilters_mapConstants (hφ : Constant.Embeds φ) (fb : FactBase K) (s : Search K)
    (hs : ∀ l ∈ s.pending, Domain.Knows (Function.fixedPoints φ) l.terms) :
    (fb.mapConstants φ).applyFilters (s.mapConstants φ) = (fb.applyFilters s).mapConstants φ
      ∧ ∀ l ∈ (fb.applyFilters s).pending, l ∈ s.pending := by
  induction hn : s.pending.length using Nat.strong_induction_on generalizing s with
  | _ n ih =>
    cases hfind : s.pending.find? (isReady s.bound) with
    | none =>
      have hwaits : ∀ l ∈ s.pending, isReady s.bound l = false := by
        simpa using List.find?_eq_none.mp hfind
      rw [applyFilters_waiting hwaits, applyFilters_waiting (s := s.mapConstants φ) hwaits]
      exact ⟨rfl, fun _ => id⟩
    | some l =>
      -- the same literal is ready before and after mapping, and is taken out
      have hrest : ∀ l' ∈ s.pending.eraseP (isReady s.bound), l' ∈ s.pending :=
        fun l' hl' => List.mem_of_mem_eraseP hl'
      have hstep : (s.bindings.map (Binding.mapConstants φ)).filterMap ((fb.mapConstants φ).check l)
          = (s.bindings.filterMap (fb.check l)).map (Binding.mapConstants φ) := by
        rw [List.filterMap_map, List.map_filterMap]
        exact List.filterMap_congr fun b _ =>
          check_mapConstants hφ fb (hs l (List.mem_of_find?_eq_some hfind)) b
      obtain ⟨heq, hpending⟩ := ih _ (hn ▸ length_eraseP_lt hfind)
        ⟨s.bindings.filterMap (fb.check l), s.pending.eraseP (isReady s.bound), s.bound ++ l.vars⟩
        (fun l' hl' => hs l' (hrest l' hl')) rfl
      rw [applyFilters_ready hfind, applyFilters_ready (s := s.mapConstants φ) hfind]
      refine ⟨Eq.trans ?_ heq, fun l' hl' => hrest l' (hpending l' hl')⟩
      exact congrArg (fun bs => (fb.mapConstants φ).applyFilters
        ⟨bs, s.pending.eraseP (isReady s.bound), s.bound ++ l.vars⟩) hstep

/-- **Joining atoms one after another is generic.** -/
theorem foldl_step_mapConstants (hφ : Constant.Embeds φ) (fb : FactBase K) (s : Search K)
    (hs : ∀ l ∈ s.pending, Domain.Knows (Function.fixedPoints φ) l.terms) (atoms : List (Atom K))
    (hatoms : ∀ a ∈ atoms, Domain.Knows (Function.fixedPoints φ) a.arguments) :
    atoms.foldl (fb.mapConstants φ).step (s.mapConstants φ) = (atoms.foldl fb.step s).mapConstants φ := by
  induction atoms generalizing s with
  | nil => rfl
  | cons a atoms ih =>
    rw [List.forall_mem_cons] at hatoms
    obtain ⟨heq, hpending⟩ := applyFilters_mapConstants hφ fb
      { s with bindings := fb.join s.bindings a, bound := s.bound ++ a.vars } hs
    have hstep : (fb.mapConstants φ).step (s.mapConstants φ) a = (fb.step s a).mapConstants φ := by
      rw [step, step, ← heq]
      exact congrArg (fun bs => (fb.mapConstants φ).applyFilters ⟨bs, s.pending, s.bound ++ a.vars⟩)
        (join_mapConstants hφ fb s.bindings hatoms.1)
    rw [List.foldl_cons, List.foldl_cons, hstep]
    exact ih (fb.step s a) (fun l hl => hs l (hpending l hl)) hatoms.2

/-! ### Answers -/

/-- What a search comes to: its bindings, unless a literal still waits. -/
def Search.outcome (s : Search K) : Except KbError (List (Binding K)) :=
  match s.pending with
  | [] => .ok s.bindings
  | l :: _ => .error (.notSafe l.render)

theorem solve_eq_outcome (fb : FactBase K) (c : Conjunction K) :
    fb.solve c = ((c.filterMap Literal.positive?).foldl fb.step
      (fb.applyFilters ⟨[.empty], c.filter (·.positive?.isNone), []⟩)).outcome := rfl

theorem Search.outcome_mapConstants (s : Search K) :
    (s.mapConstants φ).outcome = s.outcome.map (List.map (Binding.mapConstants φ)) := by
  obtain ⟨bindings, pending, bound⟩ := s
  cases pending <;> rfl

/-- **Solving is generic.** -/
theorem solve_mapConstants (hφ : Constant.Embeds φ) (fb : FactBase K) {c : Conjunction K}
    (hc : ∀ l ∈ c, Domain.Knows (Function.fixedPoints φ) l.terms) :
    (fb.mapConstants φ).solve c = (fb.solve c).map (List.map (Binding.mapConstants φ)) := by
  have hfilters : ∀ l ∈ c.filter (·.positive?.isNone), Domain.Knows (Function.fixedPoints φ) l.terms :=
    fun l hl => hc l (List.mem_of_mem_filter hl)
  have hatoms : ∀ a ∈ c.filterMap Literal.positive?, Domain.Knows (Function.fixedPoints φ) a.arguments := by
    intro a ha
    obtain ⟨l, hl, hla⟩ := List.mem_filterMap.mp ha
    cases l <;> cases hla
    exact hc _ hl
  -- the search starts from the empty binding, which stays as it is
  obtain ⟨heq, hpending⟩ := applyFilters_mapConstants hφ fb
    ⟨[.empty], c.filter (·.positive?.isNone), []⟩ hfilters
  have hrun := foldl_step_mapConstants hφ fb _ (fun l hl => hfilters l (hpending l hl)) _ hatoms
  rw [← heq] at hrun
  rw [solve_eq_outcome, solve_eq_outcome, ← Search.outcome_mapConstants, ← hrun]
  rfl

omit [Scalar K] in
theorem select_mapConstants (selectors : List Symbol) (b : Binding K) :
    select selectors (b.mapConstants φ) = List.map φ <$> select selectors b := by
  refine mapM_eq_map_of_forall fun s _ => ?_
  rw [Binding.get?_mapConstants]
  cases b.get? s <;> rfl

theorem insertNew_map {α β : Type} [DecidableEq α] [DecidableEq β] {g : α → β}
    (hg : Function.Injective g) (xs : List α) (x : α) :
    insertNew (xs.map g) (g x) = (insertNew xs x).map g := by
  simp only [insertNew, List.mem_map_of_injective hg]
  split
  · rfl
  · rw [List.map_append, List.map_singleton]

theorem foldl_insertNew_map {α β : Type} [DecidableEq α] [DecidableEq β] {g : α → β}
    (hg : Function.Injective g) (xs acc : List α) :
    (xs.map g).foldl insertNew (acc.map g) = (xs.foldl insertNew acc).map g := by
  induction xs generalizing acc with
  | nil => rfl
  | cons x xs ih => rw [List.map_cons, List.foldl_cons, insertNew_map hg, ih, List.foldl_cons]

/-- Items that stay different are the same ones to keep. -/
theorem distinct_map {α β : Type} [DecidableEq α] [DecidableEq β] {g : α → β} (hg : Function.Injective g)
    (xs : List α) : distinct (xs.map g) = (distinct xs).map g :=
  foldl_insertNew_map hg xs []

theorem items_ofList_map {α β : Type} [DecidableEq α] [DecidableEq β] [Fingerprint α] [Fingerprint β]
    {g : α → β} (hg : Function.Injective g) (xs : List α) :
    (OrderedIndex.ofList (xs.map g)).items = (OrderedIndex.ofList xs).items.map g := by
  rw [OrderedIndex.items_ofList, OrderedIndex.items_ofList, distinct_map hg]

/-- **Answers are generic**: where a map of constants keeps comparisons and the constants of a query, the
answers from the mapped facts are the mapped answers. -/
theorem answers_mapConstants (hφ : Constant.Embeds φ) (fb : FactBase K) (selectors : List Symbol)
    {f : Formula K} (hf : Domain.Knows (Function.fixedPoints φ) f.terms) :
    (fb.mapConstants φ).answers selectors f = (fb.answers selectors f).map (List.map (List.map φ)) := by
  have hrow : ∀ b : Binding K, (do return (← select selectors (b.mapConstants φ)) ++ (← Except.ok []))
      = List.map φ <$> (do return (← select selectors b) ++ (← Except.ok []) : Except KbError (Tuple K)) := by
    intro b
    rw [select_mapConstants]
    cases select selectors b with
    | error e => rfl
    | ok t =>
      show Except.ok (t.map φ ++ []) = Except.ok ((t ++ []).map φ)
      rw [List.append_nil, List.append_nil]
  have hconj : ∀ c ∈ f.toDnf, (do (← (fb.mapConstants φ).solve c).mapM fun b =>
        do return (← select selectors b) ++ (← Except.ok []))
      = List.map (List.map φ) <$> (do (← fb.solve c).mapM fun b =>
        do return (← select selectors b) ++ (← Except.ok []) : Except KbError (List (Tuple K))) := by
    intro c hc
    rw [solve_mapConstants hφ fb (knows_of_mem_toDnf hf hc)]
    cases fb.solve c with
    | error e => rfl
    | ok bs =>
      show (bs.map (Binding.mapConstants φ)).mapM _ = _
      rw [List.mapM_map]
      exact mapM_eq_map_of_forall fun b _ => hrow b
  rw [answers, answers, collect, collect]
  -- a selector that is no variable is refused before the facts are asked
  cases selectors.find? (· ∉ f.vars) with
  | some s => rfl
  | none =>
    simp only [mapM_eq_map_of_forall hconj]
    generalize (f.toDnf.mapM _ : Except KbError (List (List (Tuple K)))) = found
    cases found with
    | error e => rfl
    | ok rows =>
      show Except.ok (OrderedIndex.ofList (rows.map (List.map (List.map φ))).flatten).items = _
      rw [← List.map_flatten, items_ofList_map (List.map_injective_iff.mpr hφ.injective)]
      rfl

end FactBase

/-- **What a query selects**, whatever facts it is asked of. -/
def Query.Selects (q : Query K) (P : FactBase K → Tuple K → Prop) : Prop :=
  ∀ fb : FactBase K, ∃ rows, fb.ask q.symbols q.formula none = .ok rows ∧ ∀ t, t ∈ rows ↔ P fb t

/-- **What a query selects is generic**: from mapped facts it selects the mapped tuples. -/
theorem Query.Selects.mapConstants_iff {q : Query K} {P : FactBase K → Tuple K → Prop} (hq : q.Selects P)
    (hφ : Constant.Embeds φ) (hf : Domain.Knows (Function.fixedPoints φ) q.formula.terms)
    (fb : FactBase K) {t : Tuple K} : P (fb.mapConstants φ) t ↔ ∃ u, P fb u ∧ u.map φ = t := by
  obtain ⟨rows, hrows, hmem⟩ := hq fb
  obtain ⟨mapped, hmapped, hmem'⟩ := hq (fb.mapConstants φ)
  have heq : mapped = rows.map (List.map φ) := by
    have hanswers : fb.answers q.symbols q.formula = .ok rows := hrows
    have hask : (fb.mapConstants φ).answers q.symbols q.formula = .ok mapped := hmapped
    rw [FactBase.answers_mapConstants hφ fb q.symbols hf, hanswers] at hask
    exact (Except.ok.inj hask).symm
  rw [← hmem', heq, List.mem_map]
  exact exists_congr fun u => and_congr_left fun _ => hmem u

end RelationalLP
