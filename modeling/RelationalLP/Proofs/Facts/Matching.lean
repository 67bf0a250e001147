import Mathlib
import RelationalLP.Facts.Answering
import RelationalLP.Proofs.Logic.NormalForms

/-! # Matching rows

The constants of facts and formulas form a domain. Where each of them compares with itself and no two of
them have one value, a row matches the arguments of an atom by being equal to them, so unification finds
exactly the valuations under which the atom is a row. -/

namespace RelationalLP

variable {K : Type}

/-- The constants that rows and formulas draw from. -/
abbrev Domain (K : Type) := Set (Constant K)

namespace Domain

/-- Every constant of some terms is in the domain. -/
def Knows (D : Domain K) (ts : List (Term K)) : Prop := ∀ c, .const c ∈ ts → c ∈ D

/-- A valuation binds symbols to constants of the domain only. -/
def Inside (D : Domain K) (v : Valuation K) : Prop := ∀ s c, v s = some c → c ∈ D

variable {D : Domain K}

/-- What is read inside a domain is in it. -/
theorem Inside.mem_of_reads {v : Valuation K} (hv : D.Inside v) {symbols : List Symbol} {t : Tuple K}
    (h : v.Reads symbols t) : ∀ c ∈ t, c ∈ D :=
  forall_mem_of_forall₂ h fun s _ c hc => hv s c hc

/-- Binding symbols to constants of a domain stays inside. -/
theorem Inside.extend {v : Valuation K} (hv : D.Inside v) (symbols : List Symbol)
    {t : Tuple K} (ht : ∀ c ∈ t, c ∈ D) : D.Inside (v.extend symbols t) := by
  induction symbols generalizing v t with
  | nil => rwa [Valuation.extend_nil]
  | cons s symbols ih =>
    cases t with
    | nil => exact hv
    | cons c t =>
      obtain ⟨hc, ht⟩ := List.forall_mem_cons.mp ht
      refine ih (fun x d hd => ?_) ht
      rw [Function.update_apply] at hd
      split at hd
      · rwa [← Option.some.inj hd]
      · exact hv x d hd

theorem Inside.valueAt {v : Valuation K} (hv : D.Inside v) {ts : List (Term K)} (hts : D.Knows ts)
    {t : Term K} (ht : t ∈ ts) {c : Constant K} (hc : t.valueAt v = some c) : c ∈ D := by
  cases t with
  | var s => exact hv s c hc
  | const d => exact hts c (Option.some.inj hc ▸ ht)

theorem Inside.bind {b : Binding K} (hb : D.Inside b.get?) (s : Symbol) {c : Constant K}
    (hc : c ∈ D) : D.Inside (b.bind s c).get? := by
  intro t d ht
  rw [Binding.get?_bind] at ht
  split at ht
  · rwa [← Option.some.inj ht]
  · exact hb t d ht

end Domain

/-- A ground atom has constants as arguments. -/
theorem Atom.ground?_eq_some_iff {a : Atom K} {t : Tuple K} :
    a.ground? = some t ↔ a.arguments = t.map .const := by
  have hconst : ∀ {x : Term K} {c}, x.constant? = some c ↔ x = .const c := by
    intro x c
    cases x with
    | var s => simp [Term.constant?]
    | const d => simp [Term.constant?]
  rw [Atom.ground?, mapM_eq_some_iff]
  simp only [hconst]
  rw [← List.forall₂_map_right_iff (R := (· = ·)), List.forall₂_eq_eq_eq]

theorem Atom.ground?_const (template : PredicateTemplate) (t : Tuple K) :
    (⟨template, t.map Term.const⟩ : Atom K).ground? = some t := Atom.ground?_eq_some_iff.mpr rfl

/-- An atom is a row under a binding when it stands for the atom of that row. -/
theorem Atom.ground?_substitute_eq_some_iff {a : Atom K} {b : Binding K} {row : Tuple K} :
    (a.substitute b).ground? = some row
      ↔ a.groundAt b.get? = some ⟨a.template, row.map .const⟩ := by
  constructor
  · intro h
    have heq : a.substitute b = ⟨a.template, row.map .const⟩ := by
      rw [ground?_eq_some_iff] at h
      exact congrArg (Atom.mk a.template) h
    have hground : (a.substitute b).isGround = true := by
      rw [heq]
      simp [isGround, Term.symbol?]
    rw [groundAt_get?, if_pos hground, heq]
  · intro h
    rw [substitute_of_groundAt h, ground?_const]

/-! ### Covered fact bases -/

variable [Scalar K]

namespace Domain

/-- **A domain that covers a fact base.** -/
structure Covers (D : Domain K) (fb : FactBase K) : Prop where
  /-- The cells of rows are constants of the domain. -/
  cells : ∀ name, ∀ row ∈ fb.rows name, ∀ c ∈ row, c ∈ D
  /-- A constant has a value, which is its own. -/
  reflexive : ∀ x ∈ D, x.compareValue x = some .eq
  /-- Different constants have different values. -/
  discrete : ∀ x ∈ D, ∀ y ∈ D, x.compareValue y = some .eq → x = y

variable {D : Domain K} {fb : FactBase K}

/-- Constants of the domain with one value are one constant. -/
theorem Covers.sameValue_iff (hD : D.Covers fb) {x y : Constant K} (hx : x ∈ D)
    (hy : y ∈ D) : x.sameValue y = true ↔ x = y := by
  rw [Constant.sameValue, Bool.or_eq_true, decide_eq_true_eq, beq_iff_eq]
  constructor
  · rintro (h | h)
    · exact h
    · exact hD.discrete x hx y hy h
  · exact .inl

/-- A row starts with arguments of the domain by literally starting with them. -/
theorem Covers.startsWith_iff (hD : D.Covers fb) {args row : Tuple K}
    (hargs : ∀ c ∈ args, c ∈ D) (hrow : ∀ c ∈ row, c ∈ D) :
    FactBase.startsWith args row = true ↔ args <+: row := by
  induction args generalizing row with
  | nil => exact iff_of_true (by cases row <;> rfl) List.nil_prefix
  | cons a args ih =>
    obtain ⟨ha, hargs⟩ := List.forall_mem_cons.mp hargs
    cases row with
    | nil => exact iff_of_false (by simp [FactBase.startsWith]) (by simp)
    | cons c row =>
      obtain ⟨hc, hrow⟩ := List.forall_mem_cons.mp hrow
      rw [FactBase.startsWith, Bool.and_eq_true, hD.sameValue_iff hc ha, ih hargs hrow,
        List.cons_prefix_cons, eq_comm]

end Domain

variable {D : Domain K} {fb : FactBase K}

/-- **A stored atom is a row.** -/
theorem Domain.Covers.holds_iff (hD : D.Covers fb) {template : PredicateTemplate} {t : Tuple K}
    (ht : ∀ c ∈ t, c ∈ D) :
    fb.holds ⟨template, t.map .const⟩ = true ↔ t ∈ fb.rows template.name := by
  rw [FactBase.holds, Atom.ground?_const]
  simp only [List.any_eq_true, Bool.and_eq_true, beq_iff_eq]
  constructor
  · rintro ⟨row, hrow, hstart, hlen⟩
    have hstarts := (hD.startsWith_iff ht (hD.cells _ row hrow)).mp hstart
    rw [hstarts.eq_of_length hlen.symm]
    exact hrow
  · intro h
    exact ⟨t, h, (hD.startsWith_iff ht ht).mpr (List.prefix_refl t), rfl⟩

namespace FactBase

/-! ### Unification -/

/-- A step of unification: the first term has the first cell as its value already, or it is an unbound
symbol and gets it. -/
theorem unify_cons_cases (hD : D.Covers fb) {b b' : Binding K} (hb : D.Inside b.get?) {t : Term K}
    {ts : List (Term K)} (hts : D.Knows (t :: ts)) {c : Constant K} (hc : c ∈ D) {row : Tuple K}
    (h : unify b (t :: ts) (c :: row) = some b') :
    t.valueAt b.get? = some c ∧ unify b ts row = some b'
      ∨ ∃ s, t = .var s ∧ b.get? s = none ∧ unify (b.bind s c) ts row = some b' := by
  cases t with
  | const d =>
    rw [unify] at h
    split at h
    · -- constants of the domain with one value are one constant
      rename_i hsame
      exact .inl ⟨congrArg some ((hD.sameValue_iff (hts d List.mem_cons_self) hc).mp hsame), h⟩
    · cases h
  | var s =>
    rw [unify] at h
    cases hs : b.get? s with
    | none =>
      rw [hs] at h
      exact .inr ⟨s, rfl, hs, h⟩
    | some d =>
      rw [hs] at h
      simp only at h
      split at h
      · rename_i hsame
        obtain rfl := (hD.sameValue_iff (hb s d hs) hc).mp hsame
        exact .inl ⟨hs, h⟩
      · cases h

/-- **What unification gives**: a binding that extends the given one by the variables of the terms, under
which the terms are the cells of the row. -/
theorem unify_sound (hD : D.Covers fb) {b b' : Binding K} {ts : List (Term K)} {row : Tuple K}
    (hb : D.Inside b.get?) (hts : D.Knows ts) (hrow : ∀ c ∈ row, c ∈ D)
    (hlen : row.length = ts.length) (h : unify b ts row = some b') :
    Valuation.Extends b'.get? b.get? ∧ D.Inside b'.get?
      ∧ (∀ x, (b'.get? x).isSome ↔ (b.get? x).isSome ∨ .var x ∈ ts)
      ∧ List.Forall₂ (fun t c => t.valueAt b'.get? = some c) ts row := by
  induction ts generalizing b row with
  | nil =>
    obtain rfl := List.length_eq_zero_iff.mp hlen
    rw [unify] at h
    · obtain rfl := Option.some.inj h
      exact ⟨.refl _, hb, by simp, .nil⟩
    · simp
    · simp
  | cons t ts ih =>
    cases row with
    | nil => simp at hlen
    | cons c row =>
      obtain ⟨hc, hrow⟩ := List.forall_mem_cons.mp hrow
      have hts' : D.Knows ts := fun d hd => hts d (List.mem_cons_of_mem _ hd)
      have hlen' : row.length = ts.length := Nat.succ.inj hlen
      rcases unify_cons_cases hD hb hts hc h with ⟨hval, h⟩ | ⟨s, rfl, hs, h⟩
      · obtain ⟨hext, hin, hbound, hall⟩ := ih hb hts' hrow hlen' h
        refine ⟨hext, hin, fun x => ?_, .cons (Term.valueAt_mono hext hval) hall⟩
        rw [hbound, List.mem_cons]
        constructor
        · exact Or.imp_right .inr
        · rintro (hx | rfl | hx)
          · exact .inl hx
          · -- the term is a symbol, which had its value before
            rw [Term.valueAt] at hval
            exact .inl (by rw [hval]; rfl)
          · exact .inr hx
      · obtain ⟨hext, hin, hbound, hall⟩ := ih (hb.bind s hc) hts' hrow hlen' h
        refine ⟨hext.trans (Binding.extends_bind hs c), hin, fun x => ?_, .cons ?_ hall⟩
        · rw [hbound, Binding.get?_bind, List.mem_cons, Term.var.injEq]
          by_cases hx : x = s
          · simp [hx]
          · simp [hx]
        · exact hext s c (by rw [Binding.get?_bind, if_pos rfl])

/-- **What unification finds**: whenever a valuation makes the terms the cells of the row, it extends the
binding that is found. -/
theorem unify_complete (hD : D.Covers fb) {b : Binding K} {ts : List (Term K)} {row : Tuple K}
    {v : Valuation K} (hb : v.Extends b.get?)
    (h : List.Forall₂ (fun t c => t.valueAt v = some c) ts row) (hrow : ∀ c ∈ row, c ∈ D) :
    ∃ b', unify b ts row = some b' ∧ v.Extends b'.get? := by
  induction h generalizing b with
  | nil => exact ⟨b, by simp [unify], hb⟩
  | @cons t c ts row hc _ ih =>
    obtain ⟨hcd, hrest⟩ := List.forall_mem_cons.mp hrow
    have hself : c.sameValue c = true := (hD.sameValue_iff hcd hcd).mpr rfl
    cases t with
    | const d =>
      -- a constant has its own value under every valuation
      obtain rfl := Option.some.inj hc
      obtain ⟨b', hb', hext⟩ := ih hb hrest
      exact ⟨b', by rw [unify, if_pos hself, hb'], hext⟩
    | var s =>
      cases hs : b.get? s with
      | some d =>
        -- a bound symbol has the constant of the valuation, which extends the binding
        obtain rfl := Option.some.inj ((hb s d hs).symm.trans hc)
        obtain ⟨b', hb', hext⟩ := ih hb hrest
        refine ⟨b', ?_, hext⟩
        rw [unify, hs]
        simp only [hself, if_true, hb']
      | none =>
        -- an unbound symbol gets the cell, as the valuation has it
        obtain ⟨b', hfound, hext⟩ := ih (hb.bind hc) hrest
        exact ⟨b', by rw [unify, hs]; exact hfound, hext⟩

end FactBase

end RelationalLP
