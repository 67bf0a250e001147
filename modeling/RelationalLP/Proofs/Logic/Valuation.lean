import Mathlib
import RelationalLP.Logic.Formula
import RelationalLP.Proofs.Collections.Traversal

/-! # Valuations

A binding read as a function from symbols to constants. Terms, atoms and comparisons are put under a
valuation as they are put under a binding; a renaming before it is a renaming of the valuation, and a
binding before it fills the valuation up. -/

namespace RelationalLP

variable {K : Type}

/-- A partial assignment of constants to symbols as a function. -/
abbrev Valuation (K : Type) := Symbol → Option (Constant K)

namespace Valuation

/-- The valuation of no symbol. -/
def unbound : Valuation K := fun _ => none

/-- What a valuation leaves open, filled in from another one. -/
def filled (v w : Valuation K) : Valuation K := fun s => (v s).or (w s)

/-- A valuation says all that another one says. -/
def Extends (v w : Valuation K) : Prop := ∀ s c, w s = some c → v s = some c

/-- A valuation before a renaming. -/
def renamed (v : Valuation K) (r : Renaming) : Valuation K := fun s => v (r.apply s)

/-- A valuation reads a tuple at some symbols. -/
abbrev Reads (v : Valuation K) (symbols : List Symbol) (t : Tuple K) : Prop :=
  List.Forall₂ (fun s c => v s = some c) symbols t

/-- Binds symbols to the cells of a tuple in order. -/
def extend (v : Valuation K) : List Symbol → Tuple K → Valuation K
  | s :: symbols, c :: tuple => extend (Function.update v s (some c)) symbols tuple
  | _, _ => v

namespace Reads

variable {v w : Valuation K} {symbols : List Symbol} {t u : Tuple K}

/-- A valuation reads one tuple. -/
theorem unique (ht : v.Reads symbols t) (hu : v.Reads symbols u) : t = u :=
  List.right_unique_forall₂' (fun _ _ _ hc hd => Option.some.inj (hc.symm.trans hd)) ht hu

/-- A valuation that says more reads the same tuple. -/
theorem of_extends (h : w.Reads symbols t) (hext : v.Extends w) : v.Reads symbols t :=
  h.imp fun s c hc => hext s c hc

/-- Valuations that read one tuple agree on the symbols. -/
theorem eq_of_mem (hv : v.Reads symbols t) (hw : w.Reads symbols t) : ∀ x ∈ symbols, v x = w x := by
  induction hv with
  | nil => exact fun x hx => absurd hx List.not_mem_nil
  | cons hc _ ih =>
    obtain ⟨hd, hw⟩ := List.forall₂_cons.mp hw
    rw [List.forall_mem_cons]
    exact ⟨hc.trans hd.symm, ih hw⟩

/-- A valuation that agrees on the symbols reads the same tuple. -/
theorem congr (hv : v.Reads symbols t) (h : ∀ x ∈ symbols, w x = v x) : w.Reads symbols t := by
  have hboth := (List.forall₂_and_left _ _).mpr ⟨h, hv⟩
  exact hboth.imp fun x c hx => hx.1.trans hx.2

end Reads

/-- What is read at renamed symbols is read by the valuation before the renaming. -/
theorem reads_map {v : Valuation K} {symbols : List Symbol} {t : Tuple K} {r : Renaming} :
    v.Reads (symbols.map r.apply) t ↔ (v.renamed r).Reads symbols t :=
  List.forall₂_map_left_iff

/-- The symbols of two lists are read one list after the other. -/
theorem reads_append {v : Valuation K} {symbols others : List Symbol} {t u : Tuple K}
    (hlen : t.length = symbols.length) :
    v.Reads (symbols ++ others) (t ++ u) ↔ v.Reads symbols t ∧ v.Reads others u := by
  constructor
  · intro h
    have hleft := List.forall₂_take_append _ _ _ h
    have hright := List.forall₂_drop_append _ _ _ h
    rw [hlen, List.take_left] at hleft
    rw [hlen, List.drop_left] at hright
    exact ⟨hleft, hright⟩
  · rintro ⟨hleft, hright⟩
    exact List.rel_append hleft hright

@[simp] theorem extend_nil (v : Valuation K) (t : Tuple K) : v.extend [] t = v := by
  rw [extend]
  exact nofun

@[simp] theorem extend_cons (v : Valuation K) (s : Symbol) (symbols : List Symbol) (c : Constant K)
    (t : Tuple K) :
    v.extend (s :: symbols) (c :: t) = extend (Function.update v s (some c)) symbols t := rfl

/-- Binding some symbols, then others. -/
theorem extend_append (v : Valuation K) {symbols : List Symbol} {t : Tuple K}
    (hlen : t.length = symbols.length) (others : List Symbol) (u : Tuple K) :
    v.extend (symbols ++ others) (t ++ u) = (v.extend symbols t).extend others u := by
  induction symbols generalizing v t with
  | nil => rw [List.length_eq_zero_iff.mp hlen, extend_nil, List.nil_append, List.nil_append]
  | cons s symbols ih =>
    cases t with
    | nil => cases hlen
    | cons c t => exact ih _ (Nat.succ.inj hlen)

/-- Other symbols keep their constants. -/
theorem extend_of_notMem (v : Valuation K) {symbols : List Symbol} (t : Tuple K) {s : Symbol}
    (h : s ∉ symbols) : v.extend symbols t s = v s := by
  induction symbols generalizing v t with
  | nil => rw [extend_nil]
  | cons x symbols ih =>
    rw [List.mem_cons, not_or] at h
    obtain ⟨hne, hmem⟩ := h
    cases t with
    | nil => rfl
    | cons c t => rw [extend_cons, ih _ _ hmem, Function.update_of_ne hne]

/-- The `i`-th symbol is bound to the `i`-th cell. -/
theorem extend_getElem (v : Valuation K) {symbols : List Symbol} (hnodup : symbols.Nodup)
    {t : Tuple K} (hlen : t.length = symbols.length) (i : ℕ) (hi : i < symbols.length) :
    v.extend symbols t symbols[i] = some t[i] := by
  induction symbols generalizing v t i with
  | nil => exact absurd hi (Nat.not_lt_zero i)
  | cons x symbols ih =>
    obtain ⟨hx, hnodup⟩ := List.nodup_cons.mp hnodup
    cases t with
    | nil => exact nomatch hlen
    | cons c t =>
      cases i with
      | zero =>
        rw [extend_cons, List.getElem_cons_zero, extend_of_notMem _ _ hx, Function.update_self,
          List.getElem_cons_zero]
      | succ i =>
        simp only [extend_cons, List.getElem_cons_succ]
        exact ih _ hnodup (Nat.succ.inj hlen) i (Nat.lt_of_succ_lt_succ hi)

/-- The symbols are bound to the cells. -/
theorem reads_extend (v : Valuation K) {symbols : List Symbol} (hnodup : symbols.Nodup)
    {t : Tuple K} (hlen : t.length = symbols.length) : (v.extend symbols t).Reads symbols t := by
  refine List.forall₂_iff_get.mpr ⟨hlen.symm, fun i hi _ => ?_⟩
  exact extend_getElem v hnodup hlen i hi

/-- A valuation that binds symbols to cells and is another one elsewhere extends that one. -/
theorem eq_extend {u v : Valuation K} {symbols : List Symbol} (hnodup : symbols.Nodup) {t : Tuple K}
    (h : u.Reads symbols t) (hrest : ∀ s ∉ symbols, u s = v s) : u = v.extend symbols t := by
  have hext := reads_extend v hnodup h.length_eq.symm
  funext s
  by_cases hs : s ∈ symbols
  · obtain ⟨i, hi, rfl⟩ := List.mem_iff_getElem.mp hs
    have hi' : i < t.length := h.length_eq ▸ hi
    exact ((List.forall₂_iff_get.mp h).2 i hi hi').trans
      ((List.forall₂_iff_get.mp hext).2 i hi hi').symm
  · rw [hrest s hs, extend_of_notMem v t hs]

/-- Symbols bound to the cells of a tuple have the constants of any valuation that reads it. -/
theorem Reads.extend_eq {v : Valuation K} {symbols : List Symbol} {t : Tuple K}
    (h : v.Reads symbols t) (w : Valuation K) : ∀ x ∈ symbols, w.extend symbols t x = v x := by
  induction h generalizing w with
  | nil => exact fun x hx => absurd hx List.not_mem_nil
  | @cons s c symbols t hc _ ih =>
    intro x hx
    rw [extend_cons]
    by_cases hmem : x ∈ symbols
    · exact ih _ x hmem
    · obtain rfl : x = s := (List.mem_cons.mp hx).resolve_right hmem
      rw [extend_of_notMem _ _ hmem, Function.update_self, hc]

/-- Only what the valuation says of other symbols matters. -/
theorem extend_congr {v w : Valuation K} {symbols : List Symbol} {t : Tuple K}
    (hlen : t.length = symbols.length) {s : Symbol} (h : s ∉ symbols → v s = w s) :
    v.extend symbols t s = w.extend symbols t s := by
  induction symbols generalizing v w t with
  | nil =>
    rw [extend_nil, extend_nil]
    exact h List.not_mem_nil
  | cons x symbols ih =>
    cases t with
    | nil => exact nomatch hlen
    | cons c t =>
      refine ih (Nat.succ.inj hlen) fun hs => ?_
      by_cases hx : s = x
      · rw [hx, Function.update_self, Function.update_self]
      · rw [Function.update_of_ne hx, Function.update_of_ne hx]
        exact h (by rw [List.mem_cons, not_or]; exact ⟨hx, hs⟩)

theorem Extends.refl (v : Valuation K) : v.Extends v := fun _ _ h => h

theorem Extends.trans {u v w : Valuation K} (h : u.Extends v) (h' : v.Extends w) : u.Extends w :=
  fun s c hw => h s c (h' s c hw)

/-- Binding symbols to the cells that they have says no more. -/
theorem extends_extend {u : Valuation K} {symbols : List Symbol} (hnodup : symbols.Nodup)
    {t : Tuple K} (h : u.Reads symbols t) : u.Extends (unbound.extend symbols t) := by
  have heq : (fun s => if s ∈ symbols then u s else none) = unbound.extend symbols t :=
    eq_extend hnodup (h.congr fun s hs => if_pos hs) fun s hs => if_neg hs
  intro s c hc
  have hbound : (if s ∈ symbols then u s else none) = some c := by rw [← hc, ← heq]
  split at hbound
  · exact hbound
  · cases hbound

/-- What says more is not changed by filling it up with what says less. -/
theorem Extends.filled_eq {v w : Valuation K} (h : v.Extends w) : w.filled v = v := by
  funext s
  rw [filled]
  cases hs : w s with
  | none => rfl
  | some c => exact (h s c hs).symm

end Valuation

/-! ### Bindings as valuations -/

theorem Binding.get?_bind_eq_update (b : Binding K) (s : Symbol) (c : Constant K) :
    (b.bind s c).get? = Function.update b.get? s (some c) := by
  funext t
  rw [Binding.get?_bind, Function.update_apply]

/-- Binding an unbound symbol says more. -/
theorem Binding.extends_bind {b : Binding K} {s : Symbol} (h : b.get? s = none) (c : Constant K) :
    Valuation.Extends (b.bind s c).get? b.get? := by
  intro t d ht
  rw [Binding.get?_bind, if_neg, ht]
  rintro rfl
  rw [h] at ht
  cases ht

/-- A valuation says what a binding and one more pair say when it says both. -/
theorem Valuation.Extends.bind {v : Valuation K} {b : Binding K} (h : v.Extends b.get?) {s : Symbol}
    {c : Constant K} (hc : v s = some c) : v.Extends (b.bind s c).get? := by
  intro t d ht
  rw [Binding.get?_bind] at ht
  split at ht
  · rename_i heq
    rw [heq, ← Option.some.inj ht]
    exact hc
  · exact h t d ht

/-- Extending a binding extends its valuation. -/
theorem Binding.get?_extend (b : Binding K) (symbols : List Symbol) (t : Tuple K) :
    (b.extend symbols t).get? = Valuation.extend b.get? symbols t := by
  induction symbols generalizing b t with
  | nil => rw [Valuation.extend_nil, Binding.extend, List.zip_nil_left, List.foldl_nil]
  | cons s symbols ih =>
    cases t with
    | nil => rfl
    | cons c t =>
      rw [Valuation.extend_cons, ← Binding.get?_bind_eq_update, ← ih]
      rfl

/-- The binding of an answer binds the symbols and nothing else. -/
theorem Binding.get?_ofAnswer (symbols : List Symbol) (t : Tuple K) :
    (Binding.ofAnswer symbols t).get? = Valuation.extend .unbound symbols t :=
  Binding.get?_extend .empty symbols t

theorem Valuation.filled_unbound (v : Valuation K) : v.filled .unbound = v := by
  funext s
  rw [filled, unbound, Option.or_none]

/-- Binding symbols on top of a filled valuation: what the binding says of these symbols is lost. -/
theorem Valuation.filled_without_extend (b : Binding K) {symbols : List Symbol} {t : Tuple K}
    (hlen : t.length = symbols.length) (v : Valuation K) :
    Valuation.filled (b.without symbols).get? (v.extend symbols t)
      = (Valuation.filled b.get? v).extend symbols t := by
  funext s
  rw [filled, Binding.get?_without]
  by_cases hs : s ∈ symbols
  · rw [if_pos hs, Option.none_or]
    exact extend_congr hlen fun h => absurd hs h
  · rw [if_neg hs, extend_of_notMem _ _ hs, extend_of_notMem _ _ hs, filled]

/-! ### Terms -/

namespace Term

/-- The constant that a term stands for, if it stands for one. -/
def valueAt (v : Valuation K) : Term K → Option (Constant K)
  | var s => v s
  | const c => some c

theorem valueAt_rename (r : Renaming) (v : Valuation K) (t : Term K) :
    (t.rename r).valueAt v = t.valueAt (v.renamed r) := by
  cases t <;> rfl

theorem valueAt_substitute (b : Binding K) (v : Valuation K) (t : Term K) :
    (t.substitute b).valueAt v = t.valueAt (Valuation.filled b.get? v) := by
  cases t with
  | const c => rfl
  | var s =>
    simp only [substitute, valueAt, Valuation.filled]
    cases b.get? s with
    | some c => rfl
    | none => rfl

theorem valueAt_congr {v w : Valuation K} {t : Term K} (h : ∀ s ∈ t.symbol?, v s = w s) :
    t.valueAt v = t.valueAt w := by
  cases t with
  | const c => rfl
  | var s => exact h s rfl

theorem valueAt_mono {v w : Valuation K} (h : v.Extends w) {t : Term K} {c : Constant K}
    (ht : t.valueAt w = some c) : t.valueAt v = some c := by
  cases t with
  | const d => exact ht
  | var s => exact h s c ht

/-- A term under a binding is its constant, or the term itself. -/
theorem substitute_eq (b : Binding K) (t : Term K) :
    t.substitute b = ((t.valueAt b.get?).map const).getD t := by
  cases t with
  | const c => rfl
  | var s =>
    simp only [substitute, valueAt]
    cases b.get? s with
    | some c => rfl
    | none => rfl

/-- A term under a binding is a constant when it stands for one. -/
theorem substitute_eq_const {b : Binding K} {t : Term K} {c : Constant K}
    (h : t.valueAt b.get? = some c) : t.substitute b = const c := by
  rw [substitute_eq, h, Option.map_some, Option.getD_some]

/-- A term under a binding is the term itself when it stands for nothing. -/
theorem substitute_eq_self {b : Binding K} {t : Term K} (h : t.valueAt b.get? = none) :
    t.substitute b = t := by
  rw [substitute_eq, h, Option.map_none, Option.getD_none]

/-- A term stands for a constant when its variable has one. -/
theorem isSome_valueAt (v : Valuation K) (t : Term K) :
    (t.valueAt v).isSome ↔ ∀ s ∈ t.symbol?, (v s).isSome := by
  cases t <;> simp [valueAt, symbol?]

end Term

/-! ### Atoms -/

namespace Atom

/-- The ground atom that an atom stands for, if every variable has a constant. -/
def groundAt (v : Valuation K) (a : Atom K) : Option (Atom K) :=
  (a.arguments.mapM (Term.valueAt v)).map fun t => ⟨a.template, t.map .const⟩

theorem mem_vars {a : Atom K} {s : Symbol} :
    s ∈ a.vars ↔ ∃ t ∈ a.arguments, t.symbol? = some s := List.mem_filterMap

theorem groundAt_eq_some_iff {v : Valuation K} {a g : Atom K} : a.groundAt v = some g
    ↔ ∃ t, List.Forall₂ (fun x c => x.valueAt v = some c) a.arguments t
      ∧ g = ⟨a.template, t.map .const⟩ := by
  rw [groundAt, Option.map_eq_some_iff]
  constructor
  · rintro ⟨t, ht, rfl⟩
    exact ⟨t, mapM_eq_some_iff.mp ht, rfl⟩
  · rintro ⟨t, ht, rfl⟩
    exact ⟨t, mapM_eq_some_iff.mpr ht, rfl⟩

/-- The ground atom has the predicate of the atom. -/
theorem template_of_groundAt {v : Valuation K} {a g : Atom K} (h : a.groundAt v = some g) :
    g.template = a.template := by
  obtain ⟨t, -, rfl⟩ := groundAt_eq_some_iff.mp h
  rfl

theorem groundAt_rename (r : Renaming) (v : Valuation K) (a : Atom K) :
    (a.rename r).groundAt v = a.groundAt (v.renamed r) := by
  rw [groundAt, groundAt, rename, List.mapM_map]
  exact congrArg _ (mapM_congr fun t _ => t.valueAt_rename r v)

theorem groundAt_substitute (b : Binding K) (v : Valuation K) (a : Atom K) :
    (a.substitute b).groundAt v = a.groundAt (Valuation.filled b.get? v) := by
  rw [groundAt, groundAt, substitute, List.mapM_map]
  exact congrArg _ (mapM_congr fun t _ => t.valueAt_substitute b v)

theorem groundAt_congr {v w : Valuation K} {a : Atom K} (h : ∀ s ∈ a.vars, v s = w s) :
    a.groundAt v = a.groundAt w := by
  rw [groundAt, groundAt, mapM_congr fun t ht => Term.valueAt_congr fun s hs =>
    h s (mem_vars.mpr ⟨t, ht, hs⟩)]

/-- An atom is ground when every variable has a constant. -/
theorem isSome_groundAt (v : Valuation K) (a : Atom K) :
    (a.groundAt v).isSome ↔ ∀ s ∈ a.vars, (v s).isSome := by
  rw [groundAt, Option.isSome_map, isSome_mapM_iff]
  constructor
  · intro h s hs
    obtain ⟨t, ht, hsym⟩ := mem_vars.mp hs
    exact (Term.isSome_valueAt v t).mp (h t ht) s hsym
  · intro h t ht
    exact (Term.isSome_valueAt v t).mpr fun s hs => h s (mem_vars.mpr ⟨t, ht, hs⟩)

/-- What an atom stands for has no variables. -/
theorem isGround_of_groundAt {v : Valuation K} {a g : Atom K} (h : a.groundAt v = some g) :
    g.isGround = true := by
  obtain ⟨t, -, rfl⟩ := Option.map_eq_some_iff.mp h
  simp [isGround, Term.symbol?]

/-- Substitution gives the ground atom that an atom stands for. -/
theorem substitute_of_groundAt {b : Binding K} {a g : Atom K} (h : a.groundAt b.get? = some g) :
    a.substitute b = g := by
  obtain ⟨t, ht, rfl⟩ := Option.map_eq_some_iff.mp h
  have hterms : List.Forall₂ (· = ·) (a.arguments.map (Term.substitute b)) (t.map Term.const) := by
    rw [List.forall₂_map_left_iff, List.forall₂_map_right_iff]
    refine (mapM_eq_some_iff.mp ht).imp fun x c hx => ?_
    rw [Term.substitute_eq, hx]
    rfl
  rw [List.forall₂_eq_eq_eq] at hterms
  rw [substitute, hterms]

/-- An atom is ground after substitution exactly when it stands for an atom. -/
theorem isGround_substitute (b : Binding K) (a : Atom K) :
    (a.substitute b).isGround = true ↔ (a.groundAt b.get?).isSome := by
  constructor
  · intro h
    rw [isSome_groundAt]
    intro s hs
    obtain ⟨t, ht, hsym⟩ := mem_vars.mp hs
    have hnone := List.all_eq_true.mp h _ (List.mem_map_of_mem ht)
    cases t with
    | const c => exact nomatch hsym
    | var x =>
      obtain rfl := Option.some.inj hsym
      rw [Term.substitute] at hnone
      cases hb : b.get? x with
      | some c => rfl
      | none =>
        rw [hb] at hnone
        exact nomatch hnone
  · intro h
    obtain ⟨g, hg⟩ := Option.isSome_iff_exists.mp h
    rw [substitute_of_groundAt hg]
    exact isGround_of_groundAt hg

/-- Under a binding an atom stands for the result of substitution, if that is ground. -/
theorem groundAt_get? (b : Binding K) (a : Atom K) :
    a.groundAt b.get? = if (a.substitute b).isGround then some (a.substitute b) else none := by
  split
  · rename_i h
    obtain ⟨g, hg⟩ := Option.isSome_iff_exists.mp ((isGround_substitute b a).mp h)
    rw [hg, substitute_of_groundAt hg]
  · rename_i h
    rwa [isGround_substitute, Option.not_isSome_iff_eq_none] at h

/-- Where every variable is bound, an atom stands for the result of substitution. -/
theorem groundAt_of_bound {b : Binding K} {a : Atom K} (h : ∀ s ∈ a.vars, (b.get? s).isSome) :
    a.groundAt b.get? = some (a.substitute b) := by
  obtain ⟨g, hg⟩ := Option.isSome_iff_exists.mp ((a.isSome_groundAt b.get?).mpr h)
  rw [hg, substitute_of_groundAt hg]

end Atom

end RelationalLP
