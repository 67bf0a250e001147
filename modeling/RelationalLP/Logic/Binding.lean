import RelationalLP.Logic.Symbol
import RelationalLP.Logic.Constant

/-! # Bindings

Partial assignments of constants to symbols, as answers of queries produce them. A binding is read
through `get?`; each operation has a lemma that says what it does to this view. -/

namespace RelationalLP

/-- A partial assignment; the first entry for a symbol counts. -/
structure Binding (K : Type) where
  /-- The assigned pairs, the latest first. -/
  entries : List (Symbol × Constant K)

namespace Binding

variable {K : Type}

/-- The binding of no symbol. -/
def empty : Binding K := ⟨[]⟩

instance : Inhabited (Binding K) := ⟨empty⟩

/-- The constant bound to a symbol. -/
def get? (b : Binding K) (s : Symbol) : Option (Constant K) := b.entries.lookup s

/-- Whether a symbol is bound. -/
def contains (b : Binding K) (s : Symbol) : Bool := (b.get? s).isSome

/-- Whether no symbol is bound. -/
def isEmpty (b : Binding K) : Bool := b.entries.isEmpty

/-- Binds one symbol, whatever it was bound to. -/
def bind (b : Binding K) (s : Symbol) (c : Constant K) : Binding K := ⟨(s, c) :: b.entries⟩

/-- Binds symbols to the cells of a tuple in order; what is left over on either side is ignored. -/
def extend (b : Binding K) (symbols : List Symbol) (tuple : Tuple K) : Binding K :=
  (symbols.zip tuple).foldl (fun acc p => acc.bind p.1 p.2) b

/-- The binding of a query's symbols to one of its answers. -/
def ofAnswer (symbols : List Symbol) (tuple : Tuple K) : Binding K := empty.extend symbols tuple

/-- Forgets what some symbols are bound to. -/
def without (b : Binding K) (symbols : List Symbol) : Binding K :=
  ⟨b.entries.filter (·.1 ∉ symbols)⟩

@[simp] theorem get?_empty (s : Symbol) : (empty : Binding K).get? s = none := rfl

/-- A bound symbol reads as the constant bound last. -/
theorem get?_bind (b : Binding K) (s t : Symbol) (c : Constant K) :
    (b.bind s c).get? t = if t = s then some c else b.get? t := by
  by_cases h : t = s
  · subst h; simp [get?, bind]
  · simp [get?, bind, List.lookup_cons, beq_false_of_ne h, h]

/-- Forgotten symbols are unbound, the others keep their constants. -/
theorem get?_without (b : Binding K) (symbols : List Symbol) (t : Symbol) :
    (b.without symbols).get? t = if t ∈ symbols then none else b.get? t := by
  obtain ⟨entries⟩ := b
  simp only [get?, without]
  induction entries with
  | nil => simp
  | cons p entries ih =>
    obtain ⟨k, v⟩ := p
    by_cases hk : k ∈ symbols
    · rw [List.filter_cons_of_neg (by simpa using hk), ih, List.lookup_cons]
      by_cases ht : t = k
      · simp [ht, hk]
      · simp [beq_false_of_ne ht]
    · rw [List.filter_cons_of_pos (by simpa using hk), List.lookup_cons, List.lookup_cons, ih]
      by_cases ht : t = k
      · simp [ht, hk]
      · simp [beq_false_of_ne ht]

end Binding

end RelationalLP
