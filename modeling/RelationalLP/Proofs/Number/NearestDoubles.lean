import Mathlib
import RelationalLP.Proofs.Number.DoubleValues

/-! # Nearest doubles

The exact value of a double, and the patterns that a number rounds to. Patterns are compared without an
upper limit of the exponent, so that a number beyond the range has a nearest pattern too, which is that of
no finite double. -/

namespace RelationalLP

namespace Double

/-- The exact value of a finite double. -/
def exact (x : Double) : ℚ := (if x.isNegative then -1 else 1) * (x.units / unitsOfOne)

/-! ### Rounding -/

/-- **A pattern is nearest to a number of units**: no other is nearer, and another that is as near leaves
the choice to the even one. -/
def Nearest (u : ℚ) (pattern : ℕ) : Prop :=
  ∀ other, |u - unitsOf pattern| ≤ |u - unitsOf other|
    ∧ (|u - unitsOf pattern| = |u - unitsOf other| → other = pattern ∨ pattern % 2 = 0)

variable {u a b : ℚ} {p : ℕ}

/-- Beyond the middle of two numbers the greater one is nearer. -/
theorem abs_sub_le_of_add_le (hab : a ≤ b) (hu : a + b ≤ 2 * u) : |u - b| ≤ |u - a| := by
  have hua : 0 ≤ u - a := by linarith
  rw [abs_of_nonneg hua, abs_le]
  constructor <;> linarith

/-- Before the middle of two numbers the smaller one is nearer. -/
theorem abs_sub_le_of_le_add (hab : a ≤ b) (hu : 2 * u ≤ a + b) : |u - a| ≤ |u - b| := by
  have hbu : u - b ≤ 0 := by linarith
  rw [abs_of_nonpos hbu, abs_le]
  constructor <;> linarith

/-- In the middle of two numbers, and nowhere else, both are as near. -/
theorem add_eq_of_abs_sub_eq (hab : a < b) (hu : |u - a| = |u - b|) : a + b = 2 * u := by
  rcases abs_eq_abs.mp hu with h | h
  · linarith
  · linarith

/-- **What lies between the middles to both neighbours** rounds to a pattern, the middles themselves if it is
even. -/
theorem nearest_of_between (hbelow : ∀ q, q + 1 = p → (unitsOf q + unitsOf p : ℚ) ≤ 2 * u
      ∧ (unitsOf q + unitsOf p = 2 * u → p % 2 = 0))
    (habove : 2 * u ≤ unitsOf p + unitsOf (p + 1) ∧ (2 * u = unitsOf p + unitsOf (p + 1) → p % 2 = 0)) :
    Nearest u p := by
  have hmono : ∀ {i j : ℕ}, i ≤ j → (unitsOf i : ℚ) ≤ unitsOf j := fun h =>
    Nat.cast_le.mpr (unitsOf_strictMono.monotone h)
  have hstrict : ∀ {i j : ℕ}, i < j → (unitsOf i : ℚ) < unitsOf j := fun h =>
    Nat.cast_lt.mpr (unitsOf_strictMono h)
  intro other
  rcases lt_trichotomy other p with hlt | rfl | hgt
  · obtain ⟨q, rfl⟩ := Nat.exists_eq_add_of_lt hlt
    obtain ⟨hle, htie⟩ := hbelow (other + q) (by omega)
    have hnext := hmono (Nat.le_add_right other q)
    refine ⟨abs_sub_le_of_add_le (hstrict hlt).le (by linarith), fun heq => .inr (htie ?_)⟩
    have hmiddle := add_eq_of_abs_sub_eq (hstrict hlt) heq.symm
    linarith
  · exact ⟨le_rfl, fun _ => .inl rfl⟩
  · have hnext := hmono (Nat.succ_le_of_lt hgt)
    refine ⟨abs_sub_le_of_le_add (hstrict hgt).le (by linarith [habove.1]), fun heq =>
      .inr (habove.2 ?_)⟩
    have hmiddle := add_eq_of_abs_sub_eq (hstrict hgt) heq
    linarith [habove.1]

/-- **A number rounds to one pattern.** -/
theorem Nearest.unique {q : ℕ} (hp : Nearest u p) (hq : Nearest u q) : p = q := by
  have hle : ∀ {p q : ℕ}, Nearest u p → Nearest u q → ¬ p < q := by
    intro p q hp hq hlt
    have heq : |u - unitsOf p| = |u - unitsOf q| := le_antisymm (hp q).1 (hq p).1
    -- both are even, so that there is a pattern between them, which is nearer
    have heven : p % 2 = 0 := ((hp q).2 heq).resolve_left hlt.ne'
    have heven' : q % 2 = 0 := ((hq p).2 heq.symm).resolve_left hlt.ne
    have hbetween : (unitsOf p : ℚ) < unitsOf (p + 1) ∧ (unitsOf (p + 1) : ℚ) < unitsOf q :=
      ⟨Nat.cast_lt.mpr (unitsOf_strictMono (Nat.lt_succ_self p)),
        Nat.cast_lt.mpr (unitsOf_strictMono (by omega))⟩
    have hmiddle := add_eq_of_abs_sub_eq (hbetween.1.trans hbetween.2) heq
    have hnear := (hp (p + 1)).1
    rw [abs_of_nonneg (by linarith : (0 : ℚ) ≤ u - unitsOf p), le_abs] at hnear
    rcases hnear with h | h <;> linarith
  rcases lt_trichotomy p q with h | h | h
  · exact absurd h (hle hp hq)
  · exact h
  · exact absurd h (hle hq hp)

end Double

end RelationalLP
