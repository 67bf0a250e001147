import Mathlib
import RelationalLP.Proofs.Expr.Worlds
import RelationalLP.Proofs.Facts.Answers
import RelationalLP.Proofs.Number.Exact

/-! # Worlds that describe fact bases

A world describes a fact base when its constants cover the facts and the stored atoms are those that
hold. The answers of a decided formula over the selectors alone are then the tuples of constants that
make it true, each once. -/

namespace RelationalLP

namespace World

/-- The constants of a world as a domain. -/
def constants (w : World) : RelationalLP.Domain ℚ := {c | c ∈ w.domain}

/-- **A world that describes a fact base.** -/
structure Describes (w : World) (fb : FactBase ℚ) : Prop where
  /-- The stored atoms hold. -/
  truthOf_eq : w.truthOf = fb.holds
  /-- The constants cover the facts. -/
  covers : w.constants.Covers fb

/-- A stored atom is a row. -/
theorem Describes.holds_iff {w : World} {fb : FactBase ℚ} (hw : w.Describes fb)
    {template : PredicateTemplate} {t : Tuple ℚ} (ht : ∀ c ∈ t, c ∈ w.domain) :
    w.truthOf ⟨template, t.map .const⟩ = true ↔ t ∈ fb.rows template.name := by
  rw [hw.truthOf_eq]
  exact hw.covers.holds_iff ht

end World

variable {w : World} {fb : FactBase ℚ} {selectors : List Symbol} {f : Formula ℚ}

namespace FactBase

/-- Symbols bound to constants in order read as a tuple of constants. -/
theorem mem_tuples_of_reads {v : Valuation ℚ} (hv : w.constants.Inside v) {t : Tuple ℚ}
    (h : v.Reads selectors t) : t ∈ w.tuples selectors.length :=
  World.mem_tuples.mpr ⟨h.length_eq.symm, hv.mem_of_reads h⟩

/-- The valuation of an answer binds constants of the world only. -/
theorem inside_extend {t : Tuple ℚ} (ht : t ∈ w.tuples selectors.length) :
    w.constants.Inside (Valuation.unbound.extend selectors t) :=
  Domain.Inside.extend (fun _ _ hs => by cases hs) selectors (World.mem_tuples.mp ht).2

/-- **The answers of a decided formula** are the tuples of constants that make it true, each once. -/
theorem listing_answers (hw : w.Describes fb) (hf : w.constants.Knows f.terms)
    (hnodup : selectors.Nodup) (hscope : ∀ x ∈ f.occurrences, x ∈ selectors)
    (hdec : ∀ t ∈ w.tuples selectors.length,
      f.kleene (Valuation.unbound.extend selectors t) w.truthOf ≠ none)
    {ts : Answers ℚ} (h : fb.answers selectors f = .ok ts) :
    w.Listing selectors (fun u => f.kleene u w.truthOf = some true) .unbound ts := by
  simp only [hw.truthOf_eq] at hdec ⊢
  refine ⟨(collect_eq_ok h).1, fun t => ⟨fun ht => ?_, ?_⟩⟩
  · obtain ⟨b, hin, hvars, htrue, hb⟩ := collect_sound hw.covers hf h ht
    have hcells := yields_plain.mp hb
    have htuple := mem_tuples_of_reads hin hcells
    have hb : b.get? = Valuation.unbound.extend selectors t := by
      refine Valuation.eq_extend hnodup hcells fun x hx => ?_
      rw [Valuation.unbound, ← Option.not_isSome_iff_eq_none]
      exact fun hsome => hx (hscope x (hvars x hsome))
    rw [hb] at htrue
    exact ⟨htuple, (Formula.kleene_simplify_iff (hdec t htuple)).mp htrue⟩
  · rintro ⟨htuple, htrue⟩
    obtain ⟨hlen, -⟩ := World.mem_tuples.mp htuple
    exact (mem_answers_iff hw.covers hf h).mpr ⟨Valuation.unbound.extend selectors t,
      inside_extend htuple, (Formula.kleene_simplify_iff (hdec t htuple)).mpr htrue,
      Valuation.reads_extend _ hnodup hlen⟩

end FactBase

end RelationalLP
