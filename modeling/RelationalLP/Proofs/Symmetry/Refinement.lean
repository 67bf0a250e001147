import Mathlib
import RelationalLP.Proofs.Symmetry.ClassNumbers

/-! # Rounds of colour refinement

One round splits the classes of nodes that see different colours around them and nothing else. So the
colours get finer, a round that does not raise their number leaves the classes as they are, and the loop
ends before it has run more rounds than there are nodes. What it ends with is stable, and every stable
labelling that is finer than the first colours is finer than the last ones. -/

namespace RelationalLP

/-! ### Finer labellings -/

/-- On the first `n` nodes a labelling is finer than another one: nodes with one label in the first have
one label in the second. -/
def Finer {β γ : Type} (n : ℕ) (f : ℕ → β) (g : ℕ → γ) : Prop :=
  ∀ u < n, ∀ v < n, f u = f v → g u = g v

namespace Finer

variable {β γ δ : Type} {n : ℕ} {f : ℕ → β} {g : ℕ → γ} {h : ℕ → δ}

theorem refl (n : ℕ) (f : ℕ → β) : Finer n f f := fun _ _ _ _ h => h

theorem trans (hfg : Finer n f g) (hgh : Finer n g h) : Finer n f h := fun u hu v hv heq =>
  hgh u hu v hv (hfg u hu v hv heq)

/-- The coarser label is a function of the finer one. -/
theorem exists_factor (hfg : Finer n f g) : ∃ k : β → γ, ∀ u < n, g u = k (f u) := by
  classical
  refine ⟨fun b => if hb : ∃ u < n, f u = b then g hb.choose else g 0, fun u hu => ?_⟩
  have hb : ∃ w < n, f w = f u := ⟨u, hu, rfl⟩
  beta_reduce
  rw [dif_pos hb]
  exact hfg u hu _ hb.choose_spec.1 hb.choose_spec.2.symm

end Finer

/-- The edges around a node with the labels at their other ends. -/
def seen {β : Type} (f : ℕ → β) (around : List (ℕ × ℕ)) : List (ℕ × β) :=
  around.map fun p => (p.1, f p.2)

/-- Nodes that see the same finer labels see the same coarser ones. -/
theorem Finer.seen_perm {β γ : Type} {n : ℕ} {f : ℕ → β} {g : ℕ → γ} (hfg : Finer n f g)
    {xs ys : List (ℕ × ℕ)} (hxs : ∀ p ∈ xs, p.2 < n) (hys : ∀ p ∈ ys, p.2 < n)
    (h : (seen f xs).Perm (seen f ys)) : (seen g xs).Perm (seen g ys) := by
  obtain ⟨k, hk⟩ := hfg.exists_factor
  have hseen : ∀ zs : List (ℕ × ℕ), (∀ p ∈ zs, p.2 < n) →
      seen g zs = (seen f zs).map fun p => (p.1, k p.2) := by
    intro zs hzs
    rw [seen, seen, List.map_map]
    refine List.map_congr_left fun p hp => ?_
    rw [Function.comp_apply, hk p.2 (hzs p hp)]
  rw [hseen xs hxs, hseen ys hys]
  exact h.map _

/-- **A stable labelling** of the first `n` nodes: nodes with one label have one first colour and see
the same labels across edges of each colour. -/
structure Stable {β γ : Type} (n : ℕ) (adj : ColorRefinement.Adjacency) (first : ℕ → γ) (f : ℕ → β) :
    Prop where
  /-- It is finer than the first colours. -/
  finer : Finer n f first
  /-- Nodes with one label see the same. -/
  seen_perm : ∀ u < n, ∀ v < n, f u = f v → (seen f (adj.getD u [])).Perm (seen f (adj.getD v []))

/-- A labelling with the same classes as a stable one is stable. -/
theorem Stable.congr {β γ δ : Type} {n : ℕ} {adj : ColorRefinement.Adjacency} {first : ℕ → γ}
    {f : ℕ → β} {g : ℕ → δ} (hf : Stable n adj first f)
    (hinside : ∀ u < n, ∀ p ∈ adj.getD u [], p.2 < n) (hfg : Finer n f g) (hgf : Finer n g f) :
    Stable n adj first g where
  finer := hgf.trans hf.finer
  seen_perm := fun u hu v hv heq => hfg.seen_perm (hinside u hu) (hinside v hv)
    (hf.seen_perm u hu v hv (hgf u hu v hv heq))

/-! ### Counting colours -/

section Counting

variable {α : Type} [DecidableEq α] [Fingerprint α]

/-- Places have one number exactly when they have one label. -/
theorem getElem?_relabel_eq_iff {labels : List α} {u v : ℕ} :
    (relabel labels)[u]? = (relabel labels)[v]? ↔ labels[u]? = labels[v]? := by
  rw [relabel_eq_map_idxOf, List.getElem?_map, List.getElem?_map]
  cases hu : labels[u]? with
  | none => cases labels[v]? <;> simp
  | some a =>
    have ha : a ∈ distinct labels := mem_distinct.mpr (List.mem_of_getElem? hu)
    cases labels[v]? with
    | none => simp
    | some b => simp [List.idxOf_inj ha]

theorem labelCount_eq_card (labels : List ℕ) : labelCount labels = labels.toFinset.card := by
  have hset : (distinct labels).toFinset = labels.toFinset := by
    ext k
    simp
  rw [labelCount_eq_length_distinct, ← List.toFinset_card_of_nodup (nodup_distinct labels), hset]

/-- There are no more colours than nodes. -/
theorem labelCount_le_length (labels : List ℕ) : labelCount labels ≤ labels.length := by
  rw [labelCount_eq_card]
  exact List.toFinset_card_le labels

variable {n : ℕ} {fine coarse : List ℕ}

/-- The coarser colours are the images of the finer ones. -/
theorem Finer.exists_map (h : Finer n (fine.getD · 0) (coarse.getD · 0)) (hfine : fine.length = n)
    (hcoarse : coarse.length = n) : ∃ k : ℕ → ℕ, coarse = fine.map k := by
  obtain ⟨k, hk⟩ := h.exists_factor
  refine ⟨k, List.ext_getElem (by simp [hfine, hcoarse]) fun u hu hu' => ?_⟩
  have hlt : u < n := hcoarse ▸ hu
  have hku := hk u hlt
  rw [List.getD_eq_getElem _ _ hu, List.getD_eq_getElem _ _ (hfine ▸ hlt)] at hku
  rw [List.getElem_map, hku]

theorem toFinset_map (k : ℕ → ℕ) (xs : List ℕ) : (xs.map k).toFinset = xs.toFinset.image k := by
  ext y
  simp

/-- Finer colours are at least as many. -/
theorem Finer.labelCount_le (h : Finer n (fine.getD · 0) (coarse.getD · 0)) (hfine : fine.length = n)
    (hcoarse : coarse.length = n) : labelCount coarse ≤ labelCount fine := by
  obtain ⟨k, rfl⟩ := h.exists_map hfine hcoarse
  rw [labelCount_eq_card, labelCount_eq_card, toFinset_map]
  exact Finset.card_image_le

/-- **Equally many colours are the same classes**: colours that are finer, and not more, are not finer. -/
theorem Finer.of_labelCount_eq (h : Finer n (fine.getD · 0) (coarse.getD · 0))
    (hfine : fine.length = n) (hcoarse : coarse.length = n)
    (hcount : labelCount fine = labelCount coarse) : Finer n (coarse.getD · 0) (fine.getD · 0) := by
  obtain ⟨k, rfl⟩ := h.exists_map hfine hcoarse
  rw [labelCount_eq_card, labelCount_eq_card, toFinset_map] at hcount
  have hinj := Finset.card_image_iff.mp hcount.symm
  intro u hu v hv heq
  have hu' : u < fine.length := hfine.symm ▸ hu
  have hv' : v < fine.length := hfine.symm ▸ hv
  simp only [List.getD_eq_getElem?_getD, List.getElem?_map, List.getElem?_eq_getElem hu',
    List.getElem?_eq_getElem hv', Option.map_some, Option.getD_some] at heq ⊢
  exact hinj (by simp) (by simp) heq

end Counting

/-! ### One round -/

namespace ColorRefinement

/-- The order of pairs of colours is linear, so sorting tells exactly which pairs there are. -/
theorem mergeSort_pairLe_eq_iff {xs ys : List (ℕ × ℕ)} :
    xs.mergeSort pairLe = ys.mergeSort pairLe ↔ xs.Perm ys := by
  have hle : ∀ p q : ℕ × ℕ, pairLe p q = true ↔ p.1 < q.1 ∨ p.1 = q.1 ∧ p.2 ≤ q.2 := by
    simp [pairLe]
  have htrans : ∀ p q r, pairLe p q = true → pairLe q r = true → pairLe p r = true := by
    intro p q r
    simp only [hle]
    omega
  have htotal : ∀ p q, (pairLe p q || pairLe q p) = true := by
    intro p q
    rw [Bool.or_eq_true, hle, hle]
    omega
  constructor
  · intro h
    exact (List.mergeSort_perm xs pairLe).symm.trans (h ▸ List.mergeSort_perm ys pairLe)
  · intro h
    refine List.Perm.eq_of_pairwise ?_
      (List.pairwise_mergeSort htrans htotal xs) (List.pairwise_mergeSort htrans htotal ys)
      ((List.mergeSort_perm xs pairLe).trans (h.trans (List.mergeSort_perm ys pairLe).symm))
    intro p q _ _ hpq hqp
    rw [hle] at hpq hqp
    exact Prod.ext (by omega) (by omega)

variable {adj : Adjacency} {colors : List ℕ} {n : ℕ}

theorem length_refineOnce (hadj : adj.length = n) (hcolors : colors.length = n) :
    (refineOnce adj colors).length = n := by
  rw [refineOnce, length_relabel, List.length_zipWith, hadj, hcolors, Nat.min_self]

/-- **One round**: nodes keep one colour exactly when they have one colour and see the same colours. -/
theorem refineOnce_eq_iff (hadj : adj.length = n) (hcolors : colors.length = n) {u v : ℕ}
    (hu : u < n) (hv : v < n) :
    (refineOnce adj colors).getD u 0 = (refineOnce adj colors).getD v 0
      ↔ colors.getD u 0 = colors.getD v 0
        ∧ (seen (colors.getD · 0) (adj.getD u [])).Perm
            (seen (colors.getD · 0) (adj.getD v [])) := by
  have hlen := length_refineOnce hadj hcolors
  have hsignature : ∀ w < n, (List.zipWith (fun c around => (c, neighborhood colors around)) colors
      adj)[w]? = some (colors.getD w 0, neighborhood colors (adj.getD w [])) := by
    intro w hw
    have hc : w < colors.length := hcolors.symm ▸ hw
    have ha : w < adj.length := hadj.symm ▸ hw
    simp [hc, ha]
  rw [getD_eq_iff (hlen.symm ▸ hu) (hlen.symm ▸ hv), refineOnce, getElem?_relabel_eq_iff,
    hsignature u hu, hsignature v hv, Option.some.injEq, Prod.mk.injEq, neighborhood, neighborhood,
    mergeSort_pairLe_eq_iff]
  rfl

/-- A round only splits classes. -/
theorem finer_refineOnce (hadj : adj.length = n) (hcolors : colors.length = n) :
    Finer n ((refineOnce adj colors).getD · 0) (colors.getD · 0) := fun _ hu _ hv heq =>
  ((refineOnce_eq_iff hadj hcolors hu hv).mp heq).1

/-- **A round splits nothing that a stable labelling keeps together.** -/
theorem finer_refineOnce_of_stable {β γ : Type} {first : ℕ → γ} {f : ℕ → β}
    (hadj : adj.length = n) (hcolors : colors.length = n)
    (hinside : ∀ u < n, ∀ p ∈ adj.getD u [], p.2 < n) (hf : Stable n adj first f)
    (hfiner : Finer n f (colors.getD · 0)) : Finer n f ((refineOnce adj colors).getD · 0) := by
  intro u hu v hv heq
  refine (refineOnce_eq_iff hadj hcolors hu hv).mpr ⟨hfiner u hu v hv heq, ?_⟩
  exact hfiner.seen_perm (hinside u hu) (hinside v hv) (hf.seen_perm u hu v hv heq)

/-! ### The loop -/

/-- **The loop without a bound**: rounds from some colours up to the first one that does not raise the
number of colours. -/
inductive Rounds (adj : Adjacency) : ℕ → List ℕ → List ℕ → Prop
  /-- The number of colours stays, and the loop ends. -/
  | last {colors : List ℕ} (h : labelCount (refineOnce adj colors) = labelCount colors) :
      Rounds adj 1 colors (refineOnce adj colors)
  /-- The number of colours changes, and the loop goes on. -/
  | more {k : ℕ} {colors result : List ℕ}
      (h : labelCount (refineOnce adj colors) ≠ labelCount colors)
      (rest : Rounds adj k (refineOnce adj colors) result) : Rounds adj (k + 1) colors result

/-- **The loop ends in time**: each round but the last raises the number of colours, which stays below
the number of nodes. -/
theorem exists_rounds_refine (hadj : adj.length = n) (hcolors : colors.length = n) {rounds : ℕ}
    (h : n < labelCount colors + rounds) :
    ∃ k ≤ rounds, Rounds adj k colors (refine adj rounds colors) := by
  induction rounds generalizing colors with
  | zero =>
    have hle := labelCount_le_length colors
    omega
  | succ rounds ih =>
    have hnext := length_refineOnce hadj hcolors
    rw [refine]
    by_cases hcount : labelCount (refineOnce adj colors) = labelCount colors
    · rw [if_pos hcount]
      exact ⟨1, by omega, .last hcount⟩
    · have hle := (finer_refineOnce hadj hcolors).labelCount_le hnext hcolors
      obtain ⟨k, hk, hrounds⟩ := ih hnext (by omega)
      rw [if_neg hcount]
      exact ⟨k + 1, by omega, .more hcount hrounds⟩

variable {k : ℕ} {result : List ℕ}

/-- The loop keeps the number of nodes. -/
theorem Rounds.length_eq (hadj : adj.length = n) (h : Rounds adj k colors result)
    (hcolors : colors.length = n) : result.length = n := by
  induction h with
  | last => exact length_refineOnce hadj hcolors
  | more _ _ ih => exact ih (length_refineOnce hadj hcolors)

/-- The loop only splits classes. -/
theorem Rounds.finer (hadj : adj.length = n) (h : Rounds adj k colors result)
    (hcolors : colors.length = n) : Finer n (result.getD · 0) (colors.getD · 0) := by
  induction h with
  | last => exact finer_refineOnce hadj hcolors
  | more _ _ ih =>
    exact (ih (length_refineOnce hadj hcolors)).trans (finer_refineOnce hadj hcolors)

/-- **What the loop ends with is stable**: the classes of the last round are those before it, and nodes
of one class saw the same. -/
theorem Rounds.seen_perm (hadj : adj.length = n)
    (hinside : ∀ u < n, ∀ p ∈ adj.getD u [], p.2 < n) (h : Rounds adj k colors result)
    (hcolors : colors.length = n) {u v : ℕ} (hu : u < n) (hv : v < n)
    (heq : result.getD u 0 = result.getD v 0) :
    (seen (result.getD · 0) (adj.getD u [])).Perm (seen (result.getD · 0) (adj.getD v [])) := by
  induction h with
  | last hcount =>
    have hsame := (finer_refineOnce hadj hcolors).of_labelCount_eq
      (length_refineOnce hadj hcolors) hcolors hcount
    exact hsame.seen_perm (hinside u hu) (hinside v hv)
      ((refineOnce_eq_iff hadj hcolors hu hv).mp heq).2
  | more _ _ ih => exact ih (length_refineOnce hadj hcolors) heq

/-- **The loop splits nothing that a stable labelling keeps together.** -/
theorem Rounds.finer_of_stable {β γ : Type} {first : ℕ → γ} {f : ℕ → β} (hadj : adj.length = n)
    (hinside : ∀ u < n, ∀ p ∈ adj.getD u [], p.2 < n) (hf : Stable n adj first f)
    (h : Rounds adj k colors result) (hcolors : colors.length = n)
    (hfiner : Finer n f (colors.getD · 0)) : Finer n f (result.getD · 0) := by
  induction h with
  | last => exact finer_refineOnce_of_stable hadj hcolors hinside hf hfiner
  | more _ _ ih =>
    exact ih (length_refineOnce hadj hcolors)
      (finer_refineOnce_of_stable hadj hcolors hinside hf hfiner)

end ColorRefinement

end RelationalLP
