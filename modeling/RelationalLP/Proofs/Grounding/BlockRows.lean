import Mathlib
import RelationalLP.Proofs.Grounding.BulkSums
import RelationalLP.Proofs.Grounding.DenotedInstances
import RelationalLP.Proofs.Grounding.Progress

/-! # Rows of blocks

A block keeps one row for each key that some answer led to. While answers and summands are added, the
rows stand for a family of quantities, and a tuple without a row has the quantity zero. -/

namespace RelationalLP

/-- Changing the item at the place of a key changes what is related to this key only. -/
theorem forall₂_modify_idxOf {α β : Type} [DecidableEq α] {rel rel' : α → β → Prop} {xs : List α}
    {ys : List β} (h : List.Forall₂ rel xs ys) (hnodup : xs.Nodup) {key : α} {f : β → β}
    (hkey : ∀ y, rel key y → rel' key (f y)) (hother : ∀ x y, x ≠ key → rel x y → rel' x y) :
    List.Forall₂ rel' xs (ys.modify (xs.idxOf key) f) := by
  induction h with
  | nil => exact .nil
  | @cons x y xs ys hxy hrest ih =>
    obtain ⟨hx, hnodup⟩ := List.nodup_cons.mp hnodup
    have hrest' := ih hnodup
    by_cases heq : x = key
    · subst heq
      -- the key does not occur again, so the other items stay
      rw [List.idxOf_eq_length hx, List.modify_eq_self hrest.length_eq.ge] at hrest'
      rw [List.idxOf_cons_self, List.modify_zero_cons]
      exact .cons (hkey y hxy) hrest'
    · rw [List.idxOf_cons_ne xs heq, List.modify_succ_cons]
      exact .cons (hother x y heq hxy) hrest'

/-- Families that are zero but at one key add up to a sum over the items of a key. -/
theorem sum_single_apply {α β : Type} [DecidableEq β] (key : α → β) (F : α → Quantity) (xs : List α)
    (t : β) (x : Atom ℚ → ℚ) :
    (xs.map fun r => Pi.single (M := fun _ => Quantity) (key r) (F r)).sum t x
      = ((xs.filter (key · = t)).map (F · x)).sum := by
  induction xs with
  | nil => rfl
  | cons r xs ih =>
    rw [List.map_cons, List.sum_cons, Pi.add_apply, Pi.add_apply, ih, List.filter_cons]
    by_cases heq : key r = t
    · rw [if_pos (by simpa using heq), heq, Pi.single_eq_same, List.map_cons, List.sum_cons]
    · rw [if_neg (by simpa using heq), Pi.single_eq_of_ne (Ne.symm heq), Pi.zero_apply, zero_add]

namespace Blocks

variable {w : World} {fb : FactBase ℚ} {ctx ctx' : GroundingContext ℚ} {outer : Query ℚ}
  {s : Summand ℚ} {split : SplitSummand ℚ} {ts : List (Tuple ℚ)} {b b' : Block ℚ}
  {G : Tuple ℚ → Quantity}

/-! ### Blocks -/

namespace Block

/-- **A block stands for quantities** of some tuples: each of its rows has the quantity of its key, and
the other tuples have the quantity zero. -/
structure Stands (ctx : GroundingContext ℚ) (ts : List (Tuple ℚ)) (b : Block ℚ)
    (G : Tuple ℚ → Quantity) : Prop where
  /-- The row of a key has its quantity. -/
  rows : List.Forall₂ (fun t (r : GroundRow ℚ) => r.entries.Known ctx ∧ r.quantity ctx = G t)
    b.keys.items b.rows
  /-- The keys are among the tuples. -/
  within : ∀ t ∈ b.keys.items, t ∈ ts
  /-- A tuple without a row has the quantity zero. -/
  absent : ∀ t ∈ ts, t ∉ b.keys.items → G t = 0

theorem stands_empty (ctx : GroundingContext ℚ) (ts : List (Tuple ℚ)) : empty.Stands ctx ts 0 :=
  ⟨.nil, fun _ ht => absurd ht List.not_mem_nil, fun _ _ _ => rfl⟩

/-- The quantities of other tuples do not matter. -/
theorem Stands.congr {G' : Tuple ℚ → Quantity} (h : b.Stands ctx ts G)
    (heq : ∀ t ∈ ts, G' t = G t) : b.Stands ctx ts G' := by
  refine ⟨?_, h.within, fun t ht habsent => (heq t ht).trans (h.absent t ht habsent)⟩
  refine ((List.forall₂_and_left _ _).mpr ⟨h.within, h.rows⟩).imp ?_
  rintro t r ⟨ht, hknown, hquantity⟩
  exact ⟨hknown, hquantity.trans (heq t ht).symm⟩

/-- With a row of zeros for a new key a block stands for the same quantities. -/
theorem Stands.rows_insert (h : b.Stands ctx ts G) {key : Tuple ℚ} (hkey : key ∈ ts) :
    List.Forall₂ (fun t (r : GroundRow ℚ) => r.entries.Known ctx ∧ r.quantity ctx = G t)
      (b.keys.insert key).items
      (if (b.keys.insert key).size = b.keys.size then b.rows else b.rows ++ [.empty]) := by
  rw [OrderedIndex.size_eq_length, OrderedIndex.size_eq_length, OrderedIndex.items_insert, insertNew]
  split
  · rw [if_pos rfl]
    exact h.rows
  · rename_i hnew
    rw [if_neg (by simp)]
    refine List.rel_append h.rows (.cons ⟨Tally.known_nil ctx, ?_⟩ .nil)
    rw [h.absent key hkey hnew]
    exact funext fun x => GroundRow.valueAt_empty ctx x

/-- **Changing the row of a key** changes the quantity of this key. -/
theorem Stands.update (h : b.Stands ctx ts G) {key : Tuple ℚ} (hkey : key ∈ ts)
    {f : GroundRow ℚ → GroundRow ℚ} {F : Quantity}
    (hf : ∀ r : GroundRow ℚ, r.entries.Known ctx → r.Gains ctx ctx' (f r) F) :
    (b.update key f).Stands ctx' ts (G + Pi.single key F) := by
  have hgrows : ctx.Grows ctx' := (hf .empty (Tally.known_nil ctx)).widens.toGrows
  have hitems : (b.keys.insert key).items = insertNew b.keys.items key := OrderedIndex.items_insert _ _
  refine ⟨?_, fun t ht => ?_, fun t ht habsent => ?_⟩
  · show List.Forall₂ _ (b.keys.insert key).items (List.modify _ _ _)
    rw [OrderedIndex.numberOf_eq_idxOf]
    refine forall₂_modify_idxOf (h.rows_insert hkey) (OrderedIndex.nodup_items _) ?_ ?_
    · -- the row of the key gains what the step adds
      rintro r ⟨hknown, hquantity⟩
      have hgains := hf r hknown
      refine ⟨hgains.known, funext fun x => ?_⟩
      rw [GroundRow.quantity, hgains.value_eq, Pi.add_apply, Pi.add_apply, Pi.single_eq_same,
        ← hquantity]
      rfl
    · -- the other rows stay, and a wider context does not change their quantities
      rintro t r hne ⟨hknown, hquantity⟩
      refine ⟨hknown.grows hgrows, ?_⟩
      rw [GroundRow.quantity_grows hknown hgrows, hquantity, Pi.add_apply, Pi.single_eq_of_ne hne,
        add_zero]
  · have hmem : t ∈ insertNew b.keys.items key := hitems ▸ ht
    rcases mem_insertNew.mp hmem with hold | rfl
    · exact h.within t hold
    · exact hkey
  · have hboth : t ∉ insertNew b.keys.items key := hitems ▸ habsent
    rw [mem_insertNew, not_or] at hboth
    rw [Pi.add_apply, Pi.single_eq_of_ne hboth.2, add_zero, h.absent t ht hboth.1]

/-- A loop over blocks adds what its steps add. -/
theorem stands_foldlM {σ α : Type} (block : σ → Block ℚ) {f : σ → α → GroundM ℚ Id σ}
    {H : α → Tuple ℚ → Quantity} {xs : List α}
    (hstep : ∀ x ∈ xs, ∀ {ctx ctx' a a' G}, ctx.Valid → (block a).Stands ctx ts G →
      GroundM.Runs (f a x) ctx a' ctx' → ctx.Widens ctx' ∧ (block a').Stands ctx' ts (G + H x))
    (hv : ctx.Valid) {a a' : σ} (ha : (block a).Stands ctx ts G)
    (h : GroundM.Runs (xs.foldlM f a) ctx a' ctx') :
    ctx.Widens ctx' ∧ (block a').Stands ctx' ts (G + (xs.map H).sum) := by
  induction xs generalizing ctx a G with
  | nil =>
    obtain ⟨rfl, rfl⟩ := GroundM.runs_foldlM_nil.mp h
    rw [List.map_nil, List.sum_nil, add_zero]
    exact ⟨.refl _, ha⟩
  | cons x xs ih =>
    obtain ⟨a₁, ctx₁, hfirst, hrest⟩ := GroundM.runs_foldlM_cons.mp h
    obtain ⟨hwidens, hstands⟩ := hstep x List.mem_cons_self hv ha hfirst
    obtain ⟨hwidens', hstands'⟩ := ih (fun y hy => hstep y (List.mem_cons_of_mem x hy))
      (hwidens.valid hv) hstands hrest
    rw [List.map_cons, List.sum_cons, ← add_assoc]
    exact ⟨hwidens.trans hwidens', hstands'⟩

end Block

/-! ### Answers and summands -/

/-- **An answer adds its quantity** to the row of its key. -/
theorem runs_addAnswer (fb : FactBase ℚ) (hdecision : split.decision = s.decision?) (hv : ctx.Valid)
    (hb : b.Stands ctx ts G) {row : Tuple ℚ × ℚ} (hrow : row.1.take outer.symbols.length ∈ ts)
    (h : GroundM.Runs (addAnswer outer.symbols.length split (outer.symbols ++ s.bound) b row)
      ctx b' ctx') :
    ctx.Widens ctx' ∧ b'.Stands ctx' ts
      (G + Pi.single (row.1.take outer.symbols.length) (answerQuantity fb outer s row)) := by
  unfold addAnswer at h
  rw [hdecision] at h
  cases hd : s.decision? with
  | none =>
    -- without a decision variable the quantity is constant
    rw [hd] at h
    obtain ⟨rfl, rfl⟩ := GroundM.runs_pure.mp h
    refine ⟨.refl _, hb.update hrow fun r hr => (GroundRow.gains_addConstant hr row.2).congr ?_⟩
    intro x
    rw [answerQuantity, Summand.decisionDenote, hd]
    exact mul_one _
  | some a =>
    rw [hd] at h
    -- the decision variable has a column, which a new request may have added
    obtain ⟨key, ctx₁, hcolumn, hpure⟩ := GroundM.runs_bind.mp h
    obtain ⟨rfl, rfl⟩ := GroundM.runs_pure.mp hpure
    refine ⟨(GroundingContext.runs_column hv hcolumn).1, hb.update hrow fun r hr => ?_⟩
    obtain ⟨g, hg, hgains⟩ := GroundRow.gains_column hv hr hcolumn row.2
    rw [Binding.get?_ofAnswer] at hg
    exact hgains.congr fun x => by rw [answerQuantity, FactBase.values_decisionDenote hd hg]

/-- **A summand adds what it denotes** to the rows of the tuples of the outer query. -/
theorem runs_addSummand (hw : w.Describes fb) (hs : s.Linear)
    (he : outer.Encloses w (s.renameApart (outer.symbols ++ outer.formula.vars)))
    (hts : w.Listing outer.symbols (fun u => outer.formula.kleene u w.truthOf = some true) .unbound ts)
    (hfinite : ∀ t ∈ ts,
      s.denote w fb.demands (Valuation.unbound.extend outer.symbols t) ≠ ⊤)
    (hv : ctx.Valid) {state state' : ℕ × Block ℚ} (hb : state.2.Stands ctx ts G)
    (h : GroundM.Runs (addSummand fb.knowledgeBase outer state s) ctx state' ctx') :
    ctx.Widens ctx' ∧ state'.2.Stands ctx' ts
      (G + fun t x => s.denote w (fb.values x) (Valuation.unbound.extend outer.symbols t)) := by
  set apart := s.renameApart (outer.symbols ++ outer.formula.vars) with hapart
  have hrenamed : ∀ {R : Type} [CommSemiring R] (m : Reading R) v,
      apart.denote w m v = s.denote w m v := fun m v =>
    (Summand.renamed_renameBound _ _ s).denote_eq v
  have hlinear : apart.Linear := hs.renameBound _ _
  obtain ⟨atoms, symbols, hsplit⟩ := SplitSummand.exists_splits state.1 apart
  obtain ⟨found, ctx₁, hrows, hrest⟩ := GroundM.runs_bind.mp h
  obtain ⟨rfl, hsymbols, hanswered⟩ := runs_rows hw he hsplit hrows
  obtain ⟨block, ctx₂, hloop, hpure⟩ := GroundM.runs_bind.mp hrest
  obtain ⟨rfl, rfl⟩ := GroundM.runs_pure.mp hpure
  rw [hsymbols] at hloop
  -- the key of a row is a tuple under which the outer formula is true
  have hkeys : ∀ r ∈ found.2, r.1.take outer.symbols.length ∈ ts := by
    intro r hr
    obtain ⟨htuple, houter, -⟩ := (hanswered.listing.mem_iff r.1).mp (List.mem_map_of_mem hr)
    rw [List.length_append] at htuple
    obtain ⟨hfirst, hrest⟩ := World.take_drop_mem_tuples htuple
    refine (hts.mem_iff _).mpr ⟨hfirst, ?_⟩
    rw [← List.take_append_drop outer.symbols.length r.1,
      Valuation.extend_append _ (World.mem_tuples.mp hfirst).1] at houter
    rwa [he.inScope.kleene_eq he.apart (World.reaches_extend apart.nodup_bound hrest _)] at houter
  obtain ⟨hwidens, hstands⟩ := Block.stands_foldlM id
    (fun r hr _ _ _ _ _ hv hb hrun => runs_addAnswer fb hsplit.decision_eq hv hb
      (hkeys r hr) hrun) hv hb hloop
  refine ⟨hwidens, hstands.congr fun t ht => ?_⟩
  obtain ⟨htuple, htrue⟩ := (hts.mem_iff t).mp ht
  funext x
  rw [Pi.add_apply, Pi.add_apply, Pi.add_apply, Pi.add_apply, sum_single_apply,
    hanswered.sum_eq hlinear he htuple htrue (by rw [hrenamed]; exact hfinite t ht) x,
    hrenamed]

/-! ### Constraints -/

section Constraints

variable {c : Constraint ℚ}

/-- The summands of a groundable constraint, renamed apart, are enclosed by its query. -/
theorem encloses_of_groundable (hc : c.summed.Groundable w) {ss : List (Summand ℚ)}
    (hss : c.relation.canonical.summands = .ok ss) (hs : s ∈ ss) :
    c.outer.Encloses w (s.renameApart (c.outer.symbols ++ c.outer.formula.vars)) := by
  have hterms := hc.admitted
  rw [Constraint.summed, Expr.terms, Query.terms, List.forall_mem_append,
    List.forall_mem_append] at hterms
  have hscope : c.relation.canonical.Scoped (c.outer.symbols ++ []) := hc.inScope.2
  rw [List.append_nil] at hscope
  refine .of_renameApart (World.knows_of_admits hterms.1.2) hc.inScope.1
    (Expr.fits_of_summands w.keptByFresh_admits hss hterms.2 hscope s hs) fun v hv => ?_
  obtain ⟨houter, hbody⟩ := hc.decided v hv
  exact ⟨houter, fun htrue => Expr.decided_of_summands hss (hbody htrue) s hs⟩

/-- What an instance denotes is the sum of its summands. -/
theorem instanceValue_eq_sum (hc : c.summed.Groundable w) (hts : c.Lists w ts)
    {ss : List (Summand ℚ)} (hss : c.relation.canonical.summands = .ok ss) {t : Tuple ℚ} (ht : t ∈ ts)
    {R : Type} [CommSemiring R] {m : Reading R} (hm : m.coefficient 0 = 0) :
    c.instanceValue w m t
      = (ss.map (·.denote w m (Valuation.unbound.extend c.outer.symbols t))).sum := by
  obtain ⟨htuple, htrue⟩ := (hts.mem_iff t).mp ht
  exact Expr.denote_of_summands hss
    ((hc.decided _ (World.reaches_extend c.outer.nodup htuple .unbound)).2 htrue) hm

/-- Pushing the rows of a block gains the quantities of its keys. -/
theorem gains_pushRows (hctx : ctx.Consistent) (hb : b.Stands ctx ts G)
    (h : GroundM.Runs (b.rows.forM fun row => do let _ ← GroundM.pushRow c row) ctx () ctx') :
    ctx.Gains ctx' (.all ((b.keys.items.map G).map (Gained.ofRow c.relation.isEquality))) := by
  have hknown : ∀ r ∈ b.rows, r.entries.Known ctx :=
    forall_mem_of_forall₂ hb.rows fun _ _ _ hr => hr.1
  have hstep : ∀ r ∈ b.rows, ∀ {ctx₁ ctx₂}, ctx.Grows ctx₁ → ctx₁.Consistent →
      GroundM.Runs (GroundM.pushRow c r >>= fun _ => pure ()) ctx₁ () ctx₂ →
      ctx₁.Gains ctx₂ (.ofRow c.relation.isEquality (r.quantity ctx)) := by
    intro r hr ctx₁ ctx₂ hgrows hconsistent hrun
    obtain ⟨kept, ctx₃, hpush, hpure⟩ := GroundM.runs_bind.mp hrun
    obtain ⟨-, rfl⟩ := GroundM.runs_pure.mp hpure
    rw [← GroundRow.quantity_grows (hknown r hr) hgrows]
    exact (GroundingContext.gains_pushRow hconsistent ((hknown r hr).grows hgrows) hpush).1
  have hgains := GroundingContext.gains_forM_map hstep hctx h
  have hquantities : b.rows.map (fun r => r.quantity ctx) = b.keys.items.map G :=
    map_eq_map_of_forall₂ hb.rows fun _ _ r hr => hr.2
  rw [← hquantities, List.map_map]
  exact hgains

/-- The rows of a block that vary are the quantities of the tuples that do, up to their order. -/
theorem Block.Stands.perm_filter (hb : b.Stands ctx ts G) (hnodup : ts.Nodup) :
    ((b.keys.items.map G).filter fun F : Quantity => F.Varies).Perm
      ((ts.map G).filter fun F : Quantity => F.Varies) := by
  rw [List.filter_map, List.filter_map]
  refine List.Perm.map G ((List.perm_ext_iff_of_nodup ?_ ?_).mpr fun t => ?_)
  · exact (OrderedIndex.nodup_items _).filter _
  · exact hnodup.filter _
  · rw [List.mem_filter, List.mem_filter]
    refine and_congr_left fun hvaries => ⟨hb.within t, fun ht => ?_⟩
    by_contra habsent
    -- the quantity zero does not vary
    obtain ⟨x, hx⟩ : (G t).Varies := of_decide_eq_true hvaries
    rw [hb.absent t ht habsent] at hx
    exact hx rfl

/-- **A constraint gains its rows**, up to their order, where all of its instances are finite. -/
theorem gains_groundConstraint (hw : w.Describes fb) (hc : c.summed.Groundable w)
    (hfinite : ∀ t ∈ c.answers w, c.instanceValue w fb.demands t ≠ ⊤)
    (hctx : ctx.Consistent) {next next' : ℕ}
    (h : GroundM.Runs (groundConstraint fb.knowledgeBase next c) ctx next' ctx') :
    ∃ Fs : List Quantity, ((Fs.filter fun F : Quantity => F.Varies : List Quantity) :
        Multiset Quantity) = c.rowQuantities w fb
      ∧ ctx.Gains ctx' (.all (Fs.map (Gained.ofRow c.relation.isEquality))) := by
  have hts := c.lists_toList w
  set ts := (c.answers w).toList
  obtain ⟨ss, ctx₁, hsummands, hrest⟩ := GroundM.runs_bind.mp h
  obtain ⟨hss, rfl⟩ := GroundM.runs_expression.mp hsummands
  obtain ⟨⟨last, block⟩, ctx₂, hloop, hrest⟩ := GroundM.runs_bind.mp hrest
  obtain ⟨u, ctx₃, hpush, hpure⟩ := GroundM.runs_bind.mp hrest
  obtain ⟨-, rfl⟩ := GroundM.runs_pure.mp hpure
  -- a block stands for the sum of the summands so far, each finite in every instance
  have hstep : ∀ s ∈ ss, ∀ {ctx ctx' a a' G}, ctx.Valid → (a : ℕ × Block ℚ).2.Stands ctx ts G →
      GroundM.Runs (addSummand fb.knowledgeBase c.outer a s) ctx a' ctx' →
      ctx.Widens ctx' ∧ a'.2.Stands ctx' ts
        (G + fun t x => s.denote w (fb.values x) (Valuation.unbound.extend c.outer.symbols t)) := by
    intro s hs ctx ctx' a a' G hv hb hrun
    refine runs_addSummand hw (Expr.linear_of_summands hss s hs)
      (encloses_of_groundable hc hss hs) hts (fun t ht => ?_) hv hb hrun
    have hsum := hfinite t (hts.mem_answers_iff.mp ht)
    rw [instanceValue_eq_sum hc hts hss ht (FactBase.support_eq_zero_iff.mpr rfl), sum_ne_top_iff,
      List.forall_mem_map] at hsum
    exact hsum s hs
  obtain ⟨hwidens, hstands⟩ := Block.stands_foldlM Prod.snd hstep hctx.valid
    (Block.stands_empty _ ts) hloop
  -- after the last summand it stands for the constraint itself
  have hblock : block.Stands ctx₂ ts (c.instanceQuantity w fb) := by
    refine hstands.congr fun t ht => funext fun x => ?_
    rw [zero_add, Pi.list_sum_apply, Pi.list_sum_apply, List.map_map, List.map_map,
      Constraint.instanceQuantity, instanceValue_eq_sum hc hts hss ht rfl]
    rfl
  refine ⟨_, ?_, .of_widens hwidens hctx
    (gains_pushRows (hwidens.gains hctx).consistent hblock hpush)⟩
  rw [← hts.coe_filter_eq]
  exact Multiset.coe_eq_coe.mpr (hblock.perm_filter hts.nodup)

end Constraints

/-! ### The objective -/

/-- The rows of a decision variable are gained by the objective. -/
theorem gains_addAnswers {a : Atom ℚ} (hd : s.decision? = some a) (hctx : ctx.Consistent)
    {found : List (Tuple ℚ × ℚ)}
    (h : GroundM.Runs (found.forM fun (answer, v) => do
      GroundM.addObjective (← GroundM.column a (.ofAnswer s.bound answer)) v) ctx () ctx') :
    ctx.Gains ctx' (.ofObjective fun x => (found.map (answerQuantity fb .always s · x)).sum) := by
  have hstep : ∀ r ∈ found, ∀ {ctx₁ ctx₂}, ctx.Grows ctx₁ → ctx₁.Consistent →
      GroundM.Runs (GroundM.column a (.ofAnswer s.bound r.1) >>= fun key =>
        GroundM.addObjective key r.2) ctx₁ () ctx₂ →
      ctx₁.Gains ctx₂ (.ofObjective (answerQuantity fb .always s r)) := by
    intro r hr ctx₁ ctx₂ hgrows hconsistent hrun
    obtain ⟨key, ctx₃, hcolumn, hadd⟩ := GroundM.runs_bind.mp hrun
    obtain rfl := GroundM.runs_addObjective.mp hadd
    obtain ⟨hwidens, g, hg, hat⟩ := GroundingContext.runs_column hconsistent.valid hcolumn
    rw [Binding.get?_ofAnswer] at hg
    have hquantity : answerQuantity fb .always s r = fun x => r.2 * x g :=
      funext fun x => congrArg (r.2 * ·) (FactBase.values_decisionDenote hd hg x)
    rw [hquantity]
    exact .of_widens hwidens hconsistent (GroundingContext.gains_addObjective
      (hwidens.gains hconsistent).consistent hat r.2)
  have hgains := GroundingContext.gains_forM_map hstep hctx h
  rwa [Gained.all_ofObjective] at hgains

/-- **A summand of the objective gains what varies** in its denotation, where this is finite. -/
theorem gains_addObjectiveSummand (hw : w.Describes fb) (hl : s.Linear) (hs : s.Fits w.Admits [])
    (hd : s.Decided w .unbound) (hfinite : s.denote w fb.demands .unbound ≠ ⊤)
    (hctx : ctx.Consistent) {next next' : ℕ}
    (h : GroundM.Runs (addObjectiveSummand fb.knowledgeBase next s) ctx next' ctx') :
    ctx.Gains ctx' (.ofObjective fun x =>
      s.denote w (fb.values x) .unbound - s.denote w (fb.values 0) .unbound) := by
  have he : (Query.always : Query ℚ).Encloses w s := .of_always hs hd
  obtain ⟨atoms, symbols, hsplit⟩ := SplitSummand.exists_splits next s
  obtain ⟨⟨bound, found⟩, ctx₁, hrows, hrest⟩ := GroundM.runs_bind.mp h
  obtain ⟨rfl, hsymbols, hanswered⟩ := runs_rows hw he hsplit hrows
  obtain rfl : bound = s.bound := hsymbols
  have hvalue : ∀ x, (found.map (answerQuantity fb .always s · x)).sum
      = s.denote w (fb.values x) .unbound := by
    intro x
    have hsum := hanswered.sum_eq hl he (t := []) (Finset.mem_singleton_self _) rfl hfinite x
    have hall : found.filter (fun r => r.1.take (Query.always : Query ℚ).symbols.length = [])
        = found := List.filter_eq_self.mpr fun r _ => rfl
    rwa [hall] at hsum
  simp only [← hvalue]
  dsimp only at hrest
  cases hdecision : s.decision? with
  | none =>
    rw [hdecision] at hrest
    obtain ⟨rfl, rfl⟩ := GroundM.runs_pure.mp hrest
    -- a row without decision variable does not vary
    have hconstant : ∀ r x, answerQuantity fb .always s r x = answerQuantity fb .always s r 0 := by
      intro r x
      simp only [answerQuantity, Summand.decisionDenote, hdecision, Option.map_none, Option.getD_none]
    simp only [hconstant, sub_self]
    exact .refl hctx
  | some a =>
    rw [hdecision] at hrest
    obtain ⟨u, ctx₂, hloop, hpure⟩ := GroundM.runs_bind.mp hrest
    obtain ⟨rfl, rfl⟩ := GroundM.runs_pure.mp hpure
    have hzero : (found.map (answerQuantity fb .always s · 0)).sum = 0 := by
      refine List.sum_eq_zero (List.forall_mem_map.mpr fun r _ => ?_)
      rw [answerQuantity, FactBase.values_zero_decisionDenote hdecision, mul_zero]
    simp only [hzero, sub_zero]
    exact gains_addAnswers hdecision hctx hloop

/-- **An objective gains what varies** in its denotation, where this is finite. -/
theorem gains_groundObjective (hw : w.Describes fb) {e : Expr ℚ} (he : e.Groundable w)
    (hfinite : e.denote w fb.demands .unbound ≠ ⊤) (hctx : ctx.Consistent) {next next' : ℕ}
    (h : GroundM.Runs (groundObjective fb.knowledgeBase next e) ctx next' ctx') :
    ctx.Gains ctx' (.ofObjective fun x =>
      e.denote w (fb.values x) .unbound - e.denote w (fb.values 0) .unbound) := by
  obtain ⟨ss, ctx₁, hsummands, hloop⟩ := GroundM.runs_bind.mp h
  obtain ⟨hss, rfl⟩ := GroundM.runs_expression.mp hsummands
  rw [Expr.denote_of_summands hss he.decided (FactBase.support_eq_zero_iff.mpr rfl), sum_ne_top_iff,
    List.forall_mem_map] at hfinite
  have hstep : ∀ s ∈ ss, ∀ {next next' ctx₂ ctx₃}, ctx₁.Grows ctx₂ → ctx₂.Consistent →
      GroundM.Runs (addObjectiveSummand fb.knowledgeBase next s) ctx₂ next' ctx₃ →
      ctx₂.Gains ctx₃ (.ofObjective fun x =>
        s.denote w (fb.values x) .unbound - s.denote w (fb.values 0) .unbound) := by
    intro s hs next next' ctx₂ ctx₃ _ hconsistent hrun
    exact gains_addObjectiveSummand hw (Expr.linear_of_summands hss s hs)
      (Expr.fits_of_summands w.keptByFresh_admits hss he.admitted he.inScope s hs)
      (Expr.decided_of_summands hss he.decided s hs) (hfinite s hs) hconsistent hrun
  have hgains := GroundingContext.gains_foldlM_map hstep hctx hloop
  rw [Gained.all_ofObjective] at hgains
  -- the differences of the summands add up to that of the objective
  have hvalue : ∀ x, e.denote w (fb.values x) .unbound - e.denote w (fb.values 0) .unbound
      = (ss.map fun s =>
        s.denote w (fb.values x) .unbound - s.denote w (fb.values 0) .unbound).sum := by
    intro x
    rw [Expr.denote_of_summands hss he.decided rfl, Expr.denote_of_summands hss he.decided rfl,
      sub_eq_iff_eq_add, ← List.sum_map_add]
    simp only [sub_add_cancel]
  simp only [hvalue]
  exact hgains

/-- **A model grounded by blocks** has its meaning if it is resolved. -/
theorem means_of_ground (hw : w.Describes fb) {model : Model ℚ} (hm : model.Groundable w)
    (hr : model.Resolved w fb) {g : Grounded ℚ} (h : ground fb.knowledgeBase model = .ok g) :
    g.Means w fb model := by
  obtain ⟨⟨u, ctx⟩, hrun, hfinish⟩ := exceptT_bind_eq_ok_iff.mp h
  have hstart := GroundingContext.consistent_start model
  -- after the objective the loop over the constraints starts, from zero without an objective
  obtain ⟨next, ctx₁, hgains, hrest⟩ : ∃ next ctx₁, (GroundingContext.start model).Gains ctx₁
        (.ofObjective fun x => objectiveQuantity w fb model.objective x
          - objectiveQuantity w fb model.objective 0)
      ∧ GroundM.Runs (model.constraints.foldlM (groundConstraint fb.knowledgeBase) next >>= fun _ =>
        pure ()) ctx₁ u ctx := by
    cases he : model.objective with
    | none =>
      rw [he] at hrun
      obtain ⟨next, ctx₁, hpure, hrest⟩ := GroundM.runs_bind.mp hrun
      obtain ⟨rfl, rfl⟩ := GroundM.runs_pure.mp hpure
      refine ⟨0, _, ?_, hrest⟩
      simp only [objectiveQuantity, sub_self]
      exact .refl hstart
    | some e =>
      rw [he] at hrun
      obtain ⟨next, ctx₁, hobjective, hrest⟩ := GroundM.runs_bind.mp hrun
      exact ⟨next, ctx₁, gains_groundObjective hw (hm.objective e he) (hr.objective e he) hstart
        hobjective, hrest⟩
  obtain ⟨last, ctx₂, hloop, hpure⟩ := GroundM.runs_bind.mp hrest
  obtain ⟨-, rfl⟩ := GroundM.runs_pure.mp hpure
  obtain ⟨Fss, hFss, hgains'⟩ := GroundingContext.gains_foldlM
    (fun c hc _ _ _ _ _ hctx hrun => gains_groundConstraint hw (hm.constraints c hc)
      (hr.constraints c hc) hctx hrun) hgains.consistent hloop
  exact ⟨_, Fss, (Except.ok.inj hfinish).symm, GroundingContext.collects_of_gains hgains hgains',
    hFss⟩

end Blocks

end RelationalLP
