import Mathlib
import RelationalLP.Problem.Solution
import RelationalLP.Proofs.Grounding.Calls
import RelationalLP.Proofs.Grounding.FinishedProgram

/-! # Assembly

Three computations lay out the columns on their own: the numbers of the keys in the program, the column
of an atom, and the list of the atoms of all columns. They agree whatever the calls of a session were, so
that every number that was handed in stands in the program where the atom of its key says. -/

namespace RelationalLP

variable {K : Type} [Scalar K]

/-! ### The atoms of the columns -/

namespace ColumnMap

/-- Tuples that fit their predicate all give atoms. -/
theorem blockAtoms_eq_map {b : ColumnBlock K}
    (h : ∀ t ∈ b.tuples.items, t.length = b.template.arity) :
    blockAtoms b = b.tuples.items.map fun t => ⟨b.template, t.map .const⟩ := by
  have hmake : ∀ t ∈ b.tuples.items, (Atom.make? b.template (t.map Term.const)).toOption
      = some ⟨b.template, t.map .const⟩ := by
    intro t ht
    rw [Atom.make?, if_pos (by rw [List.length_map, h t ht])]
    rfl
  rw [blockAtoms, List.filterMap_congr hmake]
  exact congrFun List.filterMap_eq_map _

/-- Predicates whose tuples fit them. -/
def Fitting (ps : List (PredicateTemplate × OrderedIndex (Tuple K))) : Prop :=
  ∀ p ∈ ps, ∀ t ∈ p.2.items, t.length = p.1.arity

variable {ps : List (PredicateTemplate × OrderedIndex (Tuple K))}

theorem length_atoms_layout (h : Fitting ps) (offset : ℕ) :
    ((layout offset ps).flatMap blockAtoms).length = OrderedIndex.totalSize (ps.map Prod.snd) := by
  induction ps generalizing offset with
  | nil => rfl
  | cons p ps ih =>
    obtain ⟨hp, hps⟩ := List.forall_mem_cons.mp h
    rw [layout, List.flatMap_cons, List.length_append, ih hps, blockAtoms_eq_map hp, List.length_map,
      List.map_cons, OrderedIndex.totalSize, OrderedIndex.size_eq_length]

/-- The atom of a tuple stands behind those of the predicates before it and of the tuples before it. -/
theorem getElem?_atoms_layout (h : Fitting ps) (offset : ℕ) {t i : ℕ}
    {p : PredicateTemplate × OrderedIndex (Tuple K)} {tuple : Tuple K} (hp : ps[t]? = some p)
    (hi : p.2.items[i]? = some tuple) :
    ((layout offset ps).flatMap blockAtoms)[OrderedIndex.totalSize ((ps.map Prod.snd).take t) + i]?
      = some ⟨p.1, tuple.map .const⟩ := by
  induction ps generalizing offset t with
  | nil => cases hp
  | cons q ps ih =>
    obtain ⟨hq, hps⟩ := List.forall_mem_cons.mp h
    rw [layout, List.flatMap_cons, blockAtoms_eq_map hq]
    show (q.2.items.map _ ++ _)[_]? = _
    cases t with
    | zero =>
      obtain rfl := Option.some.inj hp
      obtain ⟨hlt, -⟩ := List.getElem?_eq_some_iff.mp hi
      rw [List.take_zero, OrderedIndex.totalSize, Nat.zero_add,
        List.getElem?_append_left (by rwa [List.length_map]), List.getElem?_map, hi]
      rfl
    | succ t =>
      rw [List.map_cons, List.take_succ_cons, OrderedIndex.totalSize, Nat.add_assoc,
        OrderedIndex.size_eq_length, List.getElem?_append_right (by rw [List.length_map]; omega),
        List.length_map, Nat.add_sub_cancel_left]
      exact ih hps _ hp

end ColumnMap

/-! ### Reading a point -/

/-- Of atoms without repetition each one is found with its own number. -/
theorem find?_zip_of_nodup {atoms : List (Atom K)} (h : atoms.Nodup) {a : Atom K} {k : ℕ}
    (ha : atoms[k]? = some a) (x : List K) :
    (atoms.zip x).find? (·.1 = a) = x[k]?.map (a, ·) := by
  induction atoms generalizing k x with
  | nil => cases ha
  | cons b atoms ih =>
    obtain ⟨hb, hatoms⟩ := List.nodup_cons.mp h
    cases x with
    | nil => rfl
    | cons v x =>
      rw [List.zip_cons_cons, List.find?_cons]
      cases k with
      | zero =>
        obtain rfl := Option.some.inj ha
        simp
      | succ k =>
        have hne : b ≠ a := by
          rintro rfl
          exact hb (List.mem_of_getElem? ha)
        rw [decide_eq_false hne]
        exact ih hatoms ha x

namespace GroundingContext

variable {ctx : GroundingContext K} {model : Model K} {calls : List (Call K)} {key : Position}
  {a : Atom K}

theorem map_snd_zip (hv : ctx.Valid) : (ctx.model.decision.zip ctx.columns).map Prod.snd = ctx.columns :=
  List.map_snd_zip hv.length_eq.le

/-- After a session every tuple fits its predicate. -/
theorem Holds.fitting (h : ctx.Holds model calls) :
    ColumnMap.Fitting (ctx.model.decision.zip ctx.columns) := by
  intro p hp tuple htuple
  obtain ⟨t, ht⟩ := List.mem_iff_getElem?.mp hp
  obtain ⟨i, hi⟩ := List.mem_iff_getElem?.mp htuple
  rw [List.getElem?_zip_eq_some] at ht
  have hindex : ctx.columns.getD t .empty = p.2 := by
    rw [List.getD_eq_getElem?_getD, ht.2, Option.getD_some]
  have hlt : i < (ctx.columns.getD t .empty).items.length := by
    rw [hindex]
    exact (List.getElem?_eq_some_iff.mp hi).1
  obtain ⟨a, ha⟩ := Option.isSome_iff_exists.mp (h.valid.named t i hlt)
  obtain ⟨htemplate, -, row, hrow, hargs⟩ := atomAt_eq_some_iff.mp ha
  obtain rfl : tuple = row := Option.some.inj (hi.symm.trans (hindex ▸ hrow))
  obtain htemplate : p.1 = a.template := Option.some.inj (ht.1.symm.trans htemplate)
  rw [htemplate, ← h.fits ha, hargs, List.length_map]

theorem Holds.length_atoms (h : ctx.Holds model calls) :
    ctx.finish.columns.atoms.length = ctx.columnCount := by
  have hlength := ColumnMap.length_atoms_layout h.fitting 0
  rwa [map_snd_zip h.valid] at hlength

/-- **The atom of a column** is that of its key. -/
theorem Holds.getElem?_atoms (h : ctx.Holds model calls) (ha : ctx.atomAt key = some a) :
    ctx.finish.columns.atoms[ctx.columnOf key]? = some a := by
  obtain ⟨htemplate, -, tuple, htuple, hargs⟩ := atomAt_eq_some_iff.mp ha
  have hlt := (List.getElem?_eq_some_iff.mp htemplate).1
  rw [← h.valid.length_eq] at hlt
  have hpair : (ctx.model.decision.zip ctx.columns)[key.1]?
      = some (a.template, ctx.columns.getD key.1 .empty) := by
    rw [List.getElem?_zip_eq_some, List.getD_eq_getElem?_getD, List.getElem?_eq_getElem hlt]
    exact ⟨htemplate, rfl⟩
  have hatom := ColumnMap.getElem?_atoms_layout h.fitting 0 hpair htuple
  rw [map_snd_zip h.valid, ← hargs] at hatom
  exact hatom

/-- The list of the atoms is the inverse of the column of an atom. -/
theorem Holds.getElem?_atoms_iff (h : ctx.Holds model calls) {k : ℕ} :
    ctx.finish.columns.atoms[k]? = some a ↔ ctx.finish.columns.column? a = some k := by
  rw [column?_finish h.valid]
  constructor
  · intro hk
    have hlt := (List.getElem?_eq_some_iff.mp hk).1
    rw [h.length_atoms] at hlt
    obtain ⟨key, b, hb, rfl⟩ := exists_key h.valid hlt
    rw [h.getElem?_atoms hb] at hk
    exact ⟨key, hb.trans hk, rfl⟩
  · rintro ⟨key, hkey, rfl⟩
    exact h.getElem?_atoms hkey

theorem Holds.nodup_atoms (h : ctx.Holds model calls) : ctx.finish.columns.atoms.Nodup := by
  rw [List.nodup_iff_getElem?_ne_getElem?]
  intro i j hij hj heq
  have ha := List.getElem?_eq_getElem hj
  have hi := h.getElem?_atoms_iff.mp (heq.trans ha)
  rw [h.getElem?_atoms_iff.mp ha] at hi
  exact hij.ne' (Option.some.inj hi)

/-- **A point gives an atom the coordinate of its column.** -/
theorem Holds.get?_decode (h : ctx.Holds model calls) {k : ℕ}
    (ha : ctx.finish.columns.column? a = some k) (x : List K) (objective : K) :
    (Solution.decode ctx.finish.columns x objective).get? a = x[k]? := by
  rw [Solution.get?, Solution.decode, find?_zip_of_nodup h.nodup_atoms (h.getElem?_atoms_iff.mpr ha),
    Option.map_map]
  exact Option.map_id'

/-! ### Rows and costs -/

/-- The entries of some rows have different cells. -/
theorem nodup_triplets {rows : List (GroundRow K)} (hrows : ∀ r ∈ rows, r.entries.Known ctx) :
    ((rows.zipIdx.flatMap fun (row, i) => row.entries.map fun (key, v) =>
      ((i, ctx.columnOf key), v)).map Prod.fst).Nodup := by
  rw [List.map_flatMap, List.nodup_flatMap]
  constructor
  · rintro ⟨row, i⟩ hrow
    have hknown := hrows row (List.fst_mem_of_mem_zipIdx hrow)
    have hcells : (row.entries.map fun e => ((i, ctx.columnOf e.1), e.2)).map Prod.fst
        = (row.entries.map Prod.fst).map fun key => (i, ctx.columnOf key) := by
      rw [List.map_map, List.map_map]
      rfl
    rw [hcells]
    refine List.Nodup.map_on (fun key hkey key' hkey' heq => ?_) hknown.sorted.nodup
    obtain ⟨a, ha⟩ := Option.isSome_iff_exists.mp (hknown.known key hkey)
    obtain ⟨b, hb⟩ := Option.isSome_iff_exists.mp (hknown.known key' hkey')
    exact columnOf_inj ha hb (Prod.mk.inj heq).2
  · -- the cells of different rows differ in their first numbers
    have hplaces : (rows.zipIdx.map Prod.snd).Nodup := by
      rw [List.zipIdx_map_snd]
      exact List.nodup_range'
    rw [List.Nodup, List.pairwise_map] at hplaces
    refine hplaces.imp fun {p q} hpq => ?_
    intro cell hcell hcell'
    simp only [List.mem_map] at hcell hcell'
    obtain ⟨-, ⟨e, -, rfl⟩, rfl⟩ := hcell
    obtain ⟨-, ⟨d, -, rfl⟩, heq⟩ := hcell'
    exact hpq (Prod.mk.inj heq).1.symm

/-- **The stored entries of a matrix** are the entries of its rows that are not zero. -/
theorem mem_matrix_iff [Scalar.StartsFromZero K] {rows : List (GroundRow K)}
    (hrows : ∀ r ∈ rows, r.entries.Known ctx) {i : ℕ} {row : GroundRow K} (hi : rows[i]? = some row)
    (ha : ctx.atomAt key = some a) {v : K} :
    ((i, ctx.columnOf key), v) ∈ (ctx.matrix rows).entries
      ↔ (key, v) ∈ row.entries ∧ Scalar.isZero v = false := by
  rw [matrix, SparseMatrix.mem_ofTriplets_of_nodup (nodup_triplets hrows)]
  refine and_congr_left fun _ => ?_
  constructor
  · intro hmem
    obtain ⟨⟨row', i'⟩, hrow', hmem⟩ := List.mem_flatMap.mp hmem
    obtain ⟨⟨key', v'⟩, he, heq⟩ := List.mem_map.mp hmem
    obtain ⟨⟨rfl, hcolumn⟩, rfl⟩ := (Prod.mk.inj heq).imp_left Prod.mk.inj
    obtain rfl := Option.some.inj ((List.mem_zipIdx_iff_getElem?.mp hrow').symm.trans hi)
    obtain ⟨b, hb⟩ := Option.isSome_iff_exists.mp
      ((hrows row' (List.mem_of_getElem? hi)).known key' (List.mem_map_of_mem he))
    obtain rfl := columnOf_inj hb ha hcolumn
    exact he
  · intro he
    exact List.mem_flatMap.mpr ⟨(row, i), List.mem_zipIdx_iff_getElem?.mpr hi,
      List.mem_map.mpr ⟨(key, v), he, rfl⟩⟩

/-- A row with decision variables has a stored entry. -/
theorem row_matrix_ne_nil [Scalar.StartsFromZero K] {rows : List (GroundRow K)}
    (hrows : ∀ r ∈ rows, r.entries.Known ctx) {i : ℕ} {row : GroundRow K} (hi : rows[i]? = some row)
    (hdecisions : row.hasDecisions = true) : (ctx.matrix rows).row i ≠ [] := by
  obtain ⟨⟨key, v⟩, he, hne⟩ := List.any_eq_true.mp hdecisions
  obtain ⟨a, ha⟩ := Option.isSome_iff_exists.mp
    ((hrows row (List.mem_of_getElem? hi)).known key (List.mem_map_of_mem he))
  have hstored := (mem_matrix_iff hrows hi ha).mpr ⟨he, by simpa using hne⟩
  refine List.ne_nil_of_mem (a := (ctx.columnOf key, v)) ?_
  exact (SparseMatrix.mem_row (wellFormed_matrix hrows).sorted).mpr hstored

/-- Changes at other places leave a cell alone. -/
theorem getElem?_foldl_modify_of_ne {α β : Type} {f : α → ℕ} {g : α → β → β} {es : List α} {k : ℕ}
    (h : ∀ e ∈ es, f e ≠ k) (cells : List β) :
    (es.foldl (fun cells e => cells.modify (f e) (g e)) cells)[k]? = cells[k]? := by
  induction es generalizing cells with
  | nil => rfl
  | cons e es ih =>
    obtain ⟨he, hes⟩ := List.forall_mem_cons.mp h
    rw [List.foldl_cons, ih hes, List.getElem?_modify_ne _ _ he]

/-- **The cost of a column** is the factor times the sum at its key, zero without a sum. -/
theorem getElem?_objectiveVector (hobjective : ctx.objective.Known ctx)
    (ha : ctx.atomAt key = some a) : ctx.objectiveVector[ctx.columnOf key]?
      = some ((ctx.objective.lookup key).elim 0 fun v => 0 + ctx.model.sense.factor * v) := by
  -- an entry with another key is one of another column
  have hother : ∀ e ∈ ctx.objective, e.1 ≠ key → ctx.columnOf e.1 ≠ ctx.columnOf key := by
    intro e he hne heq
    obtain ⟨b, hb⟩ := Option.isSome_iff_exists.mp (hobjective.known e.1 (List.mem_map_of_mem he))
    exact hne (columnOf_inj hb ha heq)
  have hzero : (List.replicate ctx.columnCount (0 : K))[ctx.columnOf key]? = some 0 :=
    List.getElem?_replicate_of_lt (columnOf_lt ha)
  rw [objectiveVector]
  cases hlookup : ctx.objective.lookup key with
  | none =>
    rw [List.lookup_eq_none_iff] at hlookup
    rw [getElem?_foldl_modify_of_ne fun e he => hother e he
      fun heq => bne_iff_ne.mp (hlookup e he) heq.symm, hzero]
    rfl
  | some v =>
    obtain ⟨before, after, hsplit, hbefore⟩ := List.lookup_eq_some_iff.mp hlookup
    have hnodup := hobjective.sorted.nodup
    rw [hsplit, List.map_append, List.map_cons, List.nodup_middle, List.nodup_cons] at hnodup
    rw [hsplit] at hother ⊢
    rw [List.foldl_append, List.foldl_cons, getElem?_foldl_modify_of_ne, List.getElem?_modify_eq,
      getElem?_foldl_modify_of_ne, hzero]
    · rfl
    · exact fun e he => hother e (List.mem_append_left _ he)
        fun heq => bne_iff_ne.mp (hbefore e he) heq.symm
    · refine fun e he => hother e (List.mem_append_right _ (List.mem_cons_of_mem _ he)) fun heq => ?_
      exact hnodup.1 (List.mem_append_right _ (List.mem_map.mpr ⟨e, he, heq⟩))

end GroundingContext

/-! ### Assembled programs -/

namespace LinearProgram

/-- The matrix of the rows of a kind: the equations for true. -/
def matrixOf (lp : LinearProgram K) (isEquality : Bool) : SparseMatrix K :=
  if isEquality then lp.a else lp.g

/-- The right sides of the rows of a kind: the equations for true. -/
def rightSidesOf (lp : LinearProgram K) (isEquality : Bool) : List K :=
  if isEquality then lp.b else lp.h

end LinearProgram

/-- **What stands at the column of an atom**: everything that the calls handed in for its key. -/
structure Grounded.Places (g : Grounded K) (sense : Sense) (calls : List (Call K)) (a : Atom K)
    (key : Position) (k : ℕ) : Prop where
  /-- The column of the atom is found. -/
  column_eq : g.columns.column? a = some k
  /-- It is a column of the program. -/
  column_lt : k < g.program.columnCount
  /-- The atoms of the columns have the atom there. -/
  atom_eq : g.columns.atoms[k]? = some a
  /-- The objective has the factor times the sum of the costs there, from the left. -/
  cost_eq : g.program.c[k]? = some (if Call.costs key calls = [] then 0
    else 0 + sense.factor * (Call.costs key calls).foldl (· + ·) 0)
  /-- Each kept row has its entry for the key there, unless it is zero. -/
  mem_entries_iff (e : Bool) {i : ℕ} {row : GroundRow K} :
    (Call.keptRows e calls)[i]? = some row → ∀ v, ((i, k), v) ∈ (g.program.matrixOf e).entries
      ↔ (key, v) ∈ row.entries ∧ Scalar.isZero v = false
  /-- A point gives the atom the coordinate there. -/
  value_eq (x : List K) (objective : K) : x.length = g.program.columnCount →
    (Solution.decode g.columns x objective).get? a = x[k]?

/-- **Assembled programs**: the dimensions agree, the rows are those that were kept, each with an entry,
and each atom whose column was asked for has a column of its own. -/
structure Grounded.Assembles (g : Grounded K) (sense : Sense) (calls : List (Call K)) : Prop where
  /-- The entries of the matrices are sorted and inside. -/
  wellFormed (e : Bool) : (g.program.matrixOf e).WellFormed
  /-- The matrices have a column for each cost. -/
  cols_eq (e : Bool) : (g.program.matrixOf e).cols = g.program.columnCount
  /-- The matrices have a row for each kept row. -/
  rows_eq (e : Bool) : (g.program.matrixOf e).rows = (Call.keptRows e calls).length
  /-- Each kept row has minus its constant as its right side. -/
  rightSides_eq (e : Bool) :
    g.program.rightSidesOf e = (Call.keptRows e calls).map fun row => -row.constant
  /-- Each row has a stored entry. -/
  row_ne_nil (e : Bool) {i : ℕ} : i < (g.program.matrixOf e).rows → (g.program.matrixOf e).row i ≠ []
  /-- There is an atom for each column. -/
  length_atoms : g.columns.atoms.length = g.program.columnCount
  /-- Each atom has one column, which is that of its key. -/
  exists_places {a : Atom K} {key : Position} :
    .column a key ∈ calls → ∃ k, g.Places sense calls a key k
  /-- Each column belongs to one atom. -/
  existsUnique_atom {k : ℕ} : k < g.program.columnCount →
    ∃! a, (∃ key, .column a key ∈ calls) ∧ g.columns.column? a = some k

namespace GroundingContext

variable {ctx : GroundingContext K} {model : Model K} {calls : List (Call K)}

theorem matrixOf_finish (ctx : GroundingContext K) (e : Bool) :
    ctx.finish.program.matrixOf e = ctx.matrix (ctx.rows e) := by
  cases e <;> rfl

theorem rightSidesOf_finish (ctx : GroundingContext K) (e : Bool) :
    ctx.finish.program.rightSidesOf e = rightSides (ctx.rows e) := by
  cases e <;> rfl

variable [Scalar.StartsFromZero K]

theorem Holds.places (h : ctx.Holds model calls) {a : Atom K} {key : Position}
    (ha : ctx.atomAt key = some a) : ctx.finish.Places model.sense calls a key (ctx.columnOf key) := by
  have hcolumn := (column?_finish h.valid).mpr ⟨key, ha, rfl⟩
  refine ⟨hcolumn, ?_, h.getElem?_atoms ha, ?_, fun e {i row} hi v => ?_,
    fun x objective _ => h.get?_decode hcolumn x objective⟩
  · rw [columnCount_finish]
    exact columnOf_lt ha
  · show ctx.objectiveVector[_]? = _
    rw [getElem?_objectiveVector h.objective ha, h.lookup_objective, h.model_eq]
    split <;> rfl
  · rw [matrixOf_finish]
    rw [← h.rows_eq] at hi
    exact mem_matrix_iff (fun r hr => h.rows hr) hi ha

/-- **Assembly loses and misplaces nothing**: after any session the finished program has everything that
was handed in at the place of its row and of the column of its atom, and nothing else. -/
theorem Session.assembles (h : Session model calls ctx) :
    ctx.finish.Assembles model.sense calls := by
  have hholds := h.holds
  refine ⟨fun e => ?_, fun e => ?_, fun e => ?_, fun e => ?_, fun e {i} hi => ?_, ?_,
    fun {a key} ha => ⟨_, hholds.places (hholds.atomAt_iff.mpr ha)⟩, fun {k} hk => ?_⟩
  · rw [matrixOf_finish]
    exact wellFormed_matrix fun r hr => hholds.rows hr
  · rw [matrixOf_finish, columnCount_finish]
    rfl
  · rw [matrixOf_finish, ← hholds.rows_eq]
    rfl
  · rw [rightSidesOf_finish, ← hholds.rows_eq]
    rfl
  · rw [matrixOf_finish] at hi ⊢
    -- a kept row has a decision variable, so its row of the matrix is not empty
    have hrow : (ctx.rows e)[i]? = some (ctx.rows e)[i] := List.getElem?_eq_getElem hi
    exact row_matrix_ne_nil (fun r hr => hholds.rows hr) hrow
      (hholds.hasDecisions (List.mem_of_getElem? hrow))
  · rw [columnCount_finish]
    exact hholds.length_atoms
  · rw [columnCount_finish] at hk
    -- a column is the place of the key of an atom, and different atoms have different columns
    obtain ⟨key, a, ha, rfl⟩ := exists_key hholds.valid hk
    have hcolumn := (column?_finish hholds.valid).mpr ⟨key, ha, rfl⟩
    refine ⟨a, ⟨⟨key, hholds.atomAt_iff.mp ha⟩, hcolumn⟩, fun b hb => ?_⟩
    exact column?_inj hholds.valid hb.2 hcolumn

/-- A shop that buys and sells. One predicate is declared twice, and one is never used. -/
def shop : Model ℚ where
  sense := .maximize
  decision := [⟨"buy", 1, .numeric, true⟩, ⟨"sell", 1, .numeric, true⟩, ⟨"buy", 1, .numeric, true⟩,
    ⟨"rest", 0, .numeric, true⟩]

/-- The atom of a shop for an item. -/
def trade (name item : String) : Atom ℚ := ⟨⟨name, 1, .numeric, true⟩, [.const (.text item)]⟩

/-- At most five more items are bought than sold. -/
def stock : GroundRow ℚ := ⟨[((0, 0), 1), ((1, 0), -1)], -5⟩

/-- Columns, costs and rows in turn; one of the columns is asked for twice. -/
def shopCalls : List (Call ℚ) :=
  [.column (trade "sell" "nut") (1, 0), .addObjective (1, 0) 3, .column (trade "buy" "nut") (0, 0),
    .pushRow .le stock true, .column (trade "buy" "gift") (0, 1), .pushRow .eq .empty false,
    .column (trade "sell" "nut") (1, 0), .addObjective (1, 0) 4]

/-- In the program of the shop the column of the sold nuts has minus the sum of its costs, as the
objective is maximized, and its entry in the only inequality. -/
theorem Session.assembles_shop : ∃ ctx, Session shop shopCalls ctx
    ∧ ctx.finish.Assembles .maximize shopCalls
    ∧ ∃ k, ctx.finish.columns.column? (trade "sell" "nut") = some k
      ∧ ctx.finish.program.c[k]? = some (-7) ∧ ((0, k), -1) ∈ ctx.finish.program.g.entries := by
  -- a request numbers the item, and the number is that of the key
  have hcolumn : ∀ {ctx : GroundingContext ℚ} {name item : String} {t i : ℕ},
      ctx.model.decisionIndex? (trade name item).template = some t →
      ((ctx.columns.getD t .empty).insert [.text item]).numberOf [.text item] = i →
      ctx.column (trade name item) = .ok ((t, i), ctx.withTuple t [.text item]) := by
    rintro ctx name item t i ht rfl
    exact column_eq_ok_iff.mpr ⟨t, _, ht, rfl, rfl, rfl⟩
  have hsold : Session shop (shopCalls.take 2) _ :=
    .addObjective 3 (.column .start rfl (hcolumn (by decide) (by decide +kernel))) (by decide)
  have hbought : Session shop (shopCalls.take 3) _ :=
    hsold.column rfl (hcolumn (by decide) (by decide +kernel))
  have hkept : Session shop (shopCalls.take 4) _ :=
    hbought.pushRow "stock" (List.pairwise_pair.mpr (by decide)) (by decide)
      (if_pos (by decide +kernel))
  have hgift : Session shop (shopCalls.take 5) _ :=
    hkept.column rfl (hcolumn (by decide) (by decide +kernel))
  have hdropped : Session shop (shopCalls.take 6) _ :=
    hgift.pushRow "nothing" List.Pairwise.nil (fun _ h => absurd h List.not_mem_nil)
      ((if_neg (by decide +kernel)).trans (if_pos (by decide +kernel)))
  have hagain : Session shop (shopCalls.take 7) _ :=
    hdropped.column rfl (hcolumn (by decide) (by decide +kernel))
  have hsession : Session shop shopCalls _ := hagain.addObjective 4 (by decide)
  have hassembles := hsession.assembles
  obtain ⟨k, hplaces⟩ := hassembles.exists_places (a := trade "sell" "nut") List.mem_cons_self
  refine ⟨_, hsession, hassembles, k, hplaces.column_eq, ?_, ?_⟩
  · rw [hplaces.cost_eq]
    decide +kernel
  · exact (hplaces.mem_entries_iff false (i := 0) rfl (-1)).mpr (by decide +kernel)

end GroundingContext

end RelationalLP
