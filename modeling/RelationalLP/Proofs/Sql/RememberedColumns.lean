import Mathlib
import RelationalLP.Number.Double
import RelationalLP.Sql.Draft

/-! # Remembered columns

Column names are asked once per table and remembered, also by computations that fail later. A schema whose
answers depend on the name of the table alone is answered for by the names that are remembered, so what a
computation gives does not depend on what was asked before it: each request of a session is answered as if it
were the first, and no table is asked for again after a success. -/

namespace RelationalLP

namespace Sql

variable {K : Type} {σ τ : Type}

/-! ### What is remembered -/

/-- What holds of the names of every table that is remembered stays so with those of one more. -/
theorem ColumnCache.forall_cons {P : String → List String → Prop} {cache : ColumnCache}
    (h : ∀ table names, cache.lookup table = some names → P table names) {table : String}
    {names : List String} (hnames : P table names) :
    ∀ other found, List.lookup other ((table, names) :: cache) = some found → P other found := by
  intro other found hfound
  rw [List.lookup_cons] at hfound
  split at hfound
  · rename_i heq
    rwa [eq_of_beq heq, ← Option.some.inj hfound]
  · exact h other found hfound

/-- The names that are remembered are the answers of a schema. -/
def ColumnCache.Recalls (answers : String → Except RenderError (List String)) (cache : ColumnCache) :
    Prop := ∀ table names, cache.lookup table = some names → answers table = .ok names

/-- **A schema that answers by the name of the table**, beside a relation of the remembered names to its
state that the answers keep. -/
structure Answering (answers : String → Except RenderError (List String))
    (schema : SchemaSource (StateM τ)) (I : ColumnCache → τ → Prop) : Prop where
  /-- Only answers are remembered. -/
  recalls : ∀ {cache s}, I cache s → cache.Recalls answers
  /-- A table that is not remembered may be asked for, and a success is remembered. -/
  asks : ∀ {cache s} table, I cache s → cache.lookup table = none →
    ∃ s', (schema table).run.run s = (answers table, s')
      ∧ match answers table with
        | .ok names => I ((table, names) :: cache) s'
        | .error _ => I cache s'

/-! ### Computations that do not depend on it -/

namespace Compile

variable {α β : Type} {I : ColumnCache → τ → Prop}

/-- The result of a computation, whatever is remembered; the relation to the state of the schema is kept. -/
def Settles (I : ColumnCache → τ → Prop) (x : Compile (StateM τ) α) (r : Except RenderError α) : Prop :=
  ∀ cache s, I cache s → ∃ cache' s', (x.run.run cache).run s = ((r, cache'), s') ∧ I cache' s'

theorem settles_pure (a : α) : Settles I (pure a) (.ok a) := fun cache s h => ⟨cache, s, rfl, h⟩

theorem settles_throw (e : RenderError) : Settles I (throw e : Compile (StateM τ) α) (.error e) :=
  fun cache s h => ⟨cache, s, rfl, h⟩

/-- Of two steps the second one starts from what the first has left, unless that failed. -/
theorem run_bind (x : Compile (StateM τ) α) (f : α → Compile (StateM τ) β) (cache : ColumnCache) (s : τ) :
    ((x >>= f).run.run cache).run s = match (x.run.run cache).run s with
      | ((.ok a, cache₁), s₁) => ((f a).run.run cache₁).run s₁
      | ((.error e, cache₁), s₁) => ((.error e, cache₁), s₁) := by
  rw [ExceptT.run_bind, StateT.run_bind, StateT.run_bind]
  rcases (x.run.run cache).run s with ⟨⟨_ | _, _⟩, _⟩ <;> rfl

/-- The results of two steps are combined like the steps. -/
theorem Settles.bind {x : Compile (StateM τ) α} {f : α → Compile (StateM τ) β}
    {r : Except RenderError α} {g : α → Except RenderError β} (hx : Settles I x r)
    (hf : ∀ a, Settles I (f a) (g a)) : Settles I (x >>= f) (r >>= g) := by
  intro cache s h
  obtain ⟨cache₁, s₁, hrun, h₁⟩ := hx cache s h
  rw [run_bind, hrun]
  cases r with
  | error e => exact ⟨cache₁, s₁, rfl, h₁⟩
  | ok a => exact hf a cache₁ s₁ h₁

end Compile

/-- **A computation that does not depend on what is remembered**: one result over all schemas with the same
answers, and over all names that they may have given before. -/
def Steady {α : Type} (answers : String → Except RenderError (List String))
    (x : (τ : Type) → SchemaSource (StateM τ) → Compile (StateM τ) α) : Prop :=
  ∃ r, ∀ (τ : Type) (schema : SchemaSource (StateM τ)) (I : ColumnCache → τ → Prop),
    Answering answers schema I → Compile.Settles I (x τ schema) r

namespace Steady

variable {α β : Type} {answers : String → Except RenderError (List String)}

theorem pure (a : α) : Steady answers fun _ _ => Pure.pure a :=
  ⟨_, fun _ _ _ _ => Compile.settles_pure a⟩

theorem throw (e : RenderError) :
    Steady answers fun τ _ => (MonadExcept.throw e : Compile (StateM τ) α) :=
  ⟨_, fun _ _ _ _ => Compile.settles_throw e⟩

theorem bind {x : (τ : Type) → SchemaSource (StateM τ) → Compile (StateM τ) α}
    {f : (τ : Type) → SchemaSource (StateM τ) → α → Compile (StateM τ) β} (hx : Steady answers x)
    (hf : ∀ a, Steady answers fun τ schema => f τ schema a) :
    Steady answers fun τ schema => x τ schema >>= f τ schema := by
  obtain ⟨r, hr⟩ := hx
  choose g hg using hf
  exact ⟨r >>= g, fun τ schema I h => (hr τ schema I h).bind fun a => hg a τ schema I h⟩

theorem lift (x : Except RenderError α) :
    Steady answers fun τ _ => (liftExcept x : Compile (StateM τ) α) := by
  cases x with
  | ok a => exact pure a
  | error e => exact throw e

/-- Items are made one by one. -/
theorem mapM {f : (τ : Type) → SchemaSource (StateM τ) → α → Compile (StateM τ) β} (xs : List α)
    (hf : ∀ x, Steady answers fun τ schema => f τ schema x) :
    Steady answers fun τ schema => xs.mapM (f τ schema) := by
  induction xs with
  | nil => exact pure []
  | cons x xs ih =>
    simp only [List.mapM_cons]
    exact (hf x).bind fun y => ih.bind fun ys => pure (y :: ys)

/-- Steps are made one by one. -/
theorem foldlM {f : (τ : Type) → SchemaSource (StateM τ) → β → α → Compile (StateM τ) β} (xs : List α)
    (hf : ∀ b x, Steady answers fun τ schema => f τ schema b x) (b : β) :
    Steady answers fun τ schema => xs.foldlM (f τ schema) b := by
  induction xs generalizing b with
  | nil => exact pure b
  | cons x xs ih =>
    simp only [List.foldlM_cons]
    exact (hf b x).bind ih

end Steady

/-! ### Statements -/

section Statements

variable {answers : String → Except RenderError (List String)}

/-- **The names of the columns of a table** are the answer of the schema, asked now or before. -/
theorem steady_columnNames (table : String) :
    Steady answers fun _ schema => columnNames schema table := by
  refine ⟨answers table, fun τ schema I h cache s hI => ?_⟩
  have hget : ((get : Compile (StateM τ) ColumnCache).run.run cache).run s = ((.ok cache, cache), s) := rfl
  dsimp only
  rw [columnNames, Compile.run_bind, hget]
  dsimp only
  -- a name that is remembered is not asked for again
  cases hlookup : cache.lookup table with
  | some names =>
    rw [h.recalls hI table names hlookup]
    exact ⟨cache, s, rfl, hI⟩
  | none =>
    obtain ⟨s', hask, hkeep⟩ := h.asks table hI hlookup
    have hlift : ((ExceptT.mk (StateT.lift (schema table).run) :
        Compile (StateM τ) (List String)).run.run cache).run s = ((answers table, cache), s') := by
      show (match (schema table).run.run s with | (r, s') => ((r, cache), s')) = _
      rw [hask]
    dsimp only
    rw [Compile.run_bind, hlift]
    -- only an answer is remembered, an error is not
    cases hanswer : answers table with
    | ok names =>
      rw [hanswer] at hkeep
      exact ⟨(table, names) :: cache, s', rfl, hkeep⟩
    | error e =>
      rw [hanswer] at hkeep
      exact ⟨cache, s', rfl, hkeep⟩

theorem steady_columnAt (table : String) (index : ℕ) :
    Steady answers fun _ schema => columnAt schema table index := by
  refine (steady_columnNames table).bind fun names => ?_
  cases names[index]? with
  | some name => exact .pure name
  | none => exact .throw _

theorem steady_atomCells (label : String) (a : Atom K) :
    Steady answers fun _ schema => Draft.atomCells schema label a := by
  unfold Draft.atomCells
  refine .mapM _ fun p => ?_
  exact (steady_columnAt a.name p.2).bind fun name => .pure ((⟨label, name⟩, p.1) : Column × Term K)

theorem steady_ofConjunction (c : Conjunction K) :
    Steady answers fun _ schema => Draft.ofConjunction schema c := by
  unfold Draft.ofConjunction
  refine .foldlM c (fun d l => ?_) _
  cases l with
  | positive a => exact (steady_atomCells _ a).bind fun _ => .pure _
  | negative a => exact (steady_atomCells _ a).bind fun _ => .pure _
  | compare c => exact .pure _

variable [Scalar K]

/-- **The statement of a query** does not depend on what is remembered. -/
theorem steady_statement? (selectors : List Symbol) (f : Formula K) (coefficient : Option (Expr K)) :
    Steady answers fun _ schema => statement? schema selectors f coefficient := by
  unfold statement?
  cases f.toDnf with
  | nil => exact .pure none
  | cons c cs =>
    simp only [map_eq_pure_bind]
    refine .bind (.mapM _ fun c => ?_) fun selections => .pure (some selections)
    exact (steady_ofConjunction c).bind fun draft => .lift (draft.selection selectors coefficient)

/-- **The lookup of an atom** does not depend on what is remembered. -/
theorem steady_factLookup (a : Atom K) : Steady answers fun _ schema => factLookup schema a := by
  unfold factLookup
  cases a.ground? with
  | none => exact .throw _
  | some args =>
    refine (steady_columnAt a.name args.length).bind fun column => .bind (.mapM _ fun p => ?_)
      fun given => .pure (⟨column, a.name, given⟩ : Lookup K)
    exact (steady_columnAt a.name p.2).bind fun name => .pure (name, p.1)

end Statements

/-! ### Sessions -/

/-- A request for the text of a statement. -/
inductive Request (K : Type) where
  /-- The statement of a query; a query that cannot hold has none. -/
  | query (selectors : List Symbol) (formula : Formula K) (coefficient : Option (Expr K))
  /-- The lookup of the value of an atom. -/
  | lookup (a : Atom K)

namespace Request

variable [Scalar K] {m : Type → Type} [Monad m]

/-- The text that a request asks for. -/
def text (schema : SchemaSource m) : Request K → Compile m (Option String)
  | query selectors f coefficient => queryText? schema selectors f coefficient
  | lookup a => do return some (← factLookup schema a).write

/-- The results of requests made one after another, of which each remembers what those before it have
learnt, whether they failed or not. -/
def texts (schema : SchemaSource m) (requests : List (Request K)) :
    StateT ColumnCache m (List (Except RenderError (Option String))) :=
  requests.mapM fun q => (q.text schema).run

/-- The result of a request that remembers nothing. -/
def textAlone (schema : SchemaSource m) (q : Request K) : m (Except RenderError (Option String)) :=
  Prod.fst <$> (q.text schema).run.run []

theorem steady_text {answers : String → Except RenderError (List String)} (q : Request K) :
    Steady answers fun _ schema => q.text schema := by
  cases q with
  | query selectors f coefficient => exact (steady_statement? selectors f coefficient).bind fun _ => .pure _
  | lookup a => exact (steady_factLookup a).bind fun _ => .pure _

/-- **The results of requests** are those that each of them has, whatever is remembered. -/
theorem texts_eq {schema : SchemaSource (StateM τ)} {I : ColumnCache → τ → Prop} {r : Request K → Except RenderError (Option String)}
    (hr : ∀ q, Compile.Settles I (q.text schema) (r q)) (requests : List (Request K))
    {cache : ColumnCache} {s : τ} (h : I cache s) :
    ∃ cache' s', ((texts schema requests).run cache).run s = ((requests.map r, cache'), s')
      ∧ I cache' s' := by
  induction requests generalizing cache s with
  | nil => exact ⟨cache, s, rfl, h⟩
  | cons q requests ih =>
    obtain ⟨cache₁, s₁, hrun, h₁⟩ := hr q cache s h
    obtain ⟨cache₂, s₂, hrest, h₂⟩ := ih h₁
    refine ⟨cache₂, s₂, ?_, h₂⟩
    rw [texts, List.mapM_cons]
    show (match ((q.text schema).run.run cache).run s with
      | ((first, c), s) => match ((texts schema requests).run c).run s with
        | ((rest, c), s) => ((first :: rest, c), s)) = _
    rw [hrun]
    dsimp only
    rw [hrest]
    rfl

end Request

/-- A schema that keeps the names of the tables it has named the columns of, in order. -/
def recorded (schema : SchemaSource (StateM σ)) : SchemaSource (StateM (σ × List String)) :=
  fun table => ExceptT.mk fun (s, named) =>
    match (schema table).run.run s with
    | (.ok names, s') => (.ok names, s', named ++ [table])
    | (.error e, s') => (.error e, s', named)

section Sessions

variable {schema : SchemaSource (StateM σ)} {answers : String → Except RenderError (List String)}

theorem ColumnCache.Recalls.cons {cache : ColumnCache} (h : cache.Recalls answers) {table : String}
    {names : List String} (hnames : answers table = .ok names) :
    ColumnCache.Recalls answers ((table, names) :: cache) := ColumnCache.forall_cons h hnames

/-- A schema that answers by the name of the table, beside the names that are remembered. -/
theorem answering (hschema : ∀ table s, ((schema table).run.run s).1 = answers table) :
    Answering answers schema fun cache _ => cache.Recalls answers where
  recalls h := h
  asks {cache s} table h _ := by
    refine ⟨_, Prod.ext (hschema table s) rfl, ?_⟩
    cases hanswer : answers table with
    | ok names => exact h.cons hanswer
    | error e => exact h

/-- **What a schema has named is remembered**, and it named it once. -/
theorem answering_recorded (hschema : ∀ table s, ((schema table).run.run s).1 = answers table) :
    Answering answers (recorded schema) fun cache s => cache.Recalls answers ∧ s.2.Nodup
      ∧ ∀ table ∈ s.2, (cache.lookup table).isSome = true where
  recalls h := h.1
  asks {cache s} table h hnew := by
    obtain ⟨s, named⟩ := s
    obtain ⟨hrecalls, hnodup, hnamed⟩ := h
    obtain ⟨s', hask⟩ : ∃ s', (schema table).run.run s = (answers table, s') :=
      ⟨_, Prod.ext (hschema table s) rfl⟩
    have hrun : ((recorded schema table).run.run (s, named)) = match (schema table).run.run s with
        | (.ok names, s') => (.ok names, s', named ++ [table])
        | (.error e, s') => (.error e, s', named) := rfl
    rw [hrun, hask]
    cases hanswer : answers table with
    | error e => exact ⟨(s', named), rfl, hrecalls, hnodup, hnamed⟩
    | ok names =>
      refine ⟨(s', named ++ [table]), rfl, hrecalls.cons hanswer, ?_, fun other hother => ?_⟩
      · refine List.nodup_append.mpr ⟨hnodup, List.nodup_singleton table, ?_⟩
        rintro other hother _ htable rfl
        -- a table that was named is remembered
        have hsome := hnamed other hother
        rw [List.mem_singleton.mp htable, hnew] at hsome
        cases hsome
      · rw [List.lookup_cons]
        split
        · rfl
        · rename_i hne
          rcases List.mem_append.mp hother with hmem | hmem
          · exact hnamed other hmem
          · rw [List.mem_singleton.mp hmem, beq_self_eq_true] at hne
            cases hne

variable [Scalar K]

/-- **Remembered columns are invisible and effective.** With a schema whose answers depend on the name of the
table alone, each request of a session has the result that it has on its own, errors included, and the schema
names the columns of no table twice. -/
theorem texts_eq_map_textAlone (hschema : ∀ table s, ((schema table).run.run s).1 = answers table)
    (requests : List (Request K)) (s s₀ : σ) :
    (((Request.texts schema requests).run []).run s).1.1
        = requests.map (fun q => ((q.textAlone schema).run s₀).1)
      ∧ ∃ cache s' named,
        ((Request.texts (recorded schema) requests).run []).run (s, [])
          = ((requests.map (fun q => ((q.textAlone schema).run s₀).1), cache), (s', named))
        ∧ named.Nodup := by
  have hnothing : ColumnCache.Recalls answers [] := fun _ _ h => nomatch h
  have hsteady : ∀ q : Request K, Steady answers fun _ schema => q.text schema := Request.steady_text
  -- the results do not depend on the schema, so the recorded one has the same
  choose r hr using hsteady
  have halone : (fun q : Request K => ((q.textAlone schema).run s₀).1) = r := by
    funext q
    obtain ⟨cache, s', hrun, -⟩ := hr q σ schema _ (answering hschema) [] s₀ hnothing
    exact congrArg (fun out => out.1.1) hrun
  rw [halone]
  constructor
  · obtain ⟨cache, s', hrun, -⟩ := Request.texts_eq
      (fun q => hr q σ schema _ (answering hschema)) requests (s := s) hnothing
    rw [hrun]
  · obtain ⟨cache, ⟨s', named⟩, hrun, -, hnodup, -⟩ := Request.texts_eq
      (fun q => hr q _ (recorded schema) _ (answering_recorded hschema)) requests (s := (s, []))
      ⟨hnothing, List.nodup_nil, nofun⟩
    exact ⟨cache, s', named, hrun, hnodup⟩

end Sessions

/-- A schema of edges and capacities that counts what it is asked; a lost table cannot be read. -/
def countingSchema : SchemaSource (StateM ℕ) := fun table => ExceptT.mk fun count =>
  (if table = "lost" then .error (.backend "lost")
    else .ok (if table = "edge" then ["src", "dst"] else ["x", "y", "z"]), count + 1)

/-- A query that fails at a lost table, a query, a lookup that fails for want of a column, and a lookup. -/
def edgeRequests : List (Request Double) :=
  let edge : Formula Double := .atom ⟨⟨"edge", 2, .boolean, false⟩, [.var ⟨"X"⟩, .var ⟨"Y"⟩]⟩
  [.query [⟨"X"⟩] (.conj [edge, .atom ⟨⟨"lost", 1, .boolean, false⟩, [.var ⟨"X"⟩]⟩]) none,
    .query [⟨"X"⟩] edge none,
    .lookup ⟨⟨"edge", 2, .numeric, false⟩, [.const (.text "a"), .const (.text "b")]⟩,
    .lookup ⟨⟨"cap", 2, .numeric, false⟩, [.const (.text "a"), .const (.text "b")]⟩]

/-- The failed query has learnt the columns of the edges, so that the schema names two tables, once each. -/
theorem texts_eq_map_textAlone_edges :
    (∀ table s, ((countingSchema table).run.run s).1 = ((countingSchema table).run.run 0).1)
      ∧ ∃ cache count named,
        ((Request.texts (recorded countingSchema) edgeRequests).run []).run (0, [])
          = ((edgeRequests.map (fun q => ((q.textAlone countingSchema).run 0).1), cache), (count, named))
        ∧ named.Nodup ∧ count = 3 ∧ named = ["edge", "cap"] := by
  have hschema : ∀ table s, ((countingSchema table).run.run s).1 = ((countingSchema table).run.run 0).1 :=
    fun _ _ => rfl
  obtain ⟨-, cache, count, named, hrun, hnodup⟩ := texts_eq_map_textAlone hschema edgeRequests 0 0
  have hstate : (((Request.texts (recorded countingSchema) edgeRequests).run []).run (0, [])).2
      = (3, ["edge", "cap"]) := by decide +kernel
  rw [hrun, Prod.mk.injEq] at hstate
  exact ⟨hschema, cache, count, named, hrun, hnodup, hstate.1, hstate.2⟩

end Sql

end RelationalLP
