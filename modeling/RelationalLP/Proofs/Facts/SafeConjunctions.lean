import Mathlib
import RelationalLP.Proofs.Facts.GuardedJoins

/-! # Safe conjunctions

Which symbols a search binds can be read off the conjunction: those of its positive atoms, and those that an
equation equates with a constant or with a symbol that is bound. A conjunction is safe when these are all of
its symbols. The search is solved exactly for the safe ones, whatever the facts are and in whatever order the
literals stand, and then each binding that it finds binds the symbols of the conjunction and no others. -/

namespace RelationalLP

variable {K : Type}

namespace Conjunction

/-- **The symbols that a conjunction binds.** -/
inductive Binds (c : Conjunction K) : Symbol → Prop where
  /-- A positive atom binds its variables. -/
  | atom {a : Atom K} {x : Symbol} (mem : .positive a ∈ c) (var : x ∈ a.vars) : Binds c x
  /-- An equation binds a symbol when its other side is a constant or a bound symbol. -/
  | equation {d : Comparison K} {x : Symbol} {side : Term K} (mem : .compare d ∈ c)
      (equates : d.Equates x side) (known : ∀ y ∈ side.symbol?, Binds c y) : Binds c x

/-- **A safe conjunction** binds the variables of all its literals. -/
def Safe (c : Conjunction K) : Prop := ∀ l ∈ c, ∀ x ∈ l.vars, Binds c x

/-- A conjunction binds what the same literals bind in another order. -/
theorem Binds.congr {c c' : Conjunction K} (h : ∀ l, l ∈ c ↔ l ∈ c') {x : Symbol} (hx : Binds c x) :
    Binds c' x := by
  induction hx with
  | atom mem var => exact .atom ((h _).mp mem) var
  | equation mem equates _ ih => exact .equation ((h _).mp mem) equates ih

/-- **Safety does not depend on the order of literals.** -/
theorem safe_congr {c c' : Conjunction K} (h : ∀ l, l ∈ c ↔ l ∈ c') : Safe c ↔ Safe c' := by
  constructor
  · exact fun hsafe l hl x hx => (hsafe l ((h l).mpr hl) x hx).congr h
  · exact fun hsafe l hl x hx => (hsafe l ((h l).mp hl) x hx).congr fun l => (h l).symm

end Conjunction

variable [Scalar K] {fb : FactBase K} {c : Conjunction K}

namespace FactBase

/-! ### The symbols that one step binds -/

/-- Unification binds the variables of the terms besides those bound before. -/
theorem isSome_get?_of_unify {b b' : Binding K} {ts : List (Term K)} {row : Tuple K}
    (hlen : row.length = ts.length) (h : unify b ts row = some b') (x : Symbol) :
    (b'.get? x).isSome ↔ (b.get? x).isSome ∨ .var x ∈ ts := by
  induction ts generalizing b row with
  | nil =>
    obtain rfl := List.length_eq_zero_iff.mp hlen
    rw [unify_nil] at h
    obtain rfl := Option.some.inj h
    simp
  | cons t ts ih =>
    cases row with
    | nil => cases hlen
    | cons cell row =>
      have hlen' : row.length = ts.length := Nat.succ.inj hlen
      cases t with
      | const d =>
        -- a constant binds nothing
        rw [unify_const, Option.ite_none_right_eq_some] at h
        simp [ih hlen' h.2]
      | var s =>
        cases hs : b.get? s with
        | some d =>
          rw [unify_bound hs, Option.ite_none_right_eq_some] at h
          rw [ih hlen' h.2, List.mem_cons, Term.var.injEq]
          -- the variable was bound before
          by_cases hxs : x = s
          · simp [hxs, hs]
          · simp [hxs]
        | none =>
          rw [unify_unbound hs] at h
          rw [ih hlen' h, Binding.get?_bind, List.mem_cons, Term.var.injEq]
          -- the variable is bound now
          by_cases hxs : x = s
          · simp [hxs]
          · simp [hxs]

/-- A joined binding binds the variables of the atom besides those bound before. -/
theorem isSome_get?_of_mem_join {bs : List (Binding K)} {a : Atom K} {b' : Binding K}
    (h : b' ∈ fb.join bs a) :
    ∃ b ∈ bs, ∀ x, (b'.get? x).isSome ↔ (b.get? x).isSome ∨ x ∈ a.vars := by
  obtain ⟨b, hb, row, -, hlen, hunify⟩ := mem_join.mp h
  rw [Atom.substitute, unify_map_substitute (.refl _)] at hunify
  refine ⟨b, hb, fun x => (isSome_get?_of_unify hlen hunify x).trans (or_congr_right ?_)⟩
  exact Literal.mem_vars_iff (l := .positive a).symm

/-- A filter that is ready binds its variables besides those bound before. -/
theorem isSome_get?_of_check {bound : List Symbol} {l : Literal K} (hready : isReady bound l = true)
    {b b' : Binding K} (hb : ∀ x, (b.get? x).isSome ↔ x ∈ bound) (h : fb.check l b = some b')
    (x : Symbol) : (b'.get? x).isSome ↔ x ∈ bound ∨ x ∈ l.vars := by
  rcases cases_of_isReady hready with hall | ⟨d, s, side, rfl, hequates, hs, hside⟩
  · -- a test changes nothing
    obtain ⟨rfl, -⟩ := (check_of_bound fun y hy => (hb y).mpr (hall y hy)).mp h
    rw [hb, or_iff_left_of_imp (hall x)]
  · -- an equation binds its open side
    have hopen : b.get? s = none := by
      rw [← Option.not_isSome_iff_eq_none, hb]
      exact hs
    obtain ⟨value, hvalue⟩ := Option.isSome_iff_exists.mp
      ((Term.isSome_valueAt b.get? side).mpr fun y hy => (hb y).mpr (hside y hy))
    obtain rfl := Option.some.inj ((check_of_equates hequates hopen hvalue).symm.trans h)
    rw [Binding.get?_bind, Literal.vars, hequates.mem_vars_iff]
    by_cases hxs : x = s
    · simp [hxs]
    · rw [if_neg hxs, hb, or_iff_right hxs, or_iff_left_of_imp (hside x)]

/-- What a literal that is ready binds, the conjunction binds. -/
theorem binds_of_isReady {bound : List Symbol} (hbound : ∀ x ∈ bound, Conjunction.Binds c x)
    {l : Literal K} (hl : l ∈ c) (hready : isReady bound l = true) :
    ∀ x ∈ l.vars, Conjunction.Binds c x := by
  intro x hx
  rcases cases_of_isReady hready with hall | ⟨d, s, side, rfl, hequates, -, hside⟩
  · exact hbound x (hall x hx)
  · rcases hequates.mem_vars_iff.mp hx with rfl | hx
    · exact .equation hl hequates fun y hy => hbound y (hside y hy)
    · exact hbound x (hside x hx)

/-- An equation of an unbound symbol is ready when its other side is bound. -/
theorem isReady_of_equates {bound : List Symbol} {d : Comparison K} {s : Symbol} {side : Term K}
    (h : d.Equates s side) (hs : s ∉ bound) (hside : ∀ y ∈ side.symbol?, y ∈ bound) :
    isReady bound (.compare d) = true := by
  have hne : side ≠ .var s := fun heq => hs (hside s (heq ▸ rfl))
  -- of the two sides only the symbol is open
  have hunbound : distinct (d.vars.filter (· ∉ bound)) = [s] := by
    refine List.perm_singleton.mp ((List.perm_ext_iff_of_nodup (nodup_distinct _)
      (List.nodup_singleton s)).mpr fun y => ?_)
    rw [mem_distinct, List.mem_filter, decide_eq_true_eq, h.mem_vars_iff, List.mem_singleton]
    constructor
    · rintro ⟨rfl | hy, hopen⟩
      · rfl
      · exact absurd (hside y hy) hopen
    · rintro rfl
      exact ⟨.inl rfl, hs⟩
  unfold isReady
  rw [Literal.vars, hunbound]
  rcases h.sides with ⟨hleft, hright⟩ | ⟨hleft, hright⟩
  · simp [h.op_eq, hleft, hright, hne]
  · simp [h.op_eq, hleft, hright, hne]

/-! ### The symbols that a search binds -/

/-- **A search that tracks a conjunction**: what is bound are the variables of the literals taken care of, the
conjunction binds them, and every binding binds exactly them. -/
structure Search.Tracks (c : Conjunction K) (done : List (Literal K)) (s : Search K) : Prop where
  /-- The variables of the literals taken care of are bound. -/
  mem_bound : ∀ x, x ∈ s.bound ↔ ∃ l ∈ done, x ∈ l.vars
  /-- The conjunction binds what is bound. -/
  binds : ∀ x ∈ s.bound, Conjunction.Binds c x
  /-- A binding binds what is bound. -/
  isSome_get? : ∀ b ∈ s.bindings, ∀ x, (b.get? x).isSome ↔ x ∈ s.bound

omit [Scalar K] in
/-- One more literal is tracked when its variables are bound and the conjunction binds them. -/
theorem Search.Tracks.extend {s : Search K} {done : List (Literal K)} (hs : s.Tracks c done)
    {l : Literal K} {bs : List (Binding K)} (hl : ∀ x ∈ l.vars, Conjunction.Binds c x)
    (hbs : ∀ b ∈ bs, ∀ x, (b.get? x).isSome ↔ x ∈ s.bound ∨ x ∈ l.vars) (rest : List (Literal K)) :
    (⟨bs, rest, s.bound ++ l.vars⟩ : Search K).Tracks c (l :: done) where
  mem_bound := by
    intro x
    rw [List.mem_append, hs.mem_bound, List.exists_mem_cons_iff, or_comm]
  binds := by
    intro x hx
    exact (List.mem_append.mp hx).elim (hs.binds x) (hl x)
  isSome_get? := by
    intro b hb x
    rw [hbs b hb, List.mem_append]

/-- **The steps of a search track the conjunction.** -/
theorem Search.kept_tracks (fb : FactBase K) (c : Conjunction K) :
    Search.Kept fb c fun done s => s.Tracks c done where
  join := by
    intro done s a hs ha
    refine hs.extend (l := .positive a) (fun x hx => .atom ha hx) (fun b' hb' x => ?_) s.pending
    obtain ⟨b, hb, hbound⟩ := isSome_get?_of_mem_join hb'
    rw [hbound, hs.isSome_get? b hb]
    rfl
  filter := by
    intro done s l hs hl hready rest
    refine hs.extend (binds_of_isReady hs.binds hl hready) (fun b' hb' => ?_) rest
    obtain ⟨b, hb, hcheck⟩ := List.mem_filterMap.mp hb'
    exact isSome_get?_of_check hready (hs.isSome_get? b hb) hcheck

omit [Scalar K] in
theorem tracks_start (c : Conjunction K) (pending : List (Literal K)) :
    (⟨[.empty], pending, []⟩ : Search K).Tracks c [] where
  mem_bound := fun x => iff_of_false List.not_mem_nil fun ⟨_, hl, _⟩ => List.not_mem_nil hl
  binds := fun x hx => absurd hx List.not_mem_nil
  isSome_get? := by
    intro b hb x
    rw [List.mem_singleton.mp hb]
    simp

/-- **A search that rests has bound all that the conjunction binds.** -/
theorem Search.Rests.mem_bound_of_binds {s : Search K} {done : List (Literal K)}
    (hs : Search.Rests (fun done s => s.Tracks c done) c s done)
    (hwaiting : ∀ l ∈ s.pending, l.positive? = none) {x : Symbol} (hx : Conjunction.Binds c x) :
    x ∈ s.bound := by
  induction hx with
  | @atom a x mem var =>
    -- a positive literal never waits
    refine (hs.kept.mem_bound x).mpr ⟨_, ((hs.mem_iff _).mpr mem).resolve_right fun hpending => ?_, var⟩
    cases hwaiting _ hpending
  | @equation d x side mem equates _ ih =>
    by_contra hbound
    rcases (hs.mem_iff _).mpr mem with hdone | hpending
    · exact hbound ((hs.kept.mem_bound x).mpr ⟨_, hdone, equates.mem_vars_iff.mpr (.inl rfl)⟩)
    · -- an equation that waits would be ready
      cases (hs.waits _ hpending).symm.trans (isReady_of_equates equates hbound ih)

/-! ### Which conjunctions are solved -/

/-- **What a solved conjunction gives, and when it is solved**: a safe conjunction is solved, and every binding
binds its variables and no others; any other conjunction is refused as not safe. -/
theorem solve_cases (fb : FactBase K) (c : Conjunction K) :
    Conjunction.Safe c ∧ (∃ bs, fb.solve c = .ok bs
        ∧ ∀ b ∈ bs, ∀ x, (b.get? x).isSome ↔ ∃ l ∈ c, x ∈ l.vars)
      ∨ ¬ Conjunction.Safe c ∧ ∃ l ∈ c, fb.solve c = .error (.notSafe l.render) := by
  obtain ⟨s, done, hrests, hwaiting, ⟨hnil, hsolve⟩ | ⟨l, rest, hcons, hsolve⟩⟩ :=
    (Search.kept_tracks fb c).solve (tracks_start c _)
  · have hdone : ∀ l, l ∈ done ↔ l ∈ c := fun l => by
      rw [← hrests.mem_iff l, hnil, or_iff_left List.not_mem_nil]
    have hvars : ∀ x, x ∈ s.bound ↔ ∃ l ∈ c, x ∈ l.vars := fun x => by
      simp only [hrests.kept.mem_bound, hdone]
    refine .inl ⟨fun l hl x hx => hrests.kept.binds x ((hvars x).mpr ⟨l, hl, hx⟩), _, hsolve, ?_⟩
    intro b hb x
    rw [hrests.kept.isSome_get? b hb, hvars]
  · have hpending : l ∈ s.pending := hcons ▸ List.mem_cons_self
    have hl : l ∈ c := (hrests.mem_iff l).mp (.inr hpending)
    refine .inr ⟨fun hsafe => ?_, l, hl, hsolve⟩
    -- all variables of the waiting literal would be bound, and it would be ready
    have hready : isReady s.bound l = true :=
      isReady_of_bound fun x hx => hrests.mem_bound_of_binds hwaiting (hsafe l hl x hx)
    cases (hrests.waits l hpending).symm.trans hready

/-- **A conjunction is refused exactly when it is not safe**, whatever the facts are. -/
theorem exists_solve_eq_notSafe_iff (fb : FactBase K) (c : Conjunction K) :
    (∃ text, fb.solve c = .error (.notSafe text)) ↔ ¬ Conjunction.Safe c := by
  rcases solve_cases fb c with ⟨hsafe, bs, hsolve, -⟩ | ⟨hnot, l, -, hsolve⟩
  · refine iff_of_false (fun ⟨text, h⟩ => ?_) (not_not_intro hsafe)
    cases hsolve.symm.trans h
  · exact iff_of_true ⟨_, hsolve⟩ hnot

/-- **Safety is static**: over every two fact bases, a conjunction and the same literals in another order are
both refused as not safe or both solved; and the bindings of a solved conjunction bind exactly its
variables. -/
theorem solve_notSafe_perm {c c' : Conjunction K} (h : c.Perm c') (fb fb' : FactBase K) :
    ((∃ text, fb.solve c = .error (.notSafe text)) ↔ ∃ text, fb'.solve c' = .error (.notSafe text))
      ∧ ∀ bs, fb.solve c = .ok bs → ∀ b ∈ bs, ∀ x, b.contains x ↔ ∃ l ∈ c, x ∈ l.vars := by
  constructor
  · rw [exists_solve_eq_notSafe_iff, exists_solve_eq_notSafe_iff,
      Conjunction.safe_congr fun l => h.mem_iff]
  · intro bs hbs
    rcases solve_cases fb c with ⟨-, bs', hsolve, hbound⟩ | ⟨-, l, -, hsolve⟩
    · obtain rfl := Except.ok.inj (hsolve.symm.trans hbs)
      exact hbound
    · cases hsolve.symm.trans hbs

/-- `Z = Y & ~closed(Z) & road(X, Y, L)`: the equation waits for the road, and the closed town for the
equation. -/
def waitingEnds : Conjunction Double :=
  [.compare ⟨.var ⟨"Z"⟩, .eq, .var ⟨"Y"⟩⟩, .negative ⟨⟨"closed", 1, .boolean, false⟩, [.var ⟨"Z"⟩]⟩,
    .positive ⟨⟨"road", 3, .boolean, false⟩, [.var ⟨"X"⟩, .var ⟨"Y"⟩, .var ⟨"L"⟩]⟩]

theorem solve_notSafe_perm_waitingEnds :
    waitingEnds.Perm waitingEnds.reverse
      ∧ (¬ ∃ text, (empty : FactBase Double).solve waitingEnds.reverse = .error (.notSafe text))
      ∧ ∃ b, roads.solve waitingEnds = .ok [b]
        ∧ ∀ x, b.contains x ↔ ∃ l ∈ waitingEnds, x ∈ l.vars := by
  have hperm : waitingEnds.Perm waitingEnds.reverse := (List.reverse_perm waitingEnds).symm
  have hsolve : roads.solve waitingEnds = .ok [⟨[(⟨"Z"⟩, .text "c"),
      (⟨"L"⟩, .real ⟨0x4008000000000000⟩), (⟨"Y"⟩, .text "c"), (⟨"X"⟩, .text "b")]⟩] := by cbv
  obtain ⟨hstatic, hbinds⟩ := solve_notSafe_perm hperm roads empty
  refine ⟨hperm, fun hrefused => ?_, _, hsolve, hbinds _ hsolve _ (List.mem_singleton_self _)⟩
  obtain ⟨text, hrefused⟩ := hstatic.mpr hrefused
  cases hsolve.symm.trans hrefused

end FactBase

end RelationalLP
