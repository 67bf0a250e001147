import Mathlib
import RelationalLP.Logic.Token

/-! # Scanning

A text is scanned word by word. What is scanned are words of the right characters, quoted texts without
quotes and integers of 64 bits; and such words are scanned again wherever they are followed by something
that cannot belong to them. -/

namespace RelationalLP

namespace Token

variable {K : Type}

/-- Whether a token is always written the same way. -/
def isSign : Token K → Bool
  | upper _ | lower _ | constant _ => false
  | _ => true

/-- A word that starts with a letter of some case. -/
def StartsWith (isLetter : Char → Bool) (name : String) : Prop :=
  ∃ c cs, name = String.ofList (c :: cs) ∧ isLetter c = true ∧ ∀ d ∈ cs, isWord d = true

/-- **A token that a text can have**: words start with letters of their case, quoted texts have no quotes,
and integers have 64 bits. -/
def Scanned : Token K → Prop
  | upper name => StartsWith Char.isUpper name
  | lower name => StartsWith Char.isLower name
  | constant (.integer n) => Numeral.leastInteger ≤ n ∧ n ≤ Numeral.greatestInteger
  | constant (.text s) => '\'' ∉ s.toList
  | _ => True

variable {c : Char} {cs rest : List Char} {t : Token K} {ts : List (Token K)}

/-! ### One word -/

theorem quoted?_spec (h : quoted? cs = some (t, rest)) : t.Scanned ∧ rest <:+ cs := by
  rw [quoted?] at h
  split at h
  · rename_i d tail htail
    cases h
    refine ⟨fun hmem => ?_, (List.suffix_cons _ _).trans (htail ▸ List.dropWhile_suffix _)⟩
    rw [String.toList_ofList] at hmem
    simpa using List.mem_takeWhile_imp hmem
  · cases h

variable [Scalar K]

/-- **What a word can be.** -/
theorem cases_of_word? (h : word? c cs = some (t, rest)) :
    t.isSign = true ∧ rest <:+ cs
      ∨ quoted? cs = some (t, rest)
      ∨ (∃ n, numeral true cs = (n, rest) ∧ t = constant n)
      ∨ (c.isDigit = true ∧ ∃ n, numeral false (c :: cs) = (n, rest) ∧ t = constant n)
      ∨ rest = cs.dropWhile isWord
        ∧ (c.isUpper = true ∧ t = upper (String.ofList (c :: cs.takeWhile isWord))
          ∨ c.isLower = true ∧ t = lower (String.ofList (c :: cs.takeWhile isWord))) := by
  have hsign : ∀ (u : Token K) (ds : List Char), u.isSign = true → ds <:+ cs →
      some (u, ds) = some (t, rest) → t.isSign = true ∧ rest <:+ cs := by
    rintro u ds hu hds ⟨⟩
    exact ⟨hu, hds⟩
  unfold word? at h
  split at h
  · -- signs, of one character or of two
    exact .inl (hsign _ _ rfl (List.suffix_refl _) h)
  · exact .inl (hsign _ _ rfl (List.suffix_refl _) h)
  · exact .inl (hsign _ _ rfl (List.suffix_refl _) h)
  · exact .inl (hsign _ _ rfl (List.suffix_refl _) h)
  · exact .inl (hsign _ _ rfl (List.suffix_refl _) h)
  · exact .inl (hsign _ _ rfl (List.suffix_refl _) h)
  · exact .inl (hsign _ _ rfl (List.suffix_cons _ _) h)
  · exact .inl (hsign _ _ rfl (List.suffix_cons _ _) h)
  · exact .inl (hsign _ _ rfl (List.suffix_refl _) h)
  · exact .inl (hsign _ _ rfl (List.suffix_cons _ _) h)
  · exact .inl (hsign _ _ rfl (List.suffix_refl _) h)
  · exact .inl (hsign _ _ rfl (List.suffix_refl _) h)
  · exact .inl (hsign _ _ rfl (List.suffix_cons _ _) h)
  · -- quotation marks
    exact .inr (.inl h)
  · -- a minus, which has to be followed by a digit
    split at h
    · rename_i d tail _
      refine .inr (.inr (.inl ?_))
      generalize (numeral true (d :: tail) : Constant K × List Char) = p at h ⊢
      cases h
      exact ⟨_, rfl, rfl⟩
    · cases h
  · split at h
    · -- a digit
      rename_i hdigit
      refine .inr (.inr (.inr (.inl ⟨hdigit, ?_⟩)))
      generalize (numeral false (c :: cs) : Constant K × List Char) = p at h ⊢
      cases h
      exact ⟨_, rfl, rfl⟩
    · split at h
      · -- letters: an upper case one starts a variable, a lower case one a name
        rename_i hupper
        cases h
        exact .inr (.inr (.inr (.inr ⟨rfl, .inl ⟨hupper, rfl⟩⟩)))
      · split at h
        · rename_i hlower
          cases h
          exact .inr (.inr (.inr (.inr ⟨rfl, .inr ⟨hlower, rfl⟩⟩)))
        · cases h

/-- A numeral is a real or an integer of 64 bits, and leaves a rest behind its digits. -/
theorem numeral_spec (negative : Bool) (cs : List Char) :
    (constant (numeral negative cs : Constant K × List Char).1).Scanned
      ∧ (numeral negative cs : Constant K × List Char).2 <:+ cs.dropWhile Char.isDigit := by
  have hinteger : ∀ n : ℤ, ∀ v : K, (constant (if Numeral.leastInteger ≤ n && n ≤ Numeral.greatestInteger
      then .integer n else .real v)).Scanned := by
    intro n v
    split
    · rename_i hrange
      rw [Bool.and_eq_true, decide_eq_true_eq, decide_eq_true_eq] at hrange
      exact hrange
    · trivial
  rw [numeral]
  split
  · rename_i d tail hrest
    split
    · rw [hrest]
      exact ⟨trivial, (List.dropWhile_suffix _).trans (List.suffix_cons _ _)⟩
    · exact ⟨hinteger _ _, List.suffix_refl _⟩
  · exact ⟨hinteger _ _, List.suffix_refl _⟩

/-- **A word is one that a text can have**, and leaves a rest of the text. -/
theorem word?_spec (h : word? c cs = some (t, rest)) : t.Scanned ∧ rest <:+ cs := by
  have hword : ∀ d ∈ cs.takeWhile isWord, isWord d = true := fun d hd => List.mem_takeWhile_imp hd
  rcases cases_of_word? h with ⟨hsign, hrest⟩ | hquoted | ⟨n, hn, rfl⟩ | ⟨hdigit, n, hn, rfl⟩
    | ⟨rfl, ⟨hupper, rfl⟩ | ⟨hlower, rfl⟩⟩
  · refine ⟨?_, hrest⟩
    cases t <;> trivial
  · exact quoted?_spec hquoted
  · obtain ⟨hscanned, hrest⟩ := numeral_spec (K := K) true cs
    rw [hn] at hscanned hrest
    exact ⟨hscanned, hrest.trans (List.dropWhile_suffix _)⟩
  · obtain ⟨hscanned, hrest⟩ := numeral_spec (K := K) false (c :: cs)
    rw [hn, List.dropWhile_cons_of_pos hdigit] at hrest
    rw [hn] at hscanned
    exact ⟨hscanned, hrest.trans (List.dropWhile_suffix _)⟩
  · exact ⟨⟨c, _, rfl, hupper, hword⟩, List.dropWhile_suffix _⟩
  · exact ⟨⟨c, _, rfl, hlower, hword⟩, List.dropWhile_suffix _⟩

/-! ### Word by word -/

/-- Any two amounts of fuel give the same when they are no less than the characters. -/
theorem scanWithin_eq_scanWithin {fuel fuel' : ℕ} (h : cs.length ≤ fuel) (h' : cs.length ≤ fuel') :
    (scanWithin fuel cs : Option (List (Token K))) = scanWithin fuel' cs := by
  induction fuel generalizing cs fuel' with
  | zero =>
    obtain rfl := List.length_eq_zero_iff.mp (Nat.le_zero.mp h)
    cases fuel' <;> rfl
  | succ fuel ih =>
    cases cs with
    | nil => cases fuel' <;> rfl
    | cons c cs =>
      cases fuel' with
      | zero => cases h'
      | succ fuel' =>
        -- either amount of fuel is enough for what a word or a blank leaves
        have hlen : cs.length ≤ fuel := Nat.le_of_succ_le_succ h
        have hlen' : cs.length ≤ fuel' := Nat.le_of_succ_le_succ h'
        rw [scanWithin, scanWithin, ih hlen hlen']
        cases hword : (word? c cs : Option (Token K × List Char)) with
        | none => rfl
        | some p =>
          have hrest := (word?_spec hword).2.length_le
          simp only [ih (hrest.trans hlen) (hrest.trans hlen')]

/-- More fuel than characters changes nothing. -/
theorem scanWithin_eq_scan? {fuel : ℕ} (h : cs.length ≤ fuel) :
    (scanWithin fuel cs : Option (List (Token K))) = scan? cs :=
  scanWithin_eq_scanWithin h le_rfl

theorem scan?_nil : (scan? [] : Option (List (Token K))) = some [] := rfl

/-- A blank is skipped. -/
theorem scan?_blank (hc : isBlank c = true) (cs : List Char) :
    (scan? (c :: cs) : Option (List (Token K))) = scan? cs := by
  rw [scan?, List.length_cons, scanWithin, if_pos hc]
  rfl

/-- A word is taken off, and the rest is scanned. -/
theorem scan?_word (hc : isBlank c = false) (h : word? c cs = some (t, rest)) :
    scan? (c :: cs) = (scan? rest).map (t :: ·) := by
  rw [scan?, List.length_cons, scanWithin, if_neg (by rw [hc]; exact Bool.false_ne_true), h]
  simp only [scanWithin_eq_scan? (word?_spec h).2.length_le]

theorem exists_word?_of_scanWithin {fuel : ℕ} (h : scanWithin fuel cs = some ts) :
    ∀ t ∈ ts, ∃ c ds rest, c :: ds <:+ cs ∧ word? c ds = some (t, rest) := by
  induction fuel generalizing cs ts with
  | zero =>
    cases cs with
    | nil => cases h; exact nofun
    | cons c cs => cases h
  | succ fuel ih =>
    cases cs with
    | nil => cases h; exact nofun
    | cons c cs =>
      have hlater : ∀ {ds : List Char} {us : List (Token K)}, ds <:+ cs → scanWithin fuel ds = some us →
          ∀ t ∈ us, ∃ d es rest, d :: es <:+ c :: cs ∧ word? d es = some (t, rest) := by
        intro ds us hds hus t ht
        obtain ⟨d, es, rest, hsuffix, hword⟩ := ih hus t ht
        exact ⟨d, es, rest, hsuffix.trans (hds.trans (List.suffix_cons c cs)), hword⟩
      rw [scanWithin] at h
      split at h
      · -- a blank is skipped
        exact hlater (List.suffix_refl cs) h
      · split at h
        · cases h
        · -- a word is read, and the others stand behind it
          rename_i t rest hword
          obtain ⟨us, hus, rfl⟩ := Option.map_eq_some_iff.mp h
          exact List.forall_mem_cons.mpr
            ⟨⟨c, cs, rest, List.suffix_refl _, hword⟩, hlater (word?_spec hword).2 hus⟩

/-- **What is scanned** are words that stand in the text. -/
theorem exists_word?_of_scan? (h : scan? cs = some ts) :
    ∀ t ∈ ts, ∃ c ds rest, c :: ds <:+ cs ∧ word? c ds = some (t, rest) :=
  exists_word?_of_scanWithin h

/-- What is scanned are tokens that a text can have. -/
theorem scanned_of_scan? (h : scan? cs = some ts) : ∀ t ∈ ts, t.Scanned := by
  intro t ht
  obtain ⟨c, ds, rest, -, hword⟩ := exists_word?_of_scan? h t ht
  exact (word?_spec hword).1

omit [Scalar K] in
/-- A quoted text ends with a quote. -/
theorem quote_mem_of_quoted? (h : quoted? cs = some (t, rest)) : '\'' ∈ cs := by
  by_contra hmem
  have hnone : cs.dropWhile (· ≠ '\'') = [] := by
    rw [List.dropWhile_eq_nil_iff]
    intro d hd
    rw [decide_eq_true_eq]
    rintro rfl
    exact hmem hd
  rw [quoted?, hnone] at h
  cases h

theorem isNumeric_numeral (negative : Bool) (cs : List Char) :
    (numeral negative cs : Constant K × List Char).1.isNumeric = true := by
  have hinteger : ∀ (b : Bool) (n : ℤ) (v : K),
      (if b then .integer n else .real v : Constant K).isNumeric = true := by
    intro b n v
    cases b <;> rfl
  rw [numeral]
  split
  · split
    · rfl
    · exact hinteger _ _ _
  · exact hinteger _ _ _

/-- **A text constant is quoted.** -/
theorem quote_mem_of_scan? (h : scan? cs = some ts) {s : String} (hs : constant (.text s) ∈ ts) :
    '\'' ∈ cs := by
  obtain ⟨c, ds, rest, hsuffix, hword⟩ := exists_word?_of_scan? h _ hs
  have hnumeric : ∀ {negative : Bool} {es : List Char} {n : Constant K},
      numeral negative es = (n, rest) → constant (.text s) = constant n → False := by
    intro negative es n hn heq
    have hnum := isNumeric_numeral (K := K) negative es
    rw [hn, ← constant.inj heq] at hnum
    cases hnum
  rcases cases_of_word? hword with ⟨hsign, -⟩ | hquoted | ⟨n, hn, heq⟩ | ⟨-, n, hn, heq⟩
    | ⟨-, ⟨-, heq⟩ | ⟨-, heq⟩⟩
  · cases hsign
  · exact hsuffix.subset (List.mem_cons_of_mem c (quote_mem_of_quoted? hquoted))
  · exact (hnumeric hn heq).elim
  · exact (hnumeric hn heq).elim
  · cases heq
  · cases heq

/-! ### Texts that are read wherever they stand -/

/-- A rest of a text that ends the word before it. -/
def Ends (rest : List Char) : Prop := ∀ d ∈ rest.head?, isWord d = false ∧ d ≠ '.'

/-- **A text that is read as some tokens**, before every rest that ends its last word. -/
def LexesTo (cs : List Char) (ts : List (Token K)) : Prop :=
  ∀ rest, Ends rest → scan? (cs ++ rest) = (scan? rest).map (ts ++ ·)

variable {ds : List Char} {us : List (Token K)} {name : String}

theorem ends_nil : Ends [] := nofun

theorem ends_cons (hword : isWord c = false) (hpoint : c ≠ '.') (cs : List Char) : Ends (c :: cs) := by
  rintro d ⟨⟩
  exact ⟨hword, hpoint⟩

theorem Ends.append (h : Ends cs) (h' : Ends ds) : Ends (cs ++ ds) := by
  cases cs with
  | nil => exact h'
  | cons c cs => exact h

theorem lexes_nil : LexesTo [] ([] : List (Token K)) := fun _ _ => Option.map_id'.symm

/-- A word that is taken off before every rest that ends it. -/
theorem lexes_of_word? (hc : isBlank c = false)
    (hword : ∀ rest, Ends rest → word? c (cs ++ rest) = some (t, rest)) : LexesTo (c :: cs) [t] := by
  intro rest hrest
  rw [List.cons_append, scan?_word hc (hword rest hrest)]
  rfl

/-- Texts are read one after the other when the second one ends the first one. -/
theorem LexesTo.append (h : LexesTo cs ts) (hends : Ends ds) (h' : LexesTo ds us) :
    LexesTo (cs ++ ds) (ts ++ us) := by
  intro rest hrest
  rw [List.append_assoc, h _ (hends.append hrest), h' rest hrest, Option.map_map]
  simp only [Function.comp_def, List.append_assoc]

/-- A blank in front changes nothing. -/
theorem LexesTo.blank (h : LexesTo cs ts) : LexesTo (' ' :: cs) ts := fun rest hrest => by
  rw [List.cons_append, scan?_blank (by decide), h rest hrest]

/-- A character that is a token stands in front of any text. -/
theorem LexesTo.cons (h : LexesTo cs ts) (hc : isBlank c = false)
    (hword : ∀ rest, word? c rest = some (t, rest)) : LexesTo (c :: cs) (t :: ts) := by
  intro rest hrest
  rw [List.cons_append, scan?_word hc (hword _), h rest hrest, Option.map_map]
  rfl

/-- The sign of a comparison, between blanks. -/
theorem LexesTo.comparison (h : LexesTo cs ts) (o : CompareOp) :
    LexesTo (' ' :: (o.render.toList ++ ' ' :: cs)) (op o :: ts) := by
  have hsign : ∃ c sign, o.render.toList = c :: sign ∧ isBlank c = false
      ∧ ∀ rest, word? c (sign ++ ' ' :: rest) = some ((op o : Token K), ' ' :: rest) := by
    cases o with
    | lt => exact ⟨'<', [], rfl, rfl, fun _ => rfl⟩
    | le => exact ⟨'<', ['='], rfl, rfl, fun _ => rfl⟩
    | eq => exact ⟨'=', [], rfl, rfl, fun _ => rfl⟩
    | ne => exact ⟨'!', ['='], rfl, rfl, fun _ => rfl⟩
    | ge => exact ⟨'>', ['='], rfl, rfl, fun _ => rfl⟩
    | gt => exact ⟨'>', [], rfl, rfl, fun _ => rfl⟩
  obtain ⟨c, sign, hrender, hc, hword⟩ := hsign
  rw [hrender]
  refine LexesTo.blank fun rest hrest => ?_
  have hrest' := h.blank rest hrest
  rw [List.cons_append] at hrest'
  rw [List.append_assoc, List.cons_append, List.cons_append, scan?_word hc (hword _), hrest',
    Option.map_map]
  rfl

/-- A letter or a digit starts a numeral or a word. -/
theorem word?_of_isAlphanum (hc : c.isAlphanum = true) (cs : List Char) :
    (word? c cs : Option (Token K × List Char))
      = if c.isDigit then
          some (constant (numeral (K := K) false (c :: cs)).1, (numeral (K := K) false (c :: cs)).2)
        else if c.isUpper then some (upper (String.ofList (c :: cs.takeWhile isWord)), cs.dropWhile isWord)
        else if c.isLower then some (lower (String.ofList (c :: cs.takeWhile isWord)), cs.dropWhile isWord)
        else none := by
  unfold word?
  split
  all_goals first | rfl | cases hc

theorem isBlank_of_isAlphanum (hc : c.isAlphanum = true) : isBlank c = false := by
  by_contra hblank
  simp only [isBlank, Bool.not_eq_false, Bool.or_eq_true, decide_eq_true_eq] at hblank
  rcases hblank with ((rfl | rfl) | rfl) | rfl <;> cases hc

/-- The first characters of a text that satisfy a predicate are those before one that does not. -/
theorem takeWhile_dropWhile_append {p : Char → Bool} (hcs : ∀ d ∈ cs, p d = true)
    (hrest : ∀ d ∈ rest.head?, p d = false) :
    (cs ++ rest).takeWhile p = cs ∧ (cs ++ rest).dropWhile p = rest := by
  rw [List.takeWhile_append_of_pos hcs, List.dropWhile_append_of_pos hcs]
  cases rest with
  | nil => exact ⟨List.append_nil cs, rfl⟩
  | cons d rest =>
    have hd : ¬ p d = true := Bool.eq_false_iff.mp (hrest d rfl)
    rw [List.takeWhile_cons_of_neg hd, List.dropWhile_cons_of_neg hd]
    exact ⟨List.append_nil cs, rfl⟩

/-- Characters of a word up to a rest that ends it. -/
theorem Ends.span (h : Ends rest) {p : Char → Bool} (hp : ∀ d, p d = true → isWord d = true)
    (hcs : ∀ d ∈ cs, p d = true) : (cs ++ rest).takeWhile p = cs ∧ (cs ++ rest).dropWhile p = rest :=
  takeWhile_dropWhile_append hcs fun d hd =>
    Bool.eq_false_iff.mpr fun hpd => Bool.eq_false_iff.mp (h d hd).1 (hp d hpd)

theorem isDigit_eq_false_of_isUpper (h : c.isUpper = true) : c.isDigit = false := by
  simp only [Char.isUpper, Char.isDigit, decide_eq_true_eq, Bool.and_eq_false_iff,
    decide_eq_false_iff_not, ge_iff_le, UInt32.le_iff_toNat_le, Char.reduceVal, UInt32.reduceToNat]
    at h ⊢
  omega

theorem isDigit_eq_false_of_isLower (h : c.isLower = true) :
    c.isDigit = false ∧ c.isUpper = false := by
  simp only [Char.isLower, Char.isUpper, Char.isDigit, decide_eq_true_eq, decide_eq_false_iff_not,
    Bool.and_eq_true, Bool.and_eq_false_iff, ge_iff_le, UInt32.le_iff_toNat_le, Char.reduceVal,
    UInt32.reduceToNat] at h ⊢
  omega

/-- A letter starts a word of its case, up to a rest that ends it. -/
theorem word?_letter (hc : c.isAlphanum = true) (hdigit : c.isDigit = false)
    (hcs : ∀ d ∈ cs, isWord d = true) (hrest : Ends rest) :
    (word? c (cs ++ rest) : Option (Token K × List Char))
      = if c.isUpper then some (upper (String.ofList (c :: cs)), rest)
        else if c.isLower then some (lower (String.ofList (c :: cs)), rest) else none := by
  obtain ⟨htake, hdrop⟩ := hrest.span (fun _ => id) hcs
  rw [word?_of_isAlphanum hc, if_neg (Bool.eq_false_iff.mp hdigit), htake, hdrop]

/-- A word of a case is read as such. -/
theorem lexes_upper (h : StartsWith Char.isUpper name) : LexesTo name.toList [(upper name : Token K)] := by
  obtain ⟨c, cs, rfl, hc, hcs⟩ := h
  have halphanum : c.isAlphanum = true := by rw [Char.isAlphanum, Char.isAlpha, hc]; rfl
  rw [String.toList_ofList]
  refine lexes_of_word? (isBlank_of_isAlphanum halphanum) fun rest hrest => ?_
  rw [word?_letter halphanum (isDigit_eq_false_of_isUpper hc) hcs hrest, if_pos hc]

theorem lexes_lower (h : StartsWith Char.isLower name) : LexesTo name.toList [(lower name : Token K)] := by
  obtain ⟨c, cs, rfl, hc, hcs⟩ := h
  have halphanum : c.isAlphanum = true := by rw [Char.isAlphanum, Char.isAlpha, hc, Bool.or_true]; rfl
  obtain ⟨hdigit, hupper⟩ := isDigit_eq_false_of_isLower hc
  rw [String.toList_ofList]
  refine lexes_of_word? (isBlank_of_isAlphanum halphanum) fun rest hrest => ?_
  rw [word?_letter halphanum hdigit hcs hrest, if_neg (Bool.eq_false_iff.mp hupper), if_pos hc]

/-- A text in quotes is read again, unless it has a quote. -/
theorem lexes_quoted {s : String} (h : '\'' ∉ s.toList) :
    LexesTo ('\'' :: (s.toList ++ ['\''])) [(constant (.text s) : Token K)] := by
  have hnone : ∀ d ∈ s.toList, decide (d ≠ '\'') = true := fun d hd => by
    rw [decide_eq_true_eq]
    rintro rfl
    exact h hd
  refine lexes_of_word? (by decide) fun rest _ => ?_
  show quoted? _ = _
  rw [quoted?, List.append_assoc, List.takeWhile_append_of_pos hnone, List.dropWhile_append_of_pos hnone]
  simp [String.ofList_toList]

/-! ### Numerals -/

theorem isWord_of_isDigit (hc : c.isDigit = true) : isWord c = true := by
  rw [isWord, Char.isAlphanum, hc, Bool.or_true, Bool.true_or]

/-- Digits without a fraction are an integer when it has 64 bits. -/
theorem numeral_integer {negative : Bool} {n : ℤ} (hcs : ∀ d ∈ cs, d.isDigit = true) (hrest : Ends rest)
    (hn : n = if negative then -(Numeral.value cs : ℤ) else Numeral.value cs)
    (hrange : Numeral.leastInteger ≤ n ∧ n ≤ Numeral.greatestInteger) :
    (numeral negative (cs ++ rest) : Constant K × List Char) = (.integer n, rest) := by
  obtain ⟨htake, hdrop⟩ := hrest.span (fun _ => isWord_of_isDigit) hcs
  have hin : (Numeral.leastInteger ≤ n && n ≤ Numeral.greatestInteger) = true := by
    rw [Bool.and_eq_true, decide_eq_true_eq, decide_eq_true_eq]
    exact hrange
  rw [numeral, htake, hdrop]
  simp only [← hn, hin, if_true]
  split
  · exact absurd rfl (hrest '.' rfl).2
  · rfl

/-- Digits around a point are a real. -/
theorem numeral_real (negative : Bool) {whole fraction : List Char}
    (hwhole : ∀ d ∈ whole, d.isDigit = true) (hfraction : ∀ d ∈ fraction, d.isDigit = true)
    (hne : fraction ≠ []) (hrest : Ends rest) :
    (numeral negative (whole ++ '.' :: fraction ++ rest) : Constant K × List Char)
      = (.real (Numeral.decimal negative whole fraction), rest) := by
  obtain ⟨d, tail, rfl⟩ := List.exists_cons_of_ne_nil hne
  obtain ⟨htake, hdrop⟩ := hrest.span (fun _ => isWord_of_isDigit) hfraction
  have hpoint : ¬ Char.isDigit '.' = true := by decide
  have htake' : (whole ++ '.' :: (d :: tail ++ rest)).takeWhile Char.isDigit = whole := by
    rw [List.takeWhile_append_of_pos hwhole, List.takeWhile_cons_of_neg hpoint, List.append_nil]
  have hdrop' : (whole ++ '.' :: (d :: tail ++ rest)).dropWhile Char.isDigit = '.' :: (d :: tail ++ rest) := by
    rw [List.dropWhile_append_of_pos hwhole, List.dropWhile_cons_of_neg hpoint]
  rw [numeral, List.append_assoc, List.cons_append, htake', hdrop']
  simp only [List.cons_append] at htake hdrop ⊢
  rw [if_pos (hfraction d List.mem_cons_self), htake, hdrop]

/-- A numeral is read again, with its sign. -/
theorem lexes_numeral {negative : Bool} {x : Constant K} (hc : c.isDigit = true)
    (h : ∀ rest, Ends rest → numeral negative (c :: cs ++ rest) = (x, rest)) :
    LexesTo ((if negative then ['-'] else []) ++ c :: cs) [constant x] := by
  cases negative with
  | true =>
    refine lexes_of_word? (by decide) fun rest hrest => ?_
    show (if c.isDigit = true then _ else _) = _
    rw [if_pos hc]
    show some (constant (numeral true (c :: cs ++ rest)).1, (numeral true (c :: cs ++ rest)).2) = _
    rw [h rest hrest]
  | false =>
    have halphanum : c.isAlphanum = true := by rw [Char.isAlphanum, hc, Bool.or_true]
    refine lexes_of_word? (isBlank_of_isAlphanum halphanum) fun rest hrest => ?_
    rw [word?_of_isAlphanum halphanum, if_pos hc, ← List.cons_append, h rest hrest]

/-- Written digits have the value that they are written for. -/
theorem value_toDigits (n : ℕ) : Numeral.value (Nat.toDigits 10 n) = n :=
  Nat.ofDigitChars_eq_foldl.symm.trans Nat.ofDigitChars_ten_toDigits

/-- An integer is written as the digits of a natural number behind its sign. -/
theorem exists_toList_toString (n : ℤ) : ∃ (negative : Bool) (m : ℕ),
    n = (if negative then -(m : ℤ) else m)
      ∧ (toString n).toList = (if negative then ['-'] else []) ++ Nat.toDigits 10 m := by
  rw [Int.toString_eq_repr, Int.repr_eq_if]
  split
  · exact ⟨false, n.toNat, (Int.toNat_of_nonneg ‹_›).symm, Nat.toList_repr⟩
  · refine ⟨true, (-n).toNat, ?_, ?_⟩
    · rw [if_pos rfl]
      omega
    · rw [String.toList_append, Nat.toList_repr]
      rfl

/-- An integer of 64 bits is read again. -/
theorem lexes_integer {n : ℤ} (h : Numeral.leastInteger ≤ n ∧ n ≤ Numeral.greatestInteger) :
    LexesTo (toString n).toList [(constant (.integer n) : Token K)] := by
  obtain ⟨negative, m, hn, htext⟩ := exists_toList_toString n
  have hdigits : ∀ d ∈ Nat.toDigits 10 m, d.isDigit = true := fun d hd =>
    Nat.isDigit_of_mem_toDigits (by decide) (by decide) hd
  obtain ⟨c, cs, hcons⟩ := List.exists_cons_of_ne_nil (Nat.toDigits_ne_nil (n := m) (b := 10))
  have hvalue : Numeral.value (c :: cs) = m := hcons ▸ value_toDigits m
  rw [hcons] at htext hdigits
  rw [htext]
  refine lexes_numeral (hdigits c List.mem_cons_self) fun rest hrest => ?_
  exact numeral_integer hdigits hrest (by rw [hvalue, hn]) h

end Token

end RelationalLP
