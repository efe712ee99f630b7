import Mathlib.Data.List.TakeWhile
import Mathlib.Tactic.Common
import SmallLisp.Token.Lexer

set_option autoImplicit false

/-! # Which rule applies

`Rule.choose` asks every rule for its longest match and takes the best. This file says what
comes out of that, character class by character class. The first character of a text decides
the *family* of rules that can apply to it (`opens`): blanks, comments, parentheses, quotes and
strings have a family of one rule each, and every other character that may begin something
begins an atom. An atom always runs up to the next delimiter (`choose_atom`), because the rule
`malformed` matches the whole run; the other rules for atoms only get a say in what the run is.

The main lemma is `choose_of_matches`: a match that beats every other match is chosen.
-/

namespace SmallLisp

/-! ## Patterns built from character classes -/

namespace Pattern

theorem matches_char_iff {c : Char} {s : List Char} : Matches (.char c) s ↔ s = [c] := by
  rw [char, matches_oneOf_iff]
  constructor
  · rintro ⟨d, rfl, hd⟩
    rw [beq_iff_eq.1 hd]
  · rintro rfl
    exact ⟨c, rfl, beq_self_eq_true c⟩

theorem matches_opt_iff {p : Pattern} {s : List Char} :
    Matches (.opt p) s ↔ Matches p s ∨ s = [] := by
  rw [opt, matches_alt_iff, matches_empty_iff]

/-- A sequence that begins with one character of a class. -/
theorem matches_oneOf_seq_iff {chars : Char → Bool} {q : Pattern} {s : List Char} :
    Matches (.seq (.oneOf chars) q) s ↔ ∃ c t, s = c :: t ∧ chars c = true ∧ Matches q t := by
  rw [matches_seq_iff]
  constructor
  · rintro ⟨u, v, rfl, hu, hv⟩
    obtain ⟨c, rfl, hc⟩ := matches_oneOf_iff.1 hu
    exact ⟨c, v, rfl, hc, hv⟩
  · rintro ⟨c, t, rfl, hc, ht⟩
    exact ⟨[c], t, rfl, .oneOf hc, ht⟩

theorem matches_oneOf_seq_cons_iff {chars : Char → Bool} {q : Pattern} {c : Char}
    {s : List Char} :
    Matches (.seq (.oneOf chars) q) (c :: s) ↔ chars c = true ∧ Matches q s := by
  rw [matches_oneOf_seq_iff]
  constructor
  · rintro ⟨d, t, hd, hc, ht⟩
    obtain ⟨rfl, rfl⟩ := List.cons.inj hd
    exact ⟨hc, ht⟩
  · rintro ⟨hc, ht⟩
    exact ⟨c, s, rfl, hc, ht⟩

theorem matches_char_seq_cons_iff {d : Char} {q : Pattern} {c : Char} {s : List Char} :
    Matches (.seq (.char d) q) (c :: s) ↔ c = d ∧ Matches q s := by
  rw [char, matches_oneOf_seq_cons_iff, beq_iff_eq]

/-- A repeated class describes the texts over that class. -/
theorem matches_star_oneOf_iff {chars : Char → Bool} {s : List Char} :
    Matches (.star (.oneOf chars)) s ↔ ∀ c ∈ s, chars c = true := by
  induction s with
  | nil => exact ⟨fun _ c hc => absurd hc List.not_mem_nil, fun _ => .stop⟩
  | cons c s ih =>
      rw [List.forall_mem_cons]
      constructor
      · intro h
        obtain ⟨u, v, rfl, hu, hv⟩ := matches_star_cons h
        obtain ⟨d, hd, hc⟩ := matches_oneOf_iff.1 hu
        obtain ⟨rfl, rfl⟩ := List.cons.inj hd
        exact ⟨hc, ih.1 hv⟩
      · rintro ⟨hc, hs⟩
        exact Matches.again (.oneOf hc) (ih.2 hs)

theorem matches_plus_oneOf_iff {chars : Char → Bool} {s : List Char} :
    Matches (.plus (.oneOf chars)) s ↔ s ≠ [] ∧ ∀ c ∈ s, chars c = true := by
  cases s with
  | nil =>
      refine ⟨fun h => ?_, fun h => absurd rfl h.1⟩
      obtain ⟨_, _, hnil, _⟩ := matches_oneOf_seq_iff.1 h
      cases hnil
  | cons c s =>
      rw [plus, matches_oneOf_seq_cons_iff, matches_star_oneOf_iff, List.forall_mem_cons]
      exact ⟨fun h => ⟨List.cons_ne_nil c s, h⟩, fun h => h.2⟩

/-- Whether a pattern describes a whole text, by reading the text to its end. -/
def accepts (p : Pattern) : List Char → Bool
  | [] => p.nullable
  | c :: cs => (p.derive c).accepts cs

theorem accepts_iff {p : Pattern} {s : List Char} : p.accepts s = true ↔ Matches p s := by
  induction s generalizing p with
  | nil => exact (matches_nil_iff p).symm
  | cons c s ih => exact ih.trans (matches_derive_iff p c s)

instance (p : Pattern) (s : List Char) : Decidable (Matches p s) :=
  decidable_of_iff (p.accepts s = true) accepts_iff

/-- Every character class in the pattern lies inside the given one. -/
def Over (chars : Char → Bool) : Pattern → Prop
  | .never => True
  | .empty => True
  | .oneOf few => ∀ c, few c = true → chars c = true
  | .seq p q => p.Over chars ∧ q.Over chars
  | .alt p q => p.Over chars ∧ q.Over chars
  | .star p => p.Over chars

theorem forall_mem_of_matches {p : Pattern} {s : List Char} (h : Matches p s)
    {chars : Char → Bool} (hp : p.Over chars) : ∀ c ∈ s, chars c = true := by
  induction h with
  | empty => exact fun c hc => absurd hc List.not_mem_nil
  | oneOf hc =>
      intro d hd
      rw [List.mem_singleton.1 hd]
      exact hp _ hc
  | seq _ _ ihp ihq => exact List.forall_mem_append.2 ⟨ihp hp.1, ihq hp.2⟩
  | left _ ih => exact ih hp.1
  | right _ ih => exact ih hp.2
  | stop => exact fun c hc => absurd hc List.not_mem_nil
  | again _ _ ihp ihs => exact List.forall_mem_append.2 ⟨ihp hp, ihs hp⟩

end Pattern

namespace Rule

open Pattern

/-! ## The winner -/

theorem beats_asymm {a b : Candidate} (h : a.beats b = true) : b.beats a = false := by
  simp only [Candidate.beats, Bool.or_eq_true, Bool.and_eq_true, decide_eq_true_eq] at h
  simp only [Candidate.beats, Bool.or_eq_false_iff, Bool.and_eq_false_iff, decide_eq_false_iff_not]
  omega

theorem mem_of_winner {l : List Candidate} {a : Candidate} (h : winner l = some a) : a ∈ l := by
  induction l generalizing a with
  | nil => cases h
  | cons b l ih =>
      simp only [winner] at h
      split at h
      · cases h
        exact List.mem_cons_self
      · rename_i w hw
        split at h
        · cases h
          exact List.mem_cons_of_mem b (ih hw)
        · cases h
          exact List.mem_cons_self

/-- A candidate that beats all others wins, wherever it stands in the list. -/
theorem winner_of_beats {l : List Candidate} {a : Candidate} (ha : a ∈ l)
    (hbest : ∀ b ∈ l, b = a ∨ a.beats b = true) : winner l = some a := by
  induction l with
  | nil => cases ha
  | cons b l ih =>
      have hrest : ∀ d ∈ l, d = a ∨ a.beats d = true := fun d hd =>
        hbest d (List.mem_cons_of_mem b hd)
      simp only [winner]
      by_cases hal : a ∈ l
      · rw [ih hal hrest]
        rcases hbest b List.mem_cons_self with rfl | hb
        · simp
        · simp [hb]
      · -- `a` stands first, and whatever wins among the others is beaten by it
        obtain rfl : a = b := (List.mem_cons.1 ha).resolve_right hal
        split
        · rfl
        · rename_i w hw
          rcases hrest w (mem_of_winner hw) with rfl | hb
          · exact absurd (mem_of_winner hw) hal
          · rw [beats_asymm hb]
            rfl

theorem mem_all (r : Rule) : r ∈ all := by
  cases r <;> decide

theorem candidate?_eq_some_iff {c : Char} {cs : List Char} {r : Rule} {a : Candidate} :
    candidate? c cs r = some a ↔
      a.rule = r ∧ a.extra ≤ cs.length ∧ Matches r.pattern (c :: cs.take a.extra) ∧
        ∀ m, a.extra < m → m ≤ cs.length → ¬ Matches r.pattern (c :: cs.take m) := by
  simp only [candidate?, Option.map_eq_some_iff, longest?_eq_some_iff, matches_derive_iff]
  constructor
  · rintro ⟨n, h, rfl⟩
    exact ⟨rfl, h⟩
  · rintro ⟨rfl, h⟩
    exact ⟨a.extra, h, rfl⟩

/-- **A match that beats every other match is chosen.** Of the other matches it must be longer,
or as long and of higher priority. -/
theorem choose_of_matches {c : Char} {cs : List Char} {r : Rule} {n : Nat} (hn : n ≤ cs.length)
    (hr : Matches r.pattern (c :: cs.take n))
    (hbest : ∀ (q : Rule) (k : Nat), k ≤ cs.length → Matches q.pattern (c :: cs.take k) →
      k < n ∨ k = n ∧ (q = r ∨ q.priority < r.priority)) :
    choose c cs = some ⟨r, n⟩ := by
  refine winner_of_beats ?_ ?_
  -- a longer match of the same rule would be a match that is not beaten
  · refine List.mem_filterMap.2 ⟨r, mem_all r, candidate?_eq_some_iff.2 ⟨rfl, hn, hr, ?_⟩⟩
    intro m hm hlen hmatch
    have := hbest r m hlen hmatch
    simp only at hm
    omega
  · intro b hb
    obtain ⟨q, _, hq⟩ := List.mem_filterMap.1 hb
    obtain ⟨rfl, hlen, hmatch, _⟩ := candidate?_eq_some_iff.1 hq
    have := hbest b.rule b.extra hlen hmatch
    rcases this with hlt | ⟨heq, hrule | hprio⟩
    · exact .inr (by simp [Candidate.beats, hlt])
    · obtain ⟨rule, extra⟩ := b
      simp only at heq hrule
      exact .inl (by rw [heq, hrule])
    · exact .inr (by simp [Candidate.beats, heq, hprio])

/-- Where no rule matches, none is chosen. -/
theorem choose_eq_none {c : Char} {cs : List Char}
    (h : ∀ (q : Rule) (s : List Char), ¬ Matches q.pattern (c :: s)) : choose c cs = none := by
  have hnil : all.filterMap (candidate? c cs) = [] := by
    rw [List.filterMap_eq_nil_iff]
    intro r _
    rw [Option.eq_none_iff_forall_ne_some]
    intro a ha
    exact h r _ (candidate?_eq_some_iff.1 ha).2.2.1
  rw [choose, hnil]
  rfl

/-! ## Characters of atoms -/

/-- The characters that begin an atom. -/
def isAtomStart (c : Char) : Bool := !isDelimiter c && c != '\x27'

/-- The characters that occur in numbers, symbols and dots. -/
def isAtomPart (c : Char) : Bool := isSymbolPart c || c == '.'

theorem toNat_lt_of_isAtomPart {c : Char} (h : isAtomPart c = true) : c.toNat < 128 := by
  by_contra hc
  have hne : ∀ d : Char, d.toNat < 128 → (c == d) = false := by
    intro d hd
    rw [beq_eq_false_iff_ne]
    rintro rfl
    exact hc hd
  have halpha : c.isAlpha = false := by
    have hval : ¬ c.val.toNat < 128 := hc
    show (decide ('A'.val ≤ c.val ∧ c.val ≤ 'Z'.val) ||
      (decide ('a'.val ≤ c.val) && decide (c.val ≤ 'z'.val))) = false
    simp only [Char.reduceVal, UInt32.le_iff_toNat_le, UInt32.reduceToNat, Bool.or_eq_false_iff,
      Bool.and_eq_false_iff, decide_eq_false_iff_not]
    omega
  have hdigit : c.isDigit = false := by
    rw [← Bool.not_eq_true, Char.isDigit_iff_toNat]
    intro hrange
    exact hc (Nat.lt_of_le_of_lt hrange.2 (by decide))
  simp [isAtomPart, isSymbolPart, isSymbolStart, halpha, hdigit, hne] at h

/-- The characters of atoms are ASCII, so what is said of them can be looked up. -/
theorem of_isAtomPart {law : Char → Bool}
    (hlaw : ∀ n : Fin 128, isAtomPart (Char.ofNat n) = true → law (Char.ofNat n) = true) {c : Char}
    (h : isAtomPart c = true) : law c = true := by
  have hc := hlaw ⟨c.toNat, toNat_lt_of_isAtomPart h⟩
  rw [Char.ofNat_toNat] at hc
  exact hc h

/-- A character of an atom may also begin one. The converse fails: any character that is no
delimiter begins an atom, if only a malformed one. -/
theorem isAtomStart_of_isAtomPart {c : Char} (h : isAtomPart c = true) :
    isAtomStart c = true :=
  of_isAtomPart (by decide) h

theorem isDelimiter_of_isAtomStart {c : Char} (h : isAtomStart c = true) :
    isDelimiter c = false := by
  simp only [isAtomStart, Bool.and_eq_true, Bool.not_eq_true'] at h
  exact h.1

/-- What the rule `malformed` describes: an atom of any kind. -/
theorem matches_malformed_cons_iff {c : Char} {s : List Char} :
    Matches Rule.malformed.pattern (c :: s) ↔
      isAtomStart c = true ∧ ∀ d ∈ s, (!isDelimiter d) = true := by
  rw [pattern, malformedPattern, matches_oneOf_seq_cons_iff, matches_star_oneOf_iff]
  rfl

theorem over_integerPattern : integerPattern.Over isAtomPart := by
  simp +contextual [integerPattern, opt, plus, char, Over, isAtomPart, isSymbolPart]

theorem over_floatPattern : floatPattern.Over isAtomPart := by
  refine ⟨over_integerPattern, ?_⟩
  simp +contextual [char, Over, isAtomPart, isSymbolPart]

theorem over_symbolPattern : symbolPattern.Over isAtomPart := by
  simp +contextual [symbolPattern, opt, char, Over, isAtomPart, isSymbolPart, or_imp]

theorem over_dot : Rule.dot.pattern.Over isAtomPart := by
  simp [pattern, char, Over, isAtomPart]

/-- Numbers, symbols and dots are atoms, so the rule `malformed` matches them as well. -/
theorem matches_malformed_of_over {p : Pattern} (hp : p.Over isAtomPart) {c : Char}
    {s : List Char} (h : Matches p (c :: s)) : Matches Rule.malformed.pattern (c :: s) := by
  have hall := List.forall_mem_cons.1 (forall_mem_of_matches h hp)
  refine matches_malformed_cons_iff.2 ⟨isAtomStart_of_isAtomPart hall.1, fun d hd => ?_⟩
  rw [isDelimiter_of_isAtomStart (isAtomStart_of_isAtomPart (hall.2 d hd))]
  rfl

/-! ## What a character may begin -/

/-- All rules for atoms count as one family, under the rule that matches any atom. -/
def family : Rule → Rule
  | .dot => .malformed
  | .integer => .malformed
  | .float => .malformed
  | .symbol => .malformed
  | r => r

/-- **The family of rules that a first character admits.** -/
def opens (c : Char) : Option Rule :=
  if Text.isSkipped c then some .blank
  else if c = ';' then some .comment
  else if c = '(' then some .leftParen
  else if c = ')' then some .rightParen
  else if c = '\x27' then some .quote
  else if c = '"' then some .string
  else if Text.isWhitespace c then none
  else some .malformed

theorem opens_of_isSkipped {c : Char} (h : Text.isSkipped c = true) : opens c = some .blank := by
  simp [opens, h]

theorem opens_of_isAtomStart {c : Char} (h : isAtomStart c = true) :
    opens c = some .malformed := by
  simp only [isAtomStart, isDelimiter, Bool.and_eq_true, Bool.not_eq_true', Bool.or_eq_false_iff,
    beq_eq_false_iff_ne, bne_iff_ne] at h
  obtain ⟨⟨⟨⟨⟨hw, h1⟩, h2⟩, h3⟩, h4⟩, h5⟩ := h
  have hs : Text.isSkipped c = false := by
    by_contra hs
    rw [Bool.not_eq_false] at hs
    rw [Text.isWhitespace_of_isSkipped hs] at hw
    cases hw
  simp [opens, hw, hs, h1, h2, h3, h4, h5]

theorem matches_malformed_of_family {r : Rule} (hr : r.family = .malformed) {c : Char}
    {s : List Char} (h : Matches r.pattern (c :: s)) :
    Matches Rule.malformed.pattern (c :: s) := by
  cases r with
  | dot => exact matches_malformed_of_over over_dot h
  | integer => exact matches_malformed_of_over over_integerPattern h
  | float => exact matches_malformed_of_over over_floatPattern h
  | symbol => exact matches_malformed_of_over over_symbolPattern h
  | malformed => exact h
  | _ => cases hr

/-- **The first character decides the family.** A rule that matches a text belongs to the
family that the first character of the text admits. -/
theorem opens_of_matches {r : Rule} {c : Char} {s : List Char}
    (h : Matches r.pattern (c :: s)) : opens c = some r.family := by
  by_cases hr : r.family = .malformed
  · rw [hr]
    exact opens_of_isAtomStart (matches_malformed_cons_iff.1 (matches_malformed_of_family hr h)).1
  · cases r with
    | blank => exact opens_of_isSkipped (matches_oneOf_seq_cons_iff.1 h).1
    | comment => obtain ⟨rfl, _⟩ := matches_char_seq_cons_iff.1 h; rfl
    | leftParen => obtain ⟨rfl, _⟩ := List.cons.inj (matches_char_iff.1 h); rfl
    | rightParen => obtain ⟨rfl, _⟩ := List.cons.inj (matches_char_iff.1 h); rfl
    | quote => obtain ⟨rfl, _⟩ := List.cons.inj (matches_char_iff.1 h); rfl
    | string => obtain ⟨rfl, _⟩ := matches_char_seq_cons_iff.1 h; rfl
    | _ => exact absurd rfl hr

/-! ## Rules that stand alone -/

/-- A family other than that of the atoms has one rule, so its longest match is chosen. -/
theorem choose_of_opens {c : Char} {cs : List Char} {r : Rule} {n : Nat} (hc : opens c = some r)
    (hr : r ≠ .malformed) (hn : n ≤ cs.length) (hmatch : Matches r.pattern (c :: cs.take n))
    (hmax : ∀ k, n < k → k ≤ cs.length → ¬ Matches r.pattern (c :: cs.take k)) :
    choose c cs = some ⟨r, n⟩ := by
  refine choose_of_matches hn hmatch fun q k hk hq => ?_
  -- the first character leaves no rule but `r`, so only its own matches compete
  have hfam : q.family = r := Option.some.inj ((opens_of_matches hq).symm.trans hc)
  obtain rfl : q = r := by
    cases q <;> simp only [family] at hfam <;> first | exact hfam | exact absurd hfam.symm hr
  rcases Nat.lt_or_eq_of_le (Nat.le_of_not_lt fun hlt => hmax k hlt hk hq) with hlt | heq
  · exact .inl hlt
  · exact .inr ⟨heq, .inl rfl⟩

theorem forall_mem_take_iff {chars : Char → Bool} {cs : List Char} {k : Nat}
    (hk : k ≤ cs.length) :
    (∀ d ∈ cs.take k, chars d = true) ↔ k ≤ (cs.takeWhile chars).length := by
  induction cs generalizing k with
  | nil => simpa using hk
  | cons c cs ih =>
      cases k with
      | zero => simp
      | succ k =>
          rw [List.take_succ_cons, List.forall_mem_cons, ih (Nat.le_of_succ_le_succ hk),
            List.takeWhile_cons]
          cases chars c <;> simp

/-- A rule that goes on through a class of characters matches up to the first character outside
of it. -/
theorem choose_run {c : Char} {cs : List Char} {r : Rule} {chars : Char → Bool}
    (hc : opens c = some r) (hr : r ≠ .malformed)
    (hmatch : ∀ s, Matches r.pattern (c :: s) ↔ ∀ d ∈ s, chars d = true) :
    choose c cs = some ⟨r, (cs.takeWhile chars).length⟩ := by
  have hlen : (cs.takeWhile chars).length ≤ cs.length := (List.takeWhile_prefix chars).length_le
  refine choose_of_opens hc hr hlen ?_ ?_
  · exact (hmatch _).2 ((forall_mem_take_iff hlen).2 (Nat.le_refl _))
  · intro k hlt hk
    rw [hmatch, forall_mem_take_iff hk]
    omega

theorem choose_blank {c : Char} (hc : Text.isSkipped c = true) (cs : List Char) :
    choose c cs = some ⟨.blank, (cs.takeWhile Text.isSkipped).length⟩ := by
  refine choose_run (opens_of_isSkipped hc) (by decide) fun s => ?_
  rw [pattern, plus, matches_oneOf_seq_cons_iff, matches_star_oneOf_iff]
  exact and_iff_right hc

theorem choose_comment (cs : List Char) :
    choose ';' cs = some ⟨.comment, (cs.takeWhile (· != '\n')).length⟩ := by
  refine choose_run rfl (by decide) fun s => ?_
  rw [pattern, matches_char_seq_cons_iff, matches_star_oneOf_iff]
  exact and_iff_right rfl

/-- A rule for a single character matches that character and nothing more. -/
theorem choose_single {c : Char} {r : Rule} (hc : opens c = some r) (hr : r ≠ .malformed)
    (hp : r.pattern = .char c) (cs : List Char) : choose c cs = some ⟨r, 0⟩ := by
  refine choose_of_opens hc hr (Nat.zero_le _) ?_ ?_
  · rw [hp, matches_char_iff]
    rfl
  · intro k hlt hk
    rw [hp, matches_char_iff]
    intro h
    have hnil : (cs.take k).length = 0 := by rw [(List.cons.inj h).2]; rfl
    rw [List.length_take] at hnil
    omega

theorem choose_leftParen (cs : List Char) : choose '(' cs = some ⟨.leftParen, 0⟩ :=
  choose_single rfl (by decide) rfl cs

theorem choose_rightParen (cs : List Char) : choose ')' cs = some ⟨.rightParen, 0⟩ :=
  choose_single rfl (by decide) rfl cs

theorem choose_quote (cs : List Char) : choose '\x27' cs = some ⟨.quote, 0⟩ :=
  choose_single rfl (by decide) rfl cs

/-- Whitespace that may not be skipped begins nothing. -/
theorem choose_stray {c : Char} (hw : Text.isWhitespace c = true)
    (hs : Text.isSkipped c = false) (cs : List Char) : choose c cs = none := by
  refine choose_eq_none fun q s hq => ?_
  have hnone : opens c = none := by
    have hne : ∀ d : Char, Text.isWhitespace d = false → c ≠ d := by
      rintro d hd rfl
      rw [hd] at hw
      cases hw
    simp [opens, hs, hw, hne ';' (by decide), hne '(' (by decide), hne ')' (by decide),
      hne '\x27' (by decide), hne '"' (by decide)]
  rw [opens_of_matches hq] at hnone
  cases hnone

/-! ## Strings -/

/-- The number of characters that a string takes after its opening quote: up to the first quote
that is not escaped, or to the end of the text less a final backslash that escapes nothing. -/
def stringExtra : List Char → Nat
  | [] => 0
  | ['\\'] => 0
  | '\\' :: _ :: cs => stringExtra cs + 2
  | c :: cs => if c = '"' then 1 else stringExtra cs + 1

/-- A string behind its opening quote. -/
def stringBody : Pattern :=
  .seq (.star (.alt (.oneOf fun c => c != '"' && c != '\\')
    (.seq (.char '\\') (.oneOf fun _ => true)))) (.opt (.char '"'))

theorem stringPattern_eq : stringPattern = .seq (.char '"') stringBody := rfl

theorem matches_stringBody_nil : Matches stringBody [] :=
  .seq .stop (.right .empty)

/-- What a string may go on with: the closing quote and nothing more, a plain character, or a
backslash with any character behind it. -/
theorem matches_stringBody_cons_iff {c : Char} {s : List Char} :
    Matches stringBody (c :: s) ↔
      (c = '"' ∧ s = []) ∨ (c ≠ '"' ∧ c ≠ '\\' ∧ Matches stringBody s) ∨
        (c = '\\' ∧ ∃ d t, s = d :: t ∧ Matches stringBody t) := by
  constructor
  · intro h
    obtain ⟨u, v, huv, hu, hv⟩ := matches_seq_iff.1 h
    cases u with
    | nil =>
        -- nothing of the text is inside the string, so it is the closing quote
        obtain rfl : c :: s = v := huv
        rcases matches_opt_iff.1 hv with h | h
        · exact .inl (by simpa using matches_char_iff.1 h)
        · cases h
    | cons d u =>
        obtain ⟨rfl, rfl⟩ := List.cons.inj huv
        obtain ⟨u', w, rfl, hd, hw⟩ := matches_star_cons hu
        rcases matches_alt_iff.1 hd with h | h
        · obtain ⟨e, he, hne⟩ := matches_oneOf_iff.1 h
          obtain ⟨rfl, rfl⟩ := List.cons.inj he
          simp only [Bool.and_eq_true, bne_iff_ne] at hne
          exact .inr (.inl ⟨hne.1, hne.2, .seq hw hv⟩)
        · obtain ⟨rfl, hany⟩ := matches_char_seq_cons_iff.1 h
          obtain ⟨e, rfl, -⟩ := matches_oneOf_iff.1 hany
          exact .inr (.inr ⟨rfl, e, w ++ v, rfl, .seq hw hv⟩)
  · rintro (⟨rfl, rfl⟩ | ⟨hq, hb, h⟩ | ⟨rfl, d, t, rfl, h⟩)
    · exact .seq .stop (.left (matches_char_iff.2 rfl))
    · obtain ⟨u, v, rfl, hu, hv⟩ := matches_seq_iff.1 h
      have hplain : (c != '"' && c != '\\') = true := by simp [hq, hb]
      exact .seq (.again (.left (.oneOf hplain)) hu) hv
    · obtain ⟨u, v, rfl, hu, hv⟩ := matches_seq_iff.1 h
      exact .seq (.again (.right (matches_char_seq_cons_iff.2 ⟨rfl, .oneOf rfl⟩)) hu) hv

/-- **How far a string reaches.** -/
theorem longest_stringBody (cs : List Char) :
    stringExtra cs ≤ cs.length ∧ Matches stringBody (cs.take (stringExtra cs)) ∧
      ∀ k, stringExtra cs < k → k ≤ cs.length → ¬ Matches stringBody (cs.take k) := by
  fun_induction stringExtra cs with
  | case1 => exact ⟨Nat.le_refl _, matches_stringBody_nil, fun k h0 hk => by simp at hk; omega⟩
  | case2 =>
      refine ⟨by simp, matches_stringBody_nil, fun k h0 hk => ?_⟩
      obtain rfl : k = 1 := by simp at hk; omega
      simp [matches_stringBody_cons_iff]
  | case3 d cs ih =>
      obtain ⟨hlen, hmatch, hmax⟩ := ih
      refine ⟨by simpa using hlen, ?_, fun k hlt hk => ?_⟩
      · rw [List.take_succ_cons, List.take_succ_cons]
        exact matches_stringBody_cons_iff.2 (.inr (.inr ⟨rfl, d, _, rfl, hmatch⟩))
      · -- a backslash is never the end: what follows it comes with it
        obtain ⟨k, rfl⟩ : ∃ m, k = m + 2 := ⟨k - 2, by omega⟩
        rw [List.take_succ_cons, List.take_succ_cons, matches_stringBody_cons_iff]
        simpa using hmax k (by omega) (by simpa using hk)
  | case4 cs _ =>
      refine ⟨by simp, ?_, fun k hlt hk => ?_⟩
      · exact matches_stringBody_cons_iff.2 (.inl ⟨rfl, rfl⟩)
      · -- nothing of a string goes on behind the quote that ends it
        obtain ⟨k, rfl⟩ : ∃ m, k = m + 1 := ⟨k - 1, by omega⟩
        rw [List.take_succ_cons, matches_stringBody_cons_iff]
        have hne : cs.take k ≠ [] := by
          intro hnil
          have := congrArg List.length hnil
          simp only [List.length_take, List.length_cons, List.length_nil] at this hk
          omega
        simpa using hne
  | case5 c cs h1 h2 hq ih =>
      have hb : c ≠ '\\' := by
        rintro rfl
        cases cs with
        | nil => exact h1 rfl rfl
        | cons d cs => exact h2 d cs rfl rfl
      obtain ⟨hlen, hmatch, hmax⟩ := ih
      refine ⟨by simpa using hlen, ?_, fun k hlt hk => ?_⟩
      · rw [List.take_succ_cons]
        exact matches_stringBody_cons_iff.2 (.inr (.inl ⟨hq, hb, hmatch⟩))
      · obtain ⟨k, rfl⟩ : ∃ m, k = m + 1 := ⟨k - 1, by omega⟩
        rw [List.take_succ_cons, matches_stringBody_cons_iff]
        simpa [hq, hb] using hmax k (by omega) (by simpa using hk)

theorem choose_string (cs : List Char) : choose '"' cs = some ⟨.string, stringExtra cs⟩ := by
  have hcons : ∀ s, Matches Rule.string.pattern ('"' :: s) ↔ Matches stringBody s := fun s => by
    rw [pattern, stringPattern_eq, matches_char_seq_cons_iff]
    exact and_iff_right rfl
  obtain ⟨hlen, hmatch, hmax⟩ := longest_stringBody cs
  exact choose_of_opens rfl (by decide) hlen ((hcons _).2 hmatch) fun k hlt hk h =>
    hmax k hlt hk ((hcons _).1 h)

/-! ## Atoms -/

/-- **The rule for an atom**, given the whole of it. -/
def ofAtom (text : List Char) : Rule :=
  if Matches integerPattern text then .integer
  else if Matches floatPattern text then .float
  else if Matches symbolPattern text then .symbol
  else if text = ['.'] then .dot
  else .malformed

/-- No point occurs in an integer, and one occurs in every float. -/
theorem not_matches_integer_of_float {s : List Char} (h : Matches floatPattern s) :
    ¬ Matches integerPattern s := by
  intro hint
  have hdigit : ∀ c : Char, c.isDigit = true → (c != '.') = true := by
    intro c hc
    rw [bne_iff_ne]
    rintro rfl
    cases hc
  have hover : integerPattern.Over (· != '.') := by
    refine ⟨⟨fun c hc => ?_, trivial⟩, hdigit, hdigit⟩
    rw [beq_iff_eq.1 hc]
    decide
  have hno := forall_mem_of_matches hint hover
  obtain ⟨u, v, rfl, _, hv⟩ := matches_seq_iff.1 h
  obtain ⟨p, w, rfl, hp, _⟩ := matches_seq_iff.1 hv
  rw [matches_char_iff.1 hp] at hno
  have := hno '.' (by simp)
  cases this

theorem matches_ofAtom {text : List Char} (h : Matches Rule.malformed.pattern text) :
    Matches (ofAtom text).pattern text := by
  unfold ofAtom
  split
  · assumption
  · split
    · assumption
    · split
      · assumption
      · split
        · rename_i hdot
          rw [hdot]
          exact matches_char_iff.2 rfl
        · exact h

/-- Of the rules that match an atom, `ofAtom` names the one of highest priority. -/
theorem priority_lt_ofAtom {q : Rule} {text : List Char} (hq : q.family = .malformed)
    (h : Matches q.pattern text) : q = ofAtom text ∨ q.priority < (ofAtom text).priority := by
  unfold ofAtom
  cases q with
  | integer =>
      have hint : Matches integerPattern text := h
      exact .inl (if_pos hint).symm
  | float =>
      have hfloat : Matches floatPattern text := h
      rw [if_neg (not_matches_integer_of_float hfloat), if_pos hfloat]
      exact .inl rfl
  | symbol =>
      -- a number would win over the symbol; no text is both, but this is not needed here
      have hsym : Matches symbolPattern text := h
      rw [if_pos hsym]
      split
      · exact .inr (by decide)
      · split
        · exact .inr (by decide)
        · exact .inl rfl
  | dot =>
      rw [if_pos (matches_char_iff.1 h)]
      repeat' split
      all_goals first | exact .inr (by decide) | exact .inl rfl
  | malformed =>
      repeat' split
      all_goals first | exact .inr (by decide) | exact .inl rfl
  | _ => cases hq

/-- What belongs to an atom behind its first character: all up to the next delimiter. -/
def atomRest (cs : List Char) : List Char := cs.takeWhile (!isDelimiter ·)

theorem isDelimiter_of_mem_atomRest {cs : List Char} {d : Char} (h : d ∈ atomRest cs) :
    isDelimiter d = false := by
  have hd : (!isDelimiter d) = true := List.mem_takeWhile_imp (p := fun e => !isDelimiter e) h
  rwa [Bool.not_eq_true'] at hd

/-- **An atom runs up to the next delimiter**, and the run as a whole decides what it is. -/
theorem choose_atom {c : Char} (hc : isAtomStart c = true) (cs : List Char) :
    choose c cs = some ⟨ofAtom (c :: atomRest cs), (atomRest cs).length⟩ := by
  have hprefix : atomRest cs <+: cs := List.takeWhile_prefix _
  have htake : cs.take (atomRest cs).length = atomRest cs :=
    (List.prefix_iff_eq_take.1 hprefix).symm
  have hrun : Matches Rule.malformed.pattern (c :: atomRest cs) := by
    refine matches_malformed_cons_iff.2 ⟨hc, fun d hd => ?_⟩
    rw [isDelimiter_of_mem_atomRest hd]
    rfl
  refine choose_of_matches hprefix.length_le ?_ fun q k hk hq => ?_
  · rw [htake]
    exact matches_ofAtom hrun
  · have hfam : q.family = .malformed :=
      Option.some.inj ((opens_of_matches hq).symm.trans (opens_of_isAtomStart hc))
    -- every rule for atoms stays inside the run
    have hle : k ≤ (atomRest cs).length :=
      (forall_mem_take_iff hk).1
        (matches_malformed_cons_iff.1 (matches_malformed_of_family hfam hq)).2
    rcases Nat.lt_or_eq_of_le hle with hlt | rfl
    · exact .inl hlt
    · rw [htake] at hq
      exact .inr ⟨rfl, priority_lt_ofAtom hfam hq⟩

end Rule

end SmallLisp
