set_option autoImplicit false

/-! # Patterns and their longest match

A `Pattern` is a regular expression over characters, and `Pattern.Matches` says which texts
it describes. The lexer needs one question answered: how long is the longest start of a text
that a pattern describes? `longest?` answers it by derivatives: the derivative of a pattern by
a character `c` describes what may still follow once `c` has been read.
-/

namespace SmallLisp

/-- **A regular expression over characters.** -/
inductive Pattern
  /-- Describes no text at all. -/
  | never
  /-- Describes the empty text. -/
  | empty
  /-- Describes the texts of one character of the given class. -/
  | oneOf (chars : Char → Bool)
  | seq (first second : Pattern)
  | alt (left right : Pattern)
  | star (body : Pattern)

namespace Pattern

/-- **The texts that a pattern describes.** -/
inductive Matches : Pattern → List Char → Prop
  | empty : Matches .empty []
  | oneOf {chars : Char → Bool} {c : Char} (h : chars c = true) : Matches (.oneOf chars) [c]
  | seq {p q : Pattern} {s t : List Char} (hp : Matches p s) (hq : Matches q t) :
      Matches (.seq p q) (s ++ t)
  | left {p q : Pattern} {s : List Char} (h : Matches p s) : Matches (.alt p q) s
  | right {p q : Pattern} {s : List Char} (h : Matches q s) : Matches (.alt p q) s
  | stop {p : Pattern} : Matches (.star p) []
  | again {p : Pattern} {s t : List Char} (hp : Matches p s) (hs : Matches (.star p) t) :
      Matches (.star p) (s ++ t)

/-- The given character. -/
def char (c : Char) : Pattern := .oneOf (· == c)

/-- The pattern once or not at all. -/
def opt (p : Pattern) : Pattern := .alt p .empty

/-- The pattern once or more. -/
def plus (p : Pattern) : Pattern := .seq p (.star p)

/-- Whether a pattern describes the empty text. -/
def nullable : Pattern → Bool
  | .never => false
  | .empty => true
  | .oneOf _ => false
  | .seq p q => p.nullable && q.nullable
  | .alt p q => p.nullable || q.nullable
  | .star _ => true

/-- A sequence, shortened where a part is trivial so that derivatives stay small. -/
def joined : Pattern → Pattern → Pattern
  | .never, _ => .never
  | .empty, q => q
  | p, q => .seq p q

/-- An alternative, shortened where a side is hopeless. -/
def either : Pattern → Pattern → Pattern
  | .never, q => q
  | p, .never => p
  | p, q => .alt p q

/-- What may follow once the character `c` has been read. -/
def derive (c : Char) : Pattern → Pattern
  | .never => .never
  | .empty => .never
  | .oneOf chars => if chars c then .empty else .never
  | .seq p q =>
      if p.nullable then either (joined (p.derive c) q) (q.derive c)
      else joined (p.derive c) q
  | .alt p q => either (p.derive c) (q.derive c)
  | .star p => joined (p.derive c) (.star p)

/-- Whether a pattern is plainly hopeless, so that reading on cannot help. -/
def isNever : Pattern → Bool
  | .never => true
  | _ => false

/-- **The longest match.** The length of the longest start of a text that the pattern
describes, if there is one. -/
def longest? (p : Pattern) : List Char → Option Nat
  | [] => if p.nullable then some 0 else none
  | c :: cs =>
      if p.isNever then none
      else
        match (p.derive c).longest? cs with
        | some n => some (n + 1)
        | none => if p.nullable then some 0 else none

/-! ## Laws -/

theorem not_matches_never {s : List Char} : ¬ Matches .never s := by
  intro h
  cases h

theorem matches_nil_iff (p : Pattern) : Matches p [] ↔ p.nullable = true := by
  induction p with
  | never => exact ⟨nofun, nofun⟩
  | empty => exact ⟨fun _ => rfl, fun _ => .empty⟩
  | oneOf chars => exact ⟨nofun, nofun⟩
  | seq p q ihp ihq =>
      constructor
      · intro h
        generalize hs : ([] : List Char) = s at h
        cases h with
        | seq hp hq =>
            obtain ⟨rfl, rfl⟩ := List.append_eq_nil_iff.1 hs.symm
            simp [nullable, ihp.1 hp, ihq.1 hq]
      · intro h
        simp only [nullable, Bool.and_eq_true] at h
        exact Matches.seq (ihp.2 h.1) (ihq.2 h.2)
  | alt p q ihp ihq =>
      constructor
      · intro h
        cases h with
        | left h => simp [nullable, ihp.1 h]
        | right h => simp [nullable, ihq.1 h]
      · intro h
        simp only [nullable, Bool.or_eq_true] at h
        rcases h with h | h
        · exact .left (ihp.2 h)
        · exact .right (ihq.2 h)
  | star p _ => exact ⟨fun _ => rfl, fun _ => .stop⟩

theorem matches_seq_iff {p q : Pattern} {s : List Char} :
    Matches (.seq p q) s ↔ ∃ u v, s = u ++ v ∧ Matches p u ∧ Matches q v := by
  constructor
  · intro h
    cases h with
    | seq hp hq => exact ⟨_, _, rfl, hp, hq⟩
  · rintro ⟨u, v, rfl, hp, hq⟩
    exact .seq hp hq

theorem matches_alt_iff {p q : Pattern} {s : List Char} :
    Matches (.alt p q) s ↔ Matches p s ∨ Matches q s := by
  constructor
  · intro h
    cases h with
    | left h => exact .inl h
    | right h => exact .inr h
  · rintro (h | h)
    · exact .left h
    · exact .right h

theorem matches_oneOf_iff {chars : Char → Bool} {s : List Char} :
    Matches (.oneOf chars) s ↔ ∃ c, s = [c] ∧ chars c = true := by
  constructor
  · intro h
    cases h with
    | oneOf h => exact ⟨_, rfl, h⟩
  · rintro ⟨c, rfl, h⟩
    exact .oneOf h

theorem matches_empty_iff {s : List Char} : Matches .empty s ↔ s = [] := by
  constructor
  · intro h
    cases h
    rfl
  · rintro rfl
    exact .empty

theorem matches_joined_iff {p q : Pattern} {s : List Char} :
    Matches (joined p q) s ↔ Matches (.seq p q) s := by
  fun_cases joined p q with
  | case1 =>
      simp only [matches_seq_iff]
      exact ⟨fun h => absurd h not_matches_never,
        fun ⟨_, _, _, h, _⟩ => absurd h not_matches_never⟩
  | case2 =>
      simp only [matches_seq_iff, matches_empty_iff]
      refine ⟨fun h => ⟨[], s, rfl, rfl, h⟩, fun ⟨_, _, hs, hu, h⟩ => ?_⟩
      subst hu
      simpa [hs] using h
  | case3 => exact Iff.rfl

theorem matches_either_iff {p q : Pattern} {s : List Char} :
    Matches (either p q) s ↔ Matches (.alt p q) s := by
  fun_cases either p q with
  | case1 => simp [matches_alt_iff, not_matches_never]
  | case2 => simp [matches_alt_iff, not_matches_never]
  | case3 => exact Iff.rfl

theorem matches_star_cons {p : Pattern} {c : Char} {cs : List Char}
    (h : Matches (.star p) (c :: cs)) :
    ∃ u v, cs = u ++ v ∧ Matches p (c :: u) ∧ Matches (.star p) v := by
  generalize hq : Pattern.star p = q at h
  generalize hs : c :: cs = s at h
  induction h with
  | @again _ s t hp ht _ iht =>
      cases hq
      cases s with
      | nil => exact iht rfl (by simpa using hs)
      | cons d u =>
          simp only [List.cons_append, List.cons.injEq] at hs
          obtain ⟨rfl, rfl⟩ := hs
          exact ⟨u, t, rfl, hp, ht⟩
  | stop => cases hs
  | empty => cases hq
  | oneOf => cases hq
  | seq => cases hq
  | left => cases hq
  | right => cases hq

/-- The derivative describes exactly what may follow a character. -/
theorem matches_derive_iff (p : Pattern) (c : Char) (cs : List Char) :
    Matches (p.derive c) cs ↔ Matches p (c :: cs) := by
  induction p generalizing cs with
  | never =>
      simp only [derive]
      exact ⟨fun h => absurd h not_matches_never, fun h => absurd h not_matches_never⟩
  | empty =>
      simp only [derive, matches_empty_iff]
      exact ⟨fun h => absurd h not_matches_never, fun h => by cases h⟩
  | oneOf chars =>
      simp only [derive, matches_oneOf_iff]
      split
      · rename_i h
        simp only [matches_empty_iff]
        exact ⟨fun hcs => ⟨c, by rw [hcs], h⟩, fun ⟨_, hd, _⟩ => (List.cons.inj hd).2⟩
      · rename_i h
        refine ⟨fun h => absurd h not_matches_never, fun ⟨d, hd, hc⟩ => ?_⟩
        obtain ⟨rfl, _⟩ := List.cons.inj hd
        exact absurd hc h
  | seq p q ihp ihq =>
      have front : Matches (joined (p.derive c) q) cs ↔
          ∃ u v, cs = u ++ v ∧ Matches p (c :: u) ∧ Matches q v := by
        rw [matches_joined_iff, matches_seq_iff]
        simp only [ihp]
      have split_cons : Matches (.seq p q) (c :: cs) ↔
          (∃ u v, cs = u ++ v ∧ Matches p (c :: u) ∧ Matches q v) ∨
            (Matches p [] ∧ Matches q (c :: cs)) := by
        rw [matches_seq_iff]
        constructor
        · rintro ⟨u, v, huv, hp, hq⟩
          cases u with
          | nil =>
              simp only [List.nil_append] at huv
              exact .inr ⟨hp, huv ▸ hq⟩
          | cons d u =>
              simp only [List.cons_append, List.cons.injEq] at huv
              obtain ⟨rfl, rfl⟩ := huv
              exact .inl ⟨u, v, rfl, hp, hq⟩
        · rintro (⟨u, v, rfl, hp, hq⟩ | ⟨hp, hq⟩)
          · exact ⟨c :: u, v, rfl, hp, hq⟩
          · exact ⟨[], c :: cs, rfl, hp, hq⟩
      rw [split_cons, matches_nil_iff]
      simp only [derive]
      split
      · rename_i h
        rw [matches_either_iff, matches_alt_iff, front, ihq]
        simp [h]
      · rename_i h
        rw [front]
        simp [h]
  | alt p q ihp ihq =>
      simp only [derive]
      rw [matches_either_iff, matches_alt_iff, matches_alt_iff, ihp, ihq]
  | star p ih =>
      simp only [derive]
      rw [matches_joined_iff, matches_seq_iff]
      simp only [ih]
      constructor
      · rintro ⟨u, v, rfl, hp, hs⟩
        exact Matches.again hp hs
      · intro h
        exact matches_star_cons h

theorem not_matches_of_isNever {p : Pattern} (h : p.isNever = true) (s : List Char) :
    ¬ Matches p s := by
  cases p with
  | never => exact not_matches_never
  | _ => simp [isNever] at h

/-- `longest?` fails exactly when no start of the text matches. -/
theorem longest?_eq_none_iff {p : Pattern} {cs : List Char} :
    p.longest? cs = none ↔ ∀ m, m ≤ cs.length → ¬ Matches p (cs.take m) := by
  induction cs generalizing p with
  | nil =>
      simp only [longest?, List.length_nil, Nat.le_zero_eq, List.take_nil, matches_nil_iff]
      by_cases h : p.nullable = true <;> simp [h]
  | cons c cs ih =>
      simp only [longest?]
      split
      · rename_i h
        simp [not_matches_of_isNever h]
      · have key : (∀ m, m ≤ (c :: cs).length → ¬ Matches p ((c :: cs).take m)) ↔
            p.nullable = false ∧ ∀ m, m ≤ cs.length → ¬ Matches (p.derive c) (cs.take m) := by
          constructor
          · intro h
            refine ⟨?_, fun m hm => ?_⟩
            · have := h 0 (Nat.zero_le _)
              simpa [matches_nil_iff] using this
            · rw [matches_derive_iff]
              exact h (m + 1) (Nat.succ_le_succ hm)
          · rintro ⟨hn, h⟩ m hm
            cases m with
            | zero => simp [matches_nil_iff, hn]
            | succ m =>
                rw [List.take_succ_cons, ← matches_derive_iff]
                exact h m (Nat.le_of_succ_le_succ hm)
        rw [key, ← ih]
        split
        · rename_i n hn
          simp [hn]
        · rename_i hn
          by_cases h : p.nullable = true <;> simp [h, hn]

/-- `longest?` finds a match, it lies inside the text, and no longer start matches. -/
theorem longest?_eq_some_iff {p : Pattern} {cs : List Char} {n : Nat} :
    p.longest? cs = some n ↔
      n ≤ cs.length ∧ Matches p (cs.take n) ∧
        ∀ m, n < m → m ≤ cs.length → ¬ Matches p (cs.take m) := by
  induction cs generalizing p n with
  | nil =>
      simp only [longest?, List.length_nil, Nat.le_zero_eq, List.take_nil, matches_nil_iff]
      by_cases h : p.nullable = true
      · simp only [h, if_true, Option.some.injEq, true_and, not_true_eq_false]
        exact ⟨fun hn => ⟨hn.symm, fun m hm h0 => by omega⟩, fun hn => hn.1.symm⟩
      · simp [h]
  | cons c cs ih =>
      simp only [longest?]
      split
      · rename_i h
        simp [not_matches_of_isNever h]
      · cases n with
        | zero =>
            simp only [List.take_zero, matches_nil_iff, Nat.zero_le, true_and]
            have later : (∀ m, 0 < m → m ≤ (c :: cs).length → ¬ Matches p ((c :: cs).take m)) ↔
                (p.derive c).longest? cs = none := by
              rw [longest?_eq_none_iff]
              constructor
              · intro h m hm
                rw [matches_derive_iff]
                exact h (m + 1) (Nat.succ_pos m) (Nat.succ_le_succ hm)
              · intro h m hm hlen
                cases m with
                | zero => omega
                | succ m =>
                    rw [List.take_succ_cons, ← matches_derive_iff]
                    exact h m (Nat.le_of_succ_le_succ hlen)
            rw [later]
            cases (p.derive c).longest? cs with
            | none => by_cases h : p.nullable = true <;> simp [h]
            | some n => simp
        | succ n =>
            have step : (n + 1 ≤ (c :: cs).length ∧ Matches p ((c :: cs).take (n + 1)) ∧
                ∀ m, n + 1 < m → m ≤ (c :: cs).length → ¬ Matches p ((c :: cs).take m)) ↔
                (p.derive c).longest? cs = some n := by
              rw [ih, List.take_succ_cons, ← matches_derive_iff]
              constructor
              · rintro ⟨hn, hp, hmax⟩
                refine ⟨Nat.le_of_succ_le_succ hn, hp, fun m hm hlen => ?_⟩
                rw [matches_derive_iff]
                exact hmax (m + 1) (Nat.succ_lt_succ hm) (Nat.succ_le_succ hlen)
              · rintro ⟨hn, hp, hmax⟩
                refine ⟨Nat.succ_le_succ hn, hp, fun m hm hlen => ?_⟩
                cases m with
                | zero => omega
                | succ m =>
                    rw [List.take_succ_cons, ← matches_derive_iff]
                    exact hmax m (Nat.lt_of_succ_lt_succ hm) (Nat.le_of_succ_le_succ hlen)
            rw [step]
            cases (p.derive c).longest? cs with
            | none => by_cases h : p.nullable = true <;> simp [h]
            | some n => simp

end Pattern

end SmallLisp
