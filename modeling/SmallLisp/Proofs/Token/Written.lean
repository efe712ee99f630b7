import SmallLisp.Proofs.Token.Contents

set_option autoImplicit false

/-! # Written atoms are lexed back

The texts that the printer writes for integers, symbols and strings, and the dot between them,
are each one token again. An atom reaches as far as no delimiter stands, so this is said of a text
in front of anything that stops an atom (`atomRest rest = []`); a literal ends with its quote,
and may stand in front of anything.
-/

namespace SmallLisp

open Pattern Rule

/-! ## Atoms in front of a delimiter -/

theorem contents_atom_append {text rest : List Char} (hm : Matches Rule.malformed.pattern text)
    (hrest : atomRest rest = []) :
    contents (text ++ rest) = ((ofAtom text).read text).yield ++ contents rest := by
  cases text with
  | nil =>
      rw [pattern, malformedPattern, matches_oneOf_seq_iff] at hm
      obtain ⟨c, s, hnil, _⟩ := hm
      cases hnil
  | cons c s =>
      obtain ⟨hc, hs⟩ := matches_malformed_cons_iff.1 hm
      have hall : atomRest (s ++ rest) = s := by
        rw [atomRest_append hrest]
        exact List.takeWhile_eq_self_iff.2 hs
      rw [List.cons_append, contents_atom hc, hall, List.drop_left]

theorem matches_malformed_of_matches {r : Rule} (hr : r.family = .malformed) {text : List Char}
    (hne : text ≠ []) (hm : Matches r.pattern text) : Matches Rule.malformed.pattern text := by
  obtain ⟨c, s, rfl⟩ := List.exists_cons_of_ne_nil hne
  exact matches_malformed_of_family hr hm

theorem contents_dot {rest : List Char} (hrest : atomRest rest = []) :
    contents ('.' :: rest) = .ok .dot :: contents rest := by
  have hm : Matches Rule.malformed.pattern ['.'] :=
    matches_malformed_of_over over_dot (matches_char_iff.2 rfl)
  have hdot : ofAtom ['.'] = .dot := by decide
  have hcontents := contents_atom_append hm hrest
  rw [hdot] at hcontents
  exact hcontents

/-! ## Symbols -/

/-- What begins a symbol begins no number. -/
theorem not_numeric_of_isSymbolStart {c : Char} (h : isSymbolStart c = true) :
    c.isDigit = false ∧ c ≠ '.' ∧ c ≠ '-' := by
  have hpart : isAtomPart c = true := by simp [isAtomPart, isSymbolPart, h]
  have hlaw : (!isSymbolStart c || (!c.isDigit && c != '.' && c != '-')) = true :=
    @of_isAtomPart (fun c => !isSymbolStart c || (!c.isDigit && c != '.' && c != '-')) (by decide)
      c hpart
  simpa [h, and_assoc] using hlaw

/-- Integers, and whatever goes on after one, begin like a number. -/
theorem looksNumeric_of_integer {s : List Char} (h : Matches integerPattern s) (t : List Char) :
    looksNumeric (s ++ t) = true := by
  rw [integerPattern, matches_seq_iff] at h
  obtain ⟨u, v, rfl, hu, hv⟩ := h
  obtain ⟨hne, hdigits⟩ := matches_plus_oneOf_iff.1 hv
  obtain ⟨d, ds, rfl⟩ := List.exists_cons_of_ne_nil hne
  have hd : d.isDigit = true := hdigits d List.mem_cons_self
  rcases matches_opt_iff.1 hu with hu | rfl
  · rw [matches_char_iff] at hu
    rw [hu]
    simp [looksNumeric, hd]
  · -- the first digit is not taken for a sign
    rw [List.nil_append, List.cons_append, looksNumeric]
    · rw [hd]
      rfl
    · rintro c' cs' rfl _
      exact absurd hd (by decide)

theorem looksNumeric_of_symbol {s : List Char} (h : Matches symbolPattern s) :
    looksNumeric s = false := by
  rw [symbolPattern, matches_alt_iff] at h
  rcases h with h | h
  · obtain ⟨c, t, rfl, hc, _⟩ := matches_oneOf_seq_iff.1 h
    obtain ⟨hd, hp, hm⟩ := not_numeric_of_isSymbolStart hc
    rw [looksNumeric]
    · simp [hd, hp]
    · rintro c' cs' rfl _
      exact hm rfl
  · -- a minus begins a symbol unless a digit follows
    rw [char, matches_oneOf_seq_iff] at h
    obtain ⟨c, t, rfl, hc, ht⟩ := h
    obtain rfl : c = '-' := beq_iff_eq.1 hc
    rcases matches_opt_iff.1 ht with ht | rfl
    · obtain ⟨d, u, rfl, hd, _⟩ := matches_oneOf_seq_iff.1 ht
      have hd' : d.isDigit = false ∧ d ≠ '.' := by
        rcases (Bool.or_eq_true _ _).mp hd with hd | hd
        · obtain ⟨hdigit, hpoint, _⟩ := not_numeric_of_isSymbolStart hd
          exact ⟨hdigit, hpoint⟩
        · rw [beq_iff_eq.1 hd]
          decide
      simp [looksNumeric, hd']
    · rfl

/-- No text is both a symbol and a number. -/
theorem ofAtom_symbol {s : List Char} (h : Matches symbolPattern s) : ofAtom s = .symbol := by
  have hnot : ∀ a b, s = a ++ b → ¬ Matches integerPattern a := by
    rintro a b rfl ha
    exact absurd ((looksNumeric_of_symbol h).symm.trans (looksNumeric_of_integer ha b))
      Bool.false_ne_true
  have hint : ¬ Matches integerPattern s := hnot s [] (List.append_nil s).symm
  have hfloat : ¬ Matches floatPattern s := by
    -- a float begins with an integer, which is all that is needed
    intro hf
    rw [floatPattern, matches_seq_iff] at hf
    obtain ⟨a, b, hs, ha, _⟩ := hf
    exact hnot a b hs ha
  rw [ofAtom, if_neg hint, if_neg hfloat, if_pos h]

/-- **The name of a symbol is lexed back.** -/
theorem contents_symbol {name : String} (h : Matches symbolPattern name.toList)
    {rest : List Char} (hrest : atomRest rest = []) :
    contents (name.toList ++ rest) = .ok (.symbol name) :: contents rest := by
  have hne : name.toList ≠ [] := by
    intro hnil
    rw [hnil, matches_nil_iff] at h
    exact absurd h (by decide)
  have hm := matches_malformed_of_matches (r := .symbol) rfl hne h
  rw [contents_atom_append hm hrest, ofAtom_symbol h, Rule.read, String.ofList_toList]
  rfl

/-! ## Integers -/

theorem integerChars_ne_nil (n : Int) : Number.integerChars n ≠ [] := by
  unfold Number.integerChars
  split
  · exact List.cons_ne_nil _ _
  · exact Decimal.digits_ne_nil _

theorem matches_integerChars (n : Int) : Matches integerPattern (Number.integerChars n) := by
  have hdigits : Matches (.plus (.oneOf Char.isDigit)) (Decimal.digits n.natAbs) :=
    matches_plus_oneOf_iff.2
      ⟨Decimal.digits_ne_nil _, fun c hc => Decimal.isDigit_of_mem_digits hc⟩
  rw [integerPattern, matches_seq_iff]
  unfold Number.integerChars
  split
  · exact ⟨['-'], _, rfl, matches_opt_iff.2 (.inl (matches_char_iff.2 rfl)), hdigits⟩
  · exact ⟨[], _, rfl, matches_opt_iff.2 (.inr rfl), hdigits⟩

theorem integerValue_of_digits {ds : List Char} (h : ∀ c ∈ ds, c.isDigit = true) :
    integerValue ds = Decimal.value ds := by
  unfold integerValue
  split
  · exact absurd (h '-' List.mem_cons_self) (by decide)
  · rfl

theorem integerValue_integerChars (n : Int) : integerValue (Number.integerChars n) = n := by
  unfold Number.integerChars
  split
  · rw [integerValue, Decimal.value_digits]
    omega
  · rw [integerValue_of_digits fun c hc => Decimal.isDigit_of_mem_digits hc,
      Decimal.value_digits]
    omega

theorem fit_toInt (i : Int64) : Number.fit i.toInt = .ok i := by
  rw [Number.fit, if_pos (Number.inRange_toInt i), Int64.ofInt_toInt]

/-- **The digits of an integer are lexed back.** -/
theorem contents_integer (i : Int64) {rest : List Char} (hrest : atomRest rest = []) :
    contents (Number.integerChars i.toInt ++ rest) = .ok (.integer i) :: contents rest := by
  have hint := matches_integerChars i.toInt
  have hm := matches_malformed_of_matches (r := .integer) rfl (integerChars_ne_nil _) hint
  rw [contents_atom_append hm hrest, ofAtom, if_pos hint, Rule.read, integerValue_integerChars,
    fit_toInt]
  rfl

/-! ## Strings -/

/-- An escaped character goes on a string by one character. -/
theorem unescape_literalChar (c : Char) (cs : List Char) :
    Text.unescape (Text.literalChar c ++ cs) = (Text.unescape cs).map (c :: ·) ∧
      stringExtra (Text.literalChar c ++ cs) = stringExtra cs + (Text.literalChar c).length := by
  unfold Text.literalChar
  by_cases hq : c = '"'
  · subst hq
    exact ⟨rfl, rfl⟩
  · by_cases hb : c = '\\'
    · subst hb
      exact ⟨rfl, rfl⟩
    · by_cases hn : c = '\n'
      · subst hn
        exact ⟨rfl, rfl⟩
      · rw [if_neg hq, if_neg hb, if_neg hn]
        exact ⟨unescape_plain hq hb cs, stringExtra_plain hq hb cs⟩

theorem unescape_literal (s rest : List Char) :
    Text.unescape (s.flatMap Text.literalChar ++ '"' :: rest) = some s ∧
      stringExtra (s.flatMap Text.literalChar ++ '"' :: rest) =
        (s.flatMap Text.literalChar).length + 1 := by
  induction s with
  | nil => simp [Text.unescape, stringExtra]
  | cons c s ih =>
      obtain ⟨hs, hextra⟩ := ih
      obtain ⟨hc, hcextra⟩ :=
        unescape_literalChar c (s.flatMap Text.literalChar ++ '"' :: rest)
      rw [List.flatMap_cons, List.append_assoc, hc, hcextra, hs, hextra, List.length_append]
      exact ⟨rfl, by omega⟩

/-- **The literal of a string is lexed back**, whatever characters are in it. -/
theorem contents_literal (s : String) (rest : List Char) :
    contents (Text.literal s.toList ++ rest) = .ok (.string s) :: contents rest := by
  obtain ⟨hs, hextra⟩ := unescape_literal s.toList rest
  have hsplit : Text.literal s.toList ++ rest =
      '"' :: (s.toList.flatMap Text.literalChar ++ '"' :: rest) := by simp [Text.literal]
  have hdrop : (s.toList.flatMap Text.literalChar ++ '"' :: rest).drop
      ((s.toList.flatMap Text.literalChar).length + 1) = rest := by
    rw [List.drop_append]
    simp
  rw [hsplit, contents_string, stringContent, hs, hextra, hdrop]
  simp only [String.ofList_toList]

end SmallLisp
