import SmallLisp.Proofs.Token.Written

set_option autoImplicit false

/-! # How a text goes on

Text that is put behind a text can change its last token and nothing before it. A text breaks off
behind a token, in a comment, in an atom or in a string (`Ending`), and all that comes before this
is the same whatever follows (`exists_ending`).

If there is a way to go on without an error, then one of four `patches` is such a way as far as the
last token goes (`Ending.exists_patch`). It is needed for two kinds of last token only: a string
without its end, and an integer that is too large but would do as the start of a float.
-/

namespace SmallLisp

open Pattern Rule

/-- Whether a token is a form by itself. -/
def Token.isAtom : Token → Bool
  | .integer _ => true
  | .float _ => true
  | .string _ => true
  | .symbol _ => true
  | _ => false

/-! ## The last piece of a text -/

/-- **What a text breaks off in**: nothing, a comment, an atom or a string. -/
inductive Ending : List Char → Prop
  | nothing : Ending []
  | comment {line : List Char} (hline : ∀ c ∈ line, (c != '\n') = true) : Ending (';' :: line)
  | atom {c : Char} {cs : List Char} (hc : isAtomStart c = true)
      (hcs : ∀ d ∈ cs, (!isDelimiter d) = true) : Ending (c :: cs)
  | string {cs : List Char} (hopen : Text.unescape cs = none) : Ending ('"' :: cs)

/-- A text ends in `last`, behind contents that stay the same whatever follows. -/
def EndsIn (text last : List Char) (front : List (Except LexicalError Token)) : Prop :=
  ∀ more, contents (text ++ more) = front ++ contents (last ++ more)

theorem EndsIn.of_suffix {text rest last : List Char} {front : List (Except LexicalError Token)}
    (first : List (Except LexicalError Token))
    (htext : ∀ more, contents (text ++ more) = first ++ contents (rest ++ more))
    (hrest : EndsIn rest last front) : EndsIn text last (first ++ front) := by
  intro more
  rw [htext, hrest, List.append_assoc]

/-- **Every text ends in one of the four ways.** -/
theorem exists_ending (text : List Char) : ∃ last front, Ending last ∧ EndsIn text last front := by
  -- along the pieces of the text: each but the last is the same piece whatever follows
  have hself : ∀ {last : List Char}, Ending last → ∃ last' front, Ending last' ∧
      EndsIn last last' front := fun hlast => ⟨_, [], hlast, fun _ => rfl⟩
  induction text using scanInduction with
  | nil => exact hself .nothing
  | blank c cs hc ih =>
      obtain ⟨last, front, hlast, hends⟩ := ih
      exact ⟨last, _, hlast, hends.of_suffix [] fun more => contents_blank hc (cs ++ more)⟩
  | comment cs ih =>
      by_cases hline : ∀ c ∈ cs, (c != '\n') = true
      · exact hself (.comment hline)
      · obtain ⟨last, front, hlast, hends⟩ := ih
        refine ⟨last, _, hlast, hends.of_suffix [] fun more => ?_⟩
        rw [List.cons_append, contents_comment, List.dropWhile_append, if_neg]
        · rfl
        · rwa [List.isEmpty_iff, List.dropWhile_eq_nil_iff]
  | leftParen cs ih =>
      obtain ⟨last, front, hlast, hends⟩ := ih
      exact ⟨last, _, hlast, hends.of_suffix [_] fun more => contents_leftParen (cs ++ more)⟩
  | rightParen cs ih =>
      obtain ⟨last, front, hlast, hends⟩ := ih
      exact ⟨last, _, hlast, hends.of_suffix [_] fun more => contents_rightParen (cs ++ more)⟩
  | quote cs ih =>
      obtain ⟨last, front, hlast, hends⟩ := ih
      exact ⟨last, _, hlast, hends.of_suffix [_] fun more => contents_quote (cs ++ more)⟩
  | stray c cs hw hs ih =>
      obtain ⟨last, front, hlast, hends⟩ := ih
      exact ⟨last, _, hlast, hends.of_suffix [_] fun more => contents_stray hw hs (cs ++ more)⟩
  | atom c cs hc ih =>
      by_cases hrun : ∀ d ∈ cs, (!isDelimiter d) = true
      · exact hself (.atom hc hrun)
      · obtain ⟨last, front, hlast, hends⟩ := ih
        refine ⟨last, _, hlast, hends.of_suffix
          ((ofAtom (c :: atomRest cs)).read (c :: atomRest cs)).yield fun more => ?_⟩
        have hlen : (atomRest cs).length ≤ cs.length := (List.takeWhile_prefix _).length_le
        have hshort : (atomRest cs).length ≠ cs.length := fun heq =>
          hrun (List.takeWhile_eq_self_iff.1 ((List.takeWhile_prefix _).eq_of_length heq))
        have hrest : atomRest (cs ++ more) = atomRest cs := by
          unfold atomRest at hshort ⊢
          rw [List.takeWhile_append, if_neg hshort]
        rw [List.cons_append, contents_atom hc (cs ++ more), hrest,
          List.drop_append_of_le_length hlen]
  | string cs ih =>
      cases hs : Text.unescape cs with
      | none => exact hself (.string hs)
      | some s =>
          obtain ⟨last, front, hlast, hends⟩ := ih
          refine ⟨last, _, hlast, hends.of_suffix [stringContent cs] fun more => ?_⟩
          obtain ⟨hclosed, hextra⟩ := unescape_append_of_some hs more
          rw [List.cons_append, contents_string (cs ++ more), hextra, stringContent, stringContent,
            hclosed, hs, List.drop_append_of_le_length (stringExtra_le cs)]
          rfl

/-! ## Atoms that are cut short -/

/-- A text that is spelled like a number or a symbol. -/
def IsSpelled (text : List Char) : Prop :=
  Matches integerPattern text ∨ Matches floatPattern text ∨ Matches symbolPattern text

theorem matches_integerPattern_iff {s : List Char} :
    Matches integerPattern s ↔
      ∃ ds, (s = ds ∨ s = '-' :: ds) ∧ ds ≠ [] ∧ ∀ d ∈ ds, d.isDigit = true := by
  rw [integerPattern, matches_seq_iff]
  constructor
  · rintro ⟨u, v, rfl, hu, hv⟩
    refine ⟨v, ?_, matches_plus_oneOf_iff.1 hv⟩
    rcases matches_opt_iff.1 hu with hu | rfl
    · rw [matches_char_iff.1 hu]
      exact .inr rfl
    · exact .inl rfl
  · rintro ⟨ds, rfl | rfl, hds⟩
    · exact ⟨[], _, rfl, matches_opt_iff.2 (.inr rfl), matches_plus_oneOf_iff.2 hds⟩
    · exact ⟨['-'], _, rfl, matches_opt_iff.2 (.inl (matches_char_iff.2 rfl)),
        matches_plus_oneOf_iff.2 hds⟩

theorem matches_floatPattern_iff {s : List Char} :
    Matches floatPattern s ↔
      ∃ i ds, s = i ++ '.' :: ds ∧ Matches integerPattern i ∧ ∀ d ∈ ds, d.isDigit = true := by
  rw [floatPattern, matches_seq_iff]
  constructor
  · rintro ⟨i, v, rfl, hi, hv⟩
    obtain ⟨p, ds, rfl, hp, hds⟩ := matches_seq_iff.1 hv
    rw [matches_char_iff.1 hp]
    exact ⟨i, ds, rfl, hi, matches_star_oneOf_iff.1 hds⟩
  · rintro ⟨i, ds, rfl, hi, hds⟩
    exact ⟨i, _, rfl, hi, matches_seq_iff.2 ⟨['.'], ds, rfl, matches_char_iff.2 rfl,
      matches_star_oneOf_iff.2 hds⟩⟩

/-- What is left of an integer is an integer, or the minus of it. -/
theorem isSpelled_of_integer {a b : List Char} (ha : a ≠ []) (h : Matches integerPattern (a ++ b)) :
    IsSpelled a := by
  obtain ⟨ds, hds, _, hdigits⟩ := matches_integerPattern_iff.1 h
  rcases hds with rfl | hds
  · have hleft : ∀ d ∈ a, d.isDigit = true := fun d hd => hdigits d (List.mem_append_left b hd)
    exact .inl (matches_integerPattern_iff.2 ⟨a, .inl rfl, ha, hleft⟩)
  · obtain ⟨c, a, rfl⟩ := List.exists_cons_of_ne_nil ha
    obtain ⟨rfl, rfl⟩ := List.cons.inj hds
    cases a with
    | nil => exact .inr (.inr (by decide))
    | cons d a =>
        refine .inl (matches_integerPattern_iff.2 ⟨d :: a, .inr rfl, List.cons_ne_nil d a, ?_⟩)
        exact fun e he => hdigits e (List.mem_append_left b he)

theorem isSpelled_of_float {a b : List Char} (ha : a ≠ []) (h : Matches floatPattern (a ++ b)) :
    IsSpelled a := by
  obtain ⟨i, ds, hsplit, hi, hds⟩ := matches_floatPattern_iff.1 h
  rcases List.append_eq_append_iff.1 hsplit with ⟨m, rfl, _⟩ | ⟨m, rfl, hm⟩
  · exact isSpelled_of_integer ha hi
  · -- the cut is behind the integer, and so perhaps behind the point
    cases m with
    | nil => exact .inl (by rwa [List.append_nil])
    | cons p m =>
        obtain ⟨rfl, rfl⟩ := List.cons.inj hm
        refine .inr (.inl (matches_floatPattern_iff.2 ⟨i, m, rfl, hi, fun d hd => ?_⟩))
        exact hds d (List.mem_append_left b hd)

theorem isSpelled_of_symbol {a b : List Char} (ha : a ≠ []) (h : Matches symbolPattern (a ++ b)) :
    IsSpelled a := by
  have hparts : ∀ {a : List Char}, (∀ c ∈ a ++ b, isSymbolPart c = true) →
      Matches (.star (.oneOf isSymbolPart)) a := fun hall =>
    matches_star_oneOf_iff.2 fun c hc => hall c (List.mem_append_left b hc)
  obtain ⟨c, a, rfl⟩ := List.exists_cons_of_ne_nil ha
  refine .inr (.inr ?_)
  rw [symbolPattern, List.cons_append, matches_alt_iff, matches_oneOf_seq_cons_iff,
    matches_char_seq_cons_iff] at h
  rw [symbolPattern, matches_alt_iff, matches_oneOf_seq_cons_iff, matches_char_seq_cons_iff]
  rcases h with ⟨hc, hrest⟩ | ⟨rfl, hrest⟩
  · exact .inl ⟨hc, hparts (matches_star_oneOf_iff.1 hrest)⟩
  · refine .inr ⟨rfl, matches_opt_iff.2 ?_⟩
    cases a with
    | nil => exact .inr rfl
    | cons d a =>
        rcases matches_opt_iff.1 hrest with hrest | hnil
        · rw [List.cons_append, matches_oneOf_seq_cons_iff] at hrest
          refine .inl (matches_oneOf_seq_cons_iff.2 ⟨hrest.1, ?_⟩)
          exact hparts (matches_star_oneOf_iff.1 hrest.2)
        · cases hnil

/-- **What is left of a number or a symbol is one.** -/
theorem IsSpelled.of_append {a b : List Char} (ha : a ≠ []) (h : IsSpelled (a ++ b)) :
    IsSpelled a := by
  rcases h with h | h | h
  · exact isSpelled_of_integer ha h
  · exact isSpelled_of_float ha h
  · exact isSpelled_of_symbol ha h

/-- An atom is a dot, is spelled like a number or a symbol, or is an error. -/
theorem atom_cases (text : List Char) :
    text = ['.'] ∨ IsSpelled text ∨
      ∃ e, ((ofAtom text).read text).yield = [.error e] := by
  by_cases hdot : text = ['.']
  · exact .inl hdot
  · by_cases hspelled : IsSpelled text
    · exact .inr (.inl hspelled)
    · simp only [IsSpelled, not_or] at hspelled
      refine .inr (.inr ⟨malformedAtom text, ?_⟩)
      rw [ofAtom, if_neg hspelled.1, if_neg hspelled.2.1, if_neg hspelled.2.2, if_neg hdot]
      rfl

/-- An integer that does not fit is an error, every other number and every symbol is an atom. -/
theorem IsSpelled.read {text : List Char} (h : IsSpelled text) :
    (∃ t : Token, t.isAtom = true ∧ ((ofAtom text).read text).yield = [.ok t]) ∨
      (Matches integerPattern text ∧
        ((ofAtom text).read text).yield = [.error (.invalidNumber (String.ofList text))]) := by
  by_cases hint : Matches integerPattern text
  · rw [ofAtom, if_pos hint, Rule.read]
    cases Number.fit (integerValue text) with
    | ok i => exact .inl ⟨.integer i, rfl, rfl⟩
    | error e => exact .inr ⟨hint, rfl⟩
  · refine .inl ?_
    by_cases hfloat : Matches floatPattern text
    · rw [ofAtom, if_neg hint, if_pos hfloat]
      exact ⟨.float (floatValue text), rfl, rfl⟩
    · have hsymbol : Matches symbolPattern text := (h.resolve_left hint).resolve_left hfloat
      rw [ofAtom_symbol hsymbol]
      exact ⟨.symbol (String.ofList text), rfl, rfl⟩

/-! ## Patches -/

/-- **What may be put behind a text to complete its last token**: nothing, the point that makes a
float of an integer, or the quote that ends a string, behind a backslash if the string ends in one
that waits for a character. -/
def patches : List (List Char) := [[], ['.'], ['"'], ['\\', '"']]

/-- Contents are the beginning of others, as far as a reader can tell: there is nothing in them, the
token that comes first, or some other atom in its place. -/
inductive Begins : List (Except LexicalError Token) → List (Except LexicalError Token) → Prop
  | nothing (later : List (Except LexicalError Token)) : Begins [] later
  | token (t : Token) (later : List (Except LexicalError Token)) : Begins [.ok t] (.ok t :: later)
  | atom {t t' : Token} (ht : t.isAtom = true) (ht' : t'.isAtom = true)
      (later : List (Except LexicalError Token)) : Begins [.ok t] (.ok t' :: later)

/-- **The last token is one that more text may mend**: a string without its end, or an integer that
is too large. -/
def Mendable (cs : List (Except LexicalError Token)) : Prop :=
  .error .unterminatedString ∈ cs ∨ ∃ text, Matches integerPattern text ∧
    cs.getLast? = some (.error (.invalidNumber (String.ofList text)))

theorem Mendable.append {cs : List (Except LexicalError Token)} (h : Mendable cs)
    (front : List (Except LexicalError Token)) : Mendable (front ++ cs) := by
  rcases h with h | ⟨text, htext, hlast⟩
  · exact .inl (List.mem_append_right front h)
  · refine .inr ⟨text, htext, ?_⟩
    rw [List.getLast?_append, hlast]
    rfl

/-- A string that is open can be closed, by a quote or behind a backslash. -/
theorem exists_string_patch {cs : List Char} (hopen : Text.unescape cs = none) :
    ∃ patch ∈ [['"'], ['\\', '"']], ∃ s, Text.unescape (cs ++ patch) = some s ∧
      stringExtra (cs ++ patch) = (cs ++ patch).length := by
  induction cs using stringInduction with
  | nil => exact ⟨['"'], by simp, [], rfl, rfl⟩
  | broken => exact ⟨['\\', '"'], by simp, ['\\'], rfl, rfl⟩
  | escape d cs ih =>
      have hcs : Text.unescape cs = none := by simpa [Text.unescape] using hopen
      obtain ⟨patch, hpatch, s, hs, hextra⟩ := ih hcs
      refine ⟨patch, hpatch, (if d = 'n' then '\n' else d) :: s, ?_, ?_⟩
      · simp [Text.unescape, hs]
      · simp [stringExtra, hextra]
  | quote cs => simp [Text.unescape] at hopen
  | plain c cs hq hb ih =>
      have hcs : Text.unescape cs = none := by simpa [unescape_plain hq hb] using hopen
      obtain ⟨patch, hpatch, s, hs, hextra⟩ := ih hcs
      refine ⟨patch, hpatch, c :: s, ?_, ?_⟩
      · rw [List.cons_append, unescape_plain hq hb, hs]
        rfl
      · rw [List.cons_append, stringExtra_plain hq hb, hextra]
        rfl

section

variable {c : Char} {cs : List Char}

/-- An atom goes on with what follows it. -/
theorem contents_atom_more (hc : isAtomStart c = true) (hcs : ∀ d ∈ cs, (!isDelimiter d) = true)
    (more : List Char) :
    contents (c :: cs ++ more) =
      ((ofAtom (c :: cs ++ atomRest more)).read (c :: cs ++ atomRest more)).yield ++
        contents (more.drop (atomRest more).length) := by
  have hrest : atomRest (cs ++ more) = cs ++ atomRest more := List.takeWhile_append_of_pos hcs
  rw [List.cons_append, contents_atom hc, hrest, List.length_append, ← List.drop_drop,
    List.drop_left]
  rfl

theorem exists_atom_patch (hc : isAtomStart c = true) (hcs : ∀ d ∈ cs, (!isDelimiter d) = true)
    {more : List Char} (hclean : ∀ e, .error e ∉ contents (c :: cs ++ more)) :
    ∃ patch ∈ patches, Begins (contents (c :: cs ++ patch)) (contents (c :: cs ++ more)) ∧
      (patch = [] ∨ Mendable (contents (c :: cs))) := by
  have hmore := contents_atom_more hc hcs more
  have hself := contents_atom_more hc hcs []
  rw [hmore] at hclean ⊢
  simp only [atomRest, List.takeWhile_nil, List.append_nil, List.length_nil, List.drop_nil,
    contents_nil] at hself
  rcases atom_cases (c :: cs ++ atomRest more) with hdot | hspelled | ⟨e, herror⟩
  · -- a dot goes on with nothing
    obtain ⟨rfl, hnil⟩ := List.cons.inj hdot
    obtain ⟨rfl, hrest⟩ := List.append_eq_nil_iff.1 hnil
    refine ⟨[], by simp [patches], ?_, .inl rfl⟩
    rw [List.append_nil, hself, hdot]
    exact .token .dot _
  · obtain ⟨t', ht', hlong⟩ : ∃ t : Token, t.isAtom = true ∧
        ((ofAtom (c :: cs ++ atomRest more)).read (c :: cs ++ atomRest more)).yield = [.ok t] := by
      refine hspelled.read.resolve_right fun herror => ?_
      rw [herror.2] at hclean
      exact hclean _ List.mem_cons_self
    rw [hlong]
    rcases (hspelled.of_append (List.cons_ne_nil c cs)).read with ⟨t, ht, hshort⟩ | ⟨hint, hshort⟩
    · refine ⟨[], by simp [patches], ?_, .inl rfl⟩
      rw [List.append_nil, hself, hshort]
      exact .atom ht ht' _
    · -- an integer that is too large is the start of a float
      refine ⟨['.'], by simp [patches], ?_, .inr (.inr ⟨_, hint, ?_⟩)⟩
      · have hfloat : Matches floatPattern (c :: cs ++ ['.']) :=
          matches_floatPattern_iff.2 ⟨_, [], rfl, hint, nofun⟩
        have hpoint : atomRest ['.'] = ['.'] := by decide
        rw [contents_atom_more hc hcs, hpoint, List.drop_length, contents_nil, ofAtom,
          if_neg (not_matches_integer_of_float hfloat), if_pos hfloat]
        exact .atom (t := .float (floatValue (c :: cs ++ ['.']))) rfl ht' _
      · rw [hself, hshort]
        rfl
  · rw [herror] at hclean
    exact absurd List.mem_cons_self (hclean e)

end

/-- **One of the patches completes the last token**, if it can be completed at all. -/
theorem Ending.exists_patch {last : List Char} (hlast : Ending last) {more : List Char}
    (hclean : ∀ e, .error e ∉ contents (last ++ more)) :
    ∃ patch ∈ patches, Begins (contents (last ++ patch)) (contents (last ++ more)) ∧
      (patch = [] ∨ Mendable (contents last)) := by
  cases hlast with
  | nothing =>
      refine ⟨[], by simp [patches], ?_, .inl rfl⟩
      rw [List.append_nil, contents_nil]
      exact .nothing _
  | @comment line hline =>
      refine ⟨[], by simp [patches], ?_, .inl rfl⟩
      rw [List.append_nil, contents_comment, List.dropWhile_eq_nil_iff.2 hline, contents_nil]
      exact .nothing _
  | atom hc hcs => exact exists_atom_patch hc hcs hclean
  | @string cs hopen =>
      obtain ⟨patch, hpatch, s, hs, hextra⟩ := exists_string_patch hopen
      have hmem : patch ∈ patches := List.mem_cons_of_mem _ (List.mem_cons_of_mem _ hpatch)
      refine ⟨patch, hmem, ?_, .inr (.inl ?_)⟩
      · rw [List.cons_append, contents_string, hextra, List.drop_length, contents_nil,
          stringContent, hs]
        rw [List.cons_append, contents_string] at hclean ⊢
        rw [stringContent] at hclean ⊢
        cases hmore : Text.unescape (cs ++ more) with
        | none =>
            rw [hmore] at hclean
            exact absurd List.mem_cons_self (hclean _)
        | some s' => exact .atom rfl rfl _
      · rw [contents_string, stringContent, hopen]
        exact List.mem_cons_self

end SmallLisp
