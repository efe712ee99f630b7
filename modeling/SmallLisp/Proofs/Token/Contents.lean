import SmallLisp.Proofs.Token.Choice

set_option autoImplicit false

/-! # The contents of a text

`contents` is what a text says to a reader: its tokens and lexical errors in order, without
their places. The equations below compute it from the first character on, one family of rules
at a time, and `scanInduction` is the induction that goes with them. Nothing after this file
has to look at patterns or priorities again.

Texts can be cut at line ends (`contents_append_startsLine`): unless a string is left open, the
contents of a text and of what follows its line end are the contents of the whole.
-/

namespace SmallLisp

open Rule

/-- **The contents of a text**: its tokens and lexical errors, without their spans. -/
def contents (source : List Char) : List (Except LexicalError Token) :=
  (items source).map Located.content

/-- What a piece contributes to the contents. -/
def Rule.Content.yield : Rule.Content → List (Except LexicalError Token)
  | .skipped => []
  | .token t => [.ok t]
  | .error e => [.error e]

theorem map_content_locate (start : Nat) (ps : List Piece) :
    (locate start ps).map Located.content = ps.flatMap (·.content.yield) := by
  induction ps generalizing start with
  | nil => rfl
  | cons p ps ih =>
      rw [List.flatMap_cons]
      simp only [locate]
      cases p.content with
      | skipped => exact ih _
      | token t => exact congrArg _ (ih _)
      | error e => exact congrArg _ (ih _)

theorem contents_eq_flatMap (source : List Char) :
    contents source = (pieces source).flatMap (·.content.yield) :=
  map_content_locate 0 (pieces source)

/-! ## One piece at a time -/

@[simp]
theorem contents_nil : contents [] = [] := by
  simp [contents_eq_flatMap, pieces]

theorem contents_cons_of_choose {c : Char} {cs : List Char} {r : Rule} {n : Nat}
    (h : choose c cs = some ⟨r, n⟩) :
    contents (c :: cs) = (r.read (c :: cs.take n)).yield ++ contents (cs.drop n) := by
  rw [contents_eq_flatMap, contents_eq_flatMap, pieces, h]
  rfl

/-- Dropping a run of a class is dropping as many characters as the run has. -/
theorem drop_length_takeWhile (chars : Char → Bool) (cs : List Char) :
    cs.drop (cs.takeWhile chars).length = cs.dropWhile chars := by
  calc cs.drop (cs.takeWhile chars).length
      = (cs.takeWhile chars ++ cs.dropWhile chars).drop (cs.takeWhile chars).length := by
        rw [List.takeWhile_append_dropWhile]
    _ = cs.dropWhile chars := List.drop_left

theorem contents_dropWhile_isSkipped (cs : List Char) :
    contents (cs.dropWhile Text.isSkipped) = contents cs := by
  cases cs with
  | nil => rfl
  | cons c cs =>
      by_cases hc : Text.isSkipped c = true
      · rw [contents_cons_of_choose (choose_blank hc cs), drop_length_takeWhile,
          List.dropWhile_cons, if_pos hc]
        rfl
      · rw [List.dropWhile_cons, if_neg hc]

/-- Blanks add nothing. -/
theorem contents_blank {c : Char} (hc : Text.isSkipped c = true) (cs : List Char) :
    contents (c :: cs) = contents cs := by
  rw [contents_cons_of_choose (choose_blank hc cs), drop_length_takeWhile,
    contents_dropWhile_isSkipped]
  rfl

/-- A comment adds nothing and ends before the next line feed. -/
theorem contents_comment (cs : List Char) :
    contents (';' :: cs) = contents (cs.dropWhile (· != '\n')) := by
  rw [contents_cons_of_choose (choose_comment cs), drop_length_takeWhile]
  rfl

theorem contents_leftParen (cs : List Char) :
    contents ('(' :: cs) = .ok .leftParen :: contents cs :=
  contents_cons_of_choose (choose_leftParen cs)

theorem contents_rightParen (cs : List Char) :
    contents (')' :: cs) = .ok .rightParen :: contents cs :=
  contents_cons_of_choose (choose_rightParen cs)

theorem contents_quote (cs : List Char) :
    contents ('\x27' :: cs) = .ok .quote :: contents cs :=
  contents_cons_of_choose (choose_quote cs)

/-- Whitespace that may not be skipped is an error of one character. -/
theorem contents_stray {c : Char} (hw : Text.isWhitespace c = true)
    (hs : Text.isSkipped c = false) (cs : List Char) :
    contents (c :: cs) = .error .invalidToken :: contents cs := by
  rw [contents_eq_flatMap, contents_eq_flatMap, pieces, choose_stray hw hs]
  rfl

/-- An atom is read as a whole, up to the next delimiter. -/
theorem contents_atom {c : Char} (hc : isAtomStart c = true) (cs : List Char) :
    contents (c :: cs) =
      ((ofAtom (c :: atomRest cs)).read (c :: atomRest cs)).yield ++
        contents (cs.drop (atomRest cs).length) := by
  have htake : cs.take (atomRest cs).length = atomRest cs :=
    (List.prefix_iff_eq_take.1 (List.takeWhile_prefix _)).symm
  rw [contents_cons_of_choose (choose_atom hc cs), htake]

/-! ## Strings -/

/-- What a string is, given all that follows its opening quote. -/
def stringContent (cs : List Char) : Except LexicalError Token :=
  match Text.unescape cs with
  | some s => .ok (.string (String.ofList s))
  | none => .error .unterminatedString

theorem unescape_plain {c : Char} (hq : c ≠ '"') (hb : c ≠ '\\') (cs : List Char) :
    Text.unescape (c :: cs) = (Text.unescape cs).map (c :: ·) := by
  rw [Text.unescape, if_neg hq]
  · exact fun h _ => hb h
  · exact fun d ds h _ => hb h

theorem stringExtra_plain {c : Char} (hq : c ≠ '"') (hb : c ≠ '\\') (cs : List Char) :
    stringExtra (c :: cs) = stringExtra cs + 1 := by
  rw [stringExtra, if_neg hq]
  · exact fun h _ => hb h
  · exact fun d ds h _ => hb h

/-- An induction over the body of a string: it ends, breaks off behind a backslash, goes on with
an escaped or with a plain character, or is closed. -/
theorem stringInduction {motive : List Char → Prop} (nil : motive []) (broken : motive ['\\'])
    (escape : ∀ d cs, motive cs → motive ('\\' :: d :: cs)) (quote : ∀ cs, motive ('"' :: cs))
    (plain : ∀ c cs, c ≠ '"' → c ≠ '\\' → motive cs → motive (c :: cs)) :
    ∀ cs, motive cs := by
  intro cs
  fun_induction stringExtra cs with
  | case1 => exact nil
  | case2 => exact broken
  | case3 d cs ih => exact escape d cs ih
  | case4 cs _ _ => exact quote cs
  | case5 c cs h1 h2 hq ih =>
      refine plain c cs hq ?_ ih
      rintro rfl
      cases cs with
      | nil => exact h1 rfl rfl
      | cons d cs => exact h2 d cs rfl rfl

/-- Reading a string looks no further than the string reaches. -/
theorem unescape_take_stringExtra (cs : List Char) :
    Text.unescape (cs.take (stringExtra cs)) = Text.unescape cs := by
  induction cs using stringInduction with
  | nil => rfl
  | broken => rfl
  | escape d cs ih => simp only [stringExtra, List.take_succ_cons, Text.unescape, ih]
  | quote cs => simp [stringExtra, Text.unescape]
  | plain c cs hq hb ih =>
      rw [stringExtra_plain hq hb, List.take_succ_cons, unescape_plain hq hb,
        unescape_plain hq hb, ih]

theorem contents_string (cs : List Char) :
    contents ('"' :: cs) = stringContent cs :: contents (cs.drop (stringExtra cs)) := by
  rw [contents_cons_of_choose (choose_string cs)]
  simp only [Rule.read, List.drop_succ_cons, List.drop_zero, unescape_take_stringExtra,
    stringContent]
  cases Text.unescape cs <;> rfl

/-! ## Induction over a text -/

theorem opens_cases (c : Char) :
    Text.isSkipped c = true ∨ c = ';' ∨ c = '(' ∨ c = ')' ∨ c = '\x27' ∨ c = '"' ∨
      (Text.isWhitespace c = true ∧ Text.isSkipped c = false) ∨ isAtomStart c = true := by
  by_cases hs : Text.isSkipped c = true
  · exact .inl hs
  · by_cases hw : Text.isWhitespace c = true
    · simp [hw, hs]
    · -- what is no delimiter and no quote begins an atom
      simp only [isAtomStart, isDelimiter, hs, hw, Bool.false_or, Bool.not_or, Bool.and_eq_true,
        Bool.not_eq_eq_eq_not, Bool.not_true, beq_eq_false_iff_ne, bne_iff_ne, ne_eq]
      tauto

/-- **Induction along the pieces of a text**, with one case for each family of rules. -/
theorem scanInduction {motive : List Char → Prop} (nil : motive [])
    (blank : ∀ c cs, Text.isSkipped c = true → motive cs → motive (c :: cs))
    (comment : ∀ cs, motive (cs.dropWhile (· != '\n')) → motive (';' :: cs))
    (leftParen : ∀ cs, motive cs → motive ('(' :: cs))
    (rightParen : ∀ cs, motive cs → motive (')' :: cs))
    (quote : ∀ cs, motive cs → motive ('\x27' :: cs))
    (string : ∀ cs, motive (cs.drop (stringExtra cs)) → motive ('"' :: cs))
    (stray : ∀ c cs, Text.isWhitespace c = true → Text.isSkipped c = false → motive cs →
      motive (c :: cs))
    (atom : ∀ c cs, isAtomStart c = true → motive (cs.drop (atomRest cs).length) →
      motive (c :: cs)) :
    ∀ text, motive text := by
  intro text
  induction hn : text.length using Nat.strongRecOn generalizing text with
  | _ n ih =>
      cases text with
      | nil => exact nil
      | cons c cs =>
          -- whatever the first character begins, the rest is shorter
          have hrest : ∀ rest : List Char, rest.length ≤ cs.length → motive rest := by
            intro rest hlen
            exact ih rest.length (by rw [← hn, List.length_cons]; omega) rest rfl
          rcases opens_cases c with hc | rfl | rfl | rfl | rfl | rfl | ⟨hw, hs⟩ | hc
          · exact blank c cs hc (hrest cs (Nat.le_refl _))
          · exact comment cs (hrest _ (List.dropWhile_suffix _).length_le)
          · exact leftParen cs (hrest cs (Nat.le_refl _))
          · exact rightParen cs (hrest cs (Nat.le_refl _))
          · exact quote cs (hrest cs (Nat.le_refl _))
          · exact string cs (hrest _ (List.drop_suffix _ _).length_le)
          · exact stray c cs hw hs (hrest cs (Nat.le_refl _))
          · exact atom c cs hc (hrest _ (List.drop_suffix _ _).length_le)

/-! ## Cutting a text at a line end -/

/-- A text that begins with a line end, or is empty. -/
def StartsLine (b : List Char) : Prop :=
  b = [] ∨ (∃ rest, b = '\n' :: rest) ∨ ∃ rest, b = '\r' :: '\n' :: rest

theorem StartsLine.atomRest_eq_nil {b : List Char} (hb : StartsLine b) : atomRest b = [] := by
  rcases hb with rfl | ⟨rest, rfl⟩ | ⟨rest, rfl⟩
  · rfl
  · exact List.takeWhile_cons_of_neg (by decide)
  · exact List.takeWhile_cons_of_neg (by decide)

/-- A comment that runs into a line end takes none of what follows. -/
theorem StartsLine.contents_dropWhile {b : List Char} (hb : StartsLine b) :
    contents (b.dropWhile (· != '\n')) = contents b := by
  rcases hb with rfl | ⟨rest, rfl⟩ | ⟨rest, rfl⟩
  · rfl
  · rw [List.dropWhile_cons_of_neg (by decide)]
  · rw [List.dropWhile_cons_of_pos (by decide), List.dropWhile_cons_of_neg (by decide),
      contents_blank (by decide : Text.isSkipped '\r' = true)]

theorem atomRest_append {b : List Char} (hb : atomRest b = []) (cs : List Char) :
    atomRest (cs ++ b) = atomRest cs := by
  unfold atomRest at hb ⊢
  rw [List.takeWhile_append]
  split
  · rename_i hlen
    rw [hb, List.append_nil]
    exact ((List.takeWhile_prefix _).eq_of_length hlen).symm
  · rfl

theorem contents_dropWhile_append {b : List Char} (hb : StartsLine b) (cs : List Char) :
    contents ((cs ++ b).dropWhile (· != '\n')) = contents (cs.dropWhile (· != '\n') ++ b) := by
  rw [List.dropWhile_append]
  split
  · rename_i h
    rw [List.isEmpty_iff.1 h, hb.contents_dropWhile]
    rfl
  · rfl

/-- A string that is closed is not affected by what follows. -/
theorem unescape_append_of_some {cs s : List Char} (h : Text.unescape cs = some s)
    (b : List Char) :
    Text.unescape (cs ++ b) = some s ∧ stringExtra (cs ++ b) = stringExtra cs := by
  induction cs using stringInduction generalizing s with
  | nil => cases h
  | broken => cases h
  | escape d cs ih =>
      obtain ⟨t, ht, rfl⟩ := Option.map_eq_some_iff.1 h
      have hcs := ih ht
      exact ⟨by simp [Text.unescape, hcs.1], by simp [stringExtra, hcs.2]⟩
  | quote cs => exact ⟨by simpa [Text.unescape] using h, by simp [stringExtra]⟩
  | plain c cs hq hb ih =>
      rw [unescape_plain hq hb] at h
      obtain ⟨t, ht, rfl⟩ := Option.map_eq_some_iff.1 h
      have hcs := ih ht
      rw [List.cons_append, unescape_plain hq hb, stringExtra_plain hq hb,
        stringExtra_plain hq hb, hcs.1, hcs.2]
      exact ⟨rfl, rfl⟩

theorem stringExtra_le (cs : List Char) : stringExtra cs ≤ cs.length :=
  (longest_stringBody cs).1

/-- A string that is open stays open as long as no quote follows. -/
theorem unescape_append_of_none {cs b : List Char} (h : Text.unescape cs = none)
    (hb : '"' ∉ b) : Text.unescape (cs ++ b) = none := by
  have hclean : ∀ b : List Char, '"' ∉ b → Text.unescape b = none := by
    intro b
    induction b using stringInduction with
    | nil => exact fun _ => rfl
    | broken => exact fun _ => rfl
    | escape d cs ih =>
        intro hd
        simp [Text.unescape, ih (fun hmem => hd (by simp [hmem]))]
    | quote cs => exact fun hd => absurd List.mem_cons_self hd
    | plain c cs hq hb ih =>
        intro hd
        rw [unescape_plain hq hb, ih (fun hmem => hd (List.mem_cons_of_mem c hmem))]
        rfl
  induction cs using stringInduction with
  | nil => exact hclean b hb
  | broken =>
      -- the backslash takes the first character of what follows with it
      cases b with
      | nil => rfl
      | cons d b =>
          have hrest := hclean b (fun hmem => hb (List.mem_cons_of_mem d hmem))
          show Text.unescape ('\\' :: d :: b) = none
          rw [Text.unescape, hrest]
          rfl
  | escape d cs ih =>
      have hcs : Text.unescape cs = none := by simpa [Text.unescape] using h
      simp [Text.unescape, ih hcs]
  | quote cs => simp [Text.unescape] at h
  | plain c cs hq hb' ih =>
      have hcs : Text.unescape cs = none := by simpa [unescape_plain hq hb'] using h
      rw [List.cons_append, unescape_plain hq hb', ih hcs]
      rfl

/-- What a cut of `a ++ b` between its two parts does to the contents: either nothing, or `a`
leaves a string open, which only a quote in `b` can close. -/
def Cut (a b : List Char) : Prop :=
  contents (a ++ b) = contents a ++ contents b ∨
    (.error .unterminatedString ∈ contents a ∧
      ('"' ∉ b → .error .unterminatedString ∈ contents (a ++ b)))

/-- Contents in front do not matter for a cut. -/
theorem Cut.of_suffix {a a' b : List Char} (front : List (Except LexicalError Token))
    (hab : contents (a ++ b) = front ++ contents (a' ++ b))
    (ha : contents a = front ++ contents a') (h : Cut a' b) : Cut a b := by
  unfold Cut
  rw [hab, ha]
  rcases h with h | ⟨hopen, hstays⟩
  · exact .inl (by rw [h, List.append_assoc])
  · exact .inr ⟨List.mem_append_right front hopen,
      fun hb => List.mem_append_right front (hstays hb)⟩

theorem cut_of_startsLine {b : List Char} (hb : StartsLine b) (a : List Char) : Cut a b := by
  -- along the pieces of `a`: each but the last is the same piece whether `b` follows or not
  induction a using scanInduction with
  | nil => exact .inl (by rw [contents_nil]; rfl)
  | blank c cs hc ih =>
      exact ih.of_suffix [] (contents_blank hc (cs ++ b)) (contents_blank hc cs)
  | comment cs ih =>
      -- a comment may run into `b`, but not beyond the line end that `b` begins with
      refine ih.of_suffix [] ?_ (contents_comment cs)
      rw [List.cons_append, contents_comment, contents_dropWhile_append hb]
      rfl
  | leftParen cs ih =>
      exact ih.of_suffix [_] (contents_leftParen (cs ++ b)) (contents_leftParen cs)
  | rightParen cs ih =>
      exact ih.of_suffix [_] (contents_rightParen (cs ++ b)) (contents_rightParen cs)
  | quote cs ih => exact ih.of_suffix [_] (contents_quote (cs ++ b)) (contents_quote cs)
  | stray c cs hw hs ih =>
      exact ih.of_suffix [_] (contents_stray hw hs (cs ++ b)) (contents_stray hw hs cs)
  | atom c cs hc ih =>
      refine ih.of_suffix _ ?_ (contents_atom hc cs)
      have hlen : (atomRest cs).length ≤ cs.length := (List.takeWhile_prefix _).length_le
      rw [List.cons_append, contents_atom hc (cs ++ b), atomRest_append hb.atomRest_eq_nil,
        List.drop_append_of_le_length hlen]
  | string cs ih =>
      cases hs : Text.unescape cs with
      | some s =>
          obtain ⟨hclosed, hextra⟩ := unescape_append_of_some hs b
          refine ih.of_suffix [_] ?_ (contents_string cs)
          rw [List.cons_append, contents_string (cs ++ b), hextra, stringContent, stringContent,
            hclosed, hs, List.drop_append_of_le_length (stringExtra_le cs)]
          rfl
      | none =>
          -- the one piece that reaches across the cut
          refine .inr ⟨?_, fun hquote => ?_⟩
          · rw [contents_string, stringContent, hs]
            exact List.mem_cons_self
          · rw [List.cons_append, contents_string, stringContent,
              unescape_append_of_none hs hquote]
            exact List.mem_cons_self

/-- **A text can be cut at a line end**, unless a string is open there. -/
theorem contents_append_startsLine {a b : List Char} (hb : StartsLine b)
    (ha : .error .unterminatedString ∉ contents a) :
    contents (a ++ b) = contents a ++ contents b :=
  (cut_of_startsLine hb a).resolve_right fun h => ha h.1

/-- A string that is open at a line end is still open behind it. -/
theorem unterminated_append_startsLine {a b : List Char} (hb : StartsLine b) (hq : '"' ∉ b)
    (ha : .error .unterminatedString ∈ contents a) :
    .error .unterminatedString ∈ contents (a ++ b) := by
  rcases cut_of_startsLine hb a with h | h
  · rw [h]
    exact List.mem_append_left _ ha
  · exact h.2 hq

end SmallLisp
