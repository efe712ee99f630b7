import SmallLisp.Proofs.Token.Written

set_option autoImplicit false

/-! # Cutting at delimiters

The lexer lets eleven patterns compete at every place. For atoms there is a simpler way to say
what comes out: cut the text at the delimiters, then look at each run between two of them as a
whole. `IsRun` is the cut and `Verdict` is what a run is, said by the patterns alone and without
lengths or priorities. The main result is that every item that begins like an atom is such a run
with its verdict, so that no number, symbol or dot is ever followed by anything but a delimiter.

Before that the items of a text are traced back to the places they come from
(`exists_piece_of_mem_items`): an item is the first piece of what is left of the text there.
-/

namespace SmallLisp

open Pattern Rule

/-! ## The place of an item -/

/-- Two starts of one text that take the same number of bytes are the same. -/
theorem append_inj_of_byteLength {a b a' b' : List Char} (h : a ++ b = a' ++ b')
    (hlen : Text.byteLength a = Text.byteLength a') : a = a' ∧ b = b' := by
  rcases List.append_eq_append_iff.1 h with ⟨m, rfl, rfl⟩ | ⟨m, rfl, rfl⟩
  · -- the one start goes on with `m` behind the other, and `m` takes no bytes
    obtain rfl : m = [] := by
      by_contra hm
      have := Text.byteLength_pos hm
      rw [Text.byteLength_append] at hlen
      omega
    simp
  · obtain rfl : m = [] := by
      by_contra hm
      have := Text.byteLength_pos hm
      rw [Text.byteLength_append] at hlen
      omega
    simp

/-- The text that consecutive pieces cover. -/
def coverage (ps : List Piece) : List Char := (ps.map Piece.text).flatten

@[simp]
theorem coverage_nil : coverage [] = [] := rfl

@[simp]
theorem coverage_cons (p : Piece) (ps : List Piece) : coverage (p :: ps) = p.text ++ coverage ps :=
  rfl

theorem mem_locate {start : Nat} {ps : List Piece} {item : Item} (h : item ∈ locate start ps) :
    ∃ before p after, ps = before ++ p :: after ∧ p.content.yield = [item.content] ∧
      item.span.start = start + Text.byteLength (coverage before) ∧
      item.span.stop = item.span.start + Text.byteLength p.text := by
  induction ps generalizing start with
  | nil => cases h
  | cons p ps ih =>
      have hlater : item ∈ locate (start + Text.byteLength p.text) ps →
          ∃ before q after, p :: ps = before ++ q :: after ∧ q.content.yield = [item.content] ∧
            item.span.start = start + Text.byteLength (coverage before) ∧
            item.span.stop = item.span.start + Text.byteLength q.text := by
        intro hmem
        obtain ⟨before, q, after, rfl, hq, hstart, hstop⟩ := ih hmem
        refine ⟨p :: before, q, after, rfl, hq, ?_, hstop⟩
        rw [hstart, coverage_cons, Text.byteLength_append]
        omega
      simp only [locate] at h
      cases hp : p.content with
      | skipped =>
          rw [hp] at h
          exact hlater h
      | token t =>
          rw [hp] at h
          rcases List.mem_cons.1 h with rfl | h
          · exact ⟨[], p, ps, rfl, by rw [hp]; rfl, rfl, rfl⟩
          · exact hlater h
      | error e =>
          rw [hp] at h
          rcases List.mem_cons.1 h with rfl | h
          · exact ⟨[], p, ps, rfl, by rw [hp]; rfl, rfl, rfl⟩
          · exact hlater h

/-- The pieces of a text from some piece on are those of the text that is left there. -/
theorem pieces_of_append {text : List Char} {before : List Piece} {p : Piece}
    {after : List Piece} (h : pieces text = before ++ p :: after) :
    ∃ rest, text = coverage before ++ rest ∧ pieces rest = p :: after := by
  induction before generalizing text with
  | nil => exact ⟨text, rfl, h⟩
  | cons q before ih =>
      cases text with
      | nil =>
          rw [pieces] at h
          cases h
      | cons c cs =>
          -- whichever rule applies, the later pieces are the pieces of a rest of the text
          have hstep : ∃ rest, c :: cs = q.text ++ rest ∧ pieces rest = before ++ p :: after := by
            rw [pieces, List.cons_append] at h
            split at h
            · rename_i m _
              obtain ⟨rfl, hrest⟩ := List.cons.inj h
              exact ⟨cs.drop m.extra, by simp, hrest⟩
            · obtain ⟨rfl, hrest⟩ := List.cons.inj h
              exact ⟨cs, rfl, hrest⟩
          obtain ⟨rest, htext, hrest⟩ := hstep
          obtain ⟨rest', rfl, hpieces⟩ := ih hrest
          exact ⟨rest', by rw [htext, coverage_cons, List.append_assoc], hpieces⟩

/-- **An item is the first piece of what is left of the text where it starts.** -/
theorem exists_piece_of_mem_items {source : List Char} {item : Item} (h : item ∈ items source) :
    ∃ front rest p after, source = front ++ rest ∧ pieces rest = p :: after ∧
      p.content.yield = [item.content] ∧ item.span.start = Text.byteLength front ∧
      item.span.stop = item.span.start + Text.byteLength p.text := by
  obtain ⟨before, p, after, hps, hp, hstart, hstop⟩ := mem_locate h
  obtain ⟨rest, hsource, hrest⟩ := pieces_of_append hps
  exact ⟨coverage before, rest, p, after, hsource, hrest, hp, by rw [hstart, Nat.zero_add], hstop⟩

/-! ## Runs -/

/-- **A maximal run** of characters that are no delimiters, in front of `rest`. -/
structure IsRun (run rest : List Char) : Prop where
  inside : ∀ c ∈ run, isDelimiter c = false
  boundary : ∀ c, rest.head? = some c → isDelimiter c = true

theorem isRun_atomRest {c : Char} (hc : isAtomStart c = true) (cs : List Char) :
    IsRun (c :: atomRest cs) (cs.drop (atomRest cs).length) where
  inside := by
    intro d hd
    rcases List.mem_cons.1 hd with rfl | hd
    · exact isDelimiter_of_isAtomStart hc
    · exact isDelimiter_of_mem_atomRest hd
  boundary := by
    intro d hd
    unfold atomRest at hd
    rw [drop_length_takeWhile] at hd
    have := List.head?_dropWhile_not (fun e => !isDelimiter e) cs
    rw [hd] at this
    simpa using this

/-- The first piece of a text that begins like an atom. -/
theorem pieces_atom {c : Char} (hc : isAtomStart c = true) (cs : List Char) :
    pieces (c :: cs) =
      ⟨c :: atomRest cs, (ofAtom (c :: atomRest cs)).read (c :: atomRest cs)⟩ ::
        pieces (cs.drop (atomRest cs).length) := by
  have htake : cs.take (atomRest cs).length = atomRest cs :=
    (List.prefix_iff_eq_take.1 (List.takeWhile_prefix _)).symm
  rw [pieces, choose_atom hc cs]
  simp only [htake]

/-! ## Verdicts -/

/-- A run that begins like a number: with a digit or a point, or with a minus and one of these. -/
def BeginsNumeric (run : List Char) : Prop :=
  ∃ c cs, (run = c :: cs ∨ run = '-' :: c :: cs) ∧ (c.isDigit = true ∨ c = '.')

/-- A run that is a token: a lone dot, an integer in range, a float or a symbol. -/
def IsTokenText (run : List Char) : Prop :=
  run = ['.'] ∨ (Matches integerPattern run ∧ Number.InRange (integerValue run)) ∨
    Matches floatPattern run ∨ Matches symbolPattern run

/-- A run that is blamed as a number where it is no token. -/
def IsNumberLike (run : List Char) : Prop :=
  BeginsNumeric run ∨ (Matches integerPattern run ∧ ¬ Number.InRange (integerValue run))

/-- **What a run is**, said of each kind of token and error in turn. -/
structure Verdict (run : List Char) (content : Except LexicalError Token) : Prop where
  dot_iff : content = .ok .dot ↔ run = ['.']
  integer_iff : ∀ i, content = .ok (.integer i) ↔
    Matches integerPattern run ∧ integerValue run = i.toInt
  float_iff : ∀ x, content = .ok (.float x) ↔ Matches floatPattern run ∧ floatValue run = x
  symbol_iff : ∀ name, content = .ok (.symbol name) ↔
    Matches symbolPattern run ∧ String.ofList run = name
  invalidNumber : ¬ IsTokenText run → IsNumberLike run →
    content = .error (.invalidNumber (String.ofList run))
  invalidSymbol : ¬ IsTokenText run → ¬ IsNumberLike run →
    content = .error (.invalidSymbol (String.ofList run))

theorem looksNumeric_iff (run : List Char) : looksNumeric run = true ↔ BeginsNumeric run := by
  unfold BeginsNumeric
  fun_cases looksNumeric run with
  | case1 c cs =>
      rw [Bool.or_eq_true, beq_iff_eq]
      constructor
      · exact fun h => ⟨c, cs, .inr rfl, h⟩
      · rintro ⟨d, ds, hrun | hrun, h⟩
        · -- the minus itself is neither a digit nor a point
          obtain ⟨rfl, _⟩ := List.cons.inj hrun
          exact absurd h (by decide)
        · cases hrun
          exact h
  | case2 c cs hminus =>
      rw [Bool.or_eq_true, beq_iff_eq]
      constructor
      · exact fun h => ⟨c, cs, .inl rfl, h⟩
      · rintro ⟨d, ds, hrun | hrun, h⟩
        · cases hrun
          exact h
        · cases hrun
          exact (hminus d ds rfl rfl).elim
  | case3 => simp

/-! The four kinds of token have no text in common. -/

theorem not_matches_integer_of_symbol {s : List Char} (h : Matches symbolPattern s) :
    ¬ Matches integerPattern s := by
  intro hint
  have hrule := ofAtom_symbol h
  rw [ofAtom, if_pos hint] at hrule
  cases hrule

theorem not_matches_float_of_symbol {s : List Char} (h : Matches symbolPattern s) :
    ¬ Matches floatPattern s := by
  intro hfloat
  have hrule := ofAtom_symbol h
  rw [ofAtom, if_neg (not_matches_integer_of_float hfloat), if_pos hfloat] at hrule
  cases hrule

theorem not_matches_dot :
    ¬ Matches integerPattern ['.'] ∧ ¬ Matches floatPattern ['.'] ∧
      ¬ Matches symbolPattern ['.'] := by
  decide

theorem verdict_integer {run : List Char} (h : Matches integerPattern run)
    {content : Except LexicalError Token} (hread : (Rule.integer.read run).yield = [content]) :
    Verdict run content := by
  have hdot : run ≠ ['.'] := fun he => not_matches_dot.1 (he ▸ h)
  have hfloat : ¬ Matches floatPattern run := fun hf => not_matches_integer_of_float hf h
  have hsym : ¬ Matches symbolPattern run := fun hs => not_matches_integer_of_symbol hs h
  rw [Rule.read] at hread
  cases hfit : Number.fit (integerValue run) with
  | ok i =>
      rw [hfit] at hread
      obtain rfl : Except.ok (Token.integer i) = content := (List.cons.inj hread).1
      have hvalue := Number.toInt_of_fit hfit
      have hrange := Number.inRange_toInt i
      constructor <;> simp [hdot, hfloat, hsym, h, hrange, IsTokenText, ← hvalue, Int64.toInt_inj]
  | error e =>
      rw [hfit] at hread
      obtain rfl : Except.error (.invalidNumber (String.ofList run)) = content :=
        (List.cons.inj hread).1
      have hrange : ¬ Number.InRange (integerValue run) := by
        intro hr
        rw [Number.fit, if_pos hr] at hfit
        cases hfit
      have hvalue : ∀ i : Int64, integerValue run ≠ i.toInt := fun i hi =>
        hrange (hi ▸ Number.inRange_toInt i)
      constructor <;> simp [hdot, hfloat, hsym, h, hrange, hvalue, IsNumberLike]

theorem verdict_float {run : List Char} (h : Matches floatPattern run)
    {content : Except LexicalError Token} (hread : (Rule.float.read run).yield = [content]) :
    Verdict run content := by
  have hdot : run ≠ ['.'] := fun he => not_matches_dot.2.1 (he ▸ h)
  have hint := not_matches_integer_of_float h
  have hsym : ¬ Matches symbolPattern run := fun hs => not_matches_float_of_symbol hs h
  obtain rfl : Except.ok (Token.float (floatValue run)) = content := (List.cons.inj hread).1
  constructor <;> simp [hdot, hint, hsym, h, IsTokenText]

theorem verdict_symbol {run : List Char} (h : Matches symbolPattern run)
    {content : Except LexicalError Token} (hread : (Rule.symbol.read run).yield = [content]) :
    Verdict run content := by
  have hdot : run ≠ ['.'] := fun he => not_matches_dot.2.2 (he ▸ h)
  have hint := not_matches_integer_of_symbol h
  have hfloat := not_matches_float_of_symbol h
  obtain rfl : Except.ok (Token.symbol (String.ofList run)) = content := (List.cons.inj hread).1
  constructor <;> simp [hdot, hint, hfloat, h, IsTokenText]

theorem verdict_dot {content : Except LexicalError Token}
    (hread : (Rule.dot.read ['.']).yield = [content]) : Verdict ['.'] content := by
  obtain ⟨hint, hfloat, hsym⟩ := not_matches_dot
  obtain rfl : Except.ok Token.dot = content := (List.cons.inj hread).1
  constructor <;> simp [hint, hfloat, hsym, IsTokenText]

theorem verdict_malformed {run : List Char} (hdot : run ≠ ['.'])
    (hint : ¬ Matches integerPattern run) (hfloat : ¬ Matches floatPattern run)
    (hsym : ¬ Matches symbolPattern run) {content : Except LexicalError Token}
    (hread : (Rule.malformed.read run).yield = [content]) : Verdict run content := by
  obtain rfl : Except.error (malformedAtom run) = content := (List.cons.inj hread).1
  have hlike : IsNumberLike run ↔ looksNumeric run = true := by
    simp [IsNumberLike, hint, looksNumeric_iff]
  have hblame : malformedAtom run = if looksNumeric run then
      .invalidNumber (String.ofList run) else .invalidSymbol (String.ofList run) := rfl
  constructor <;> simp +contextual [hdot, hint, hfloat, hsym, hlike, hblame]

/-- **The rule that applies to a whole run gives the verdict on it.** -/
theorem verdict_ofAtom (run : List Char) {content : Except LexicalError Token}
    (hread : ((ofAtom run).read run).yield = [content]) : Verdict run content := by
  unfold ofAtom at hread
  split at hread
  · rename_i hint
    exact verdict_integer hint hread
  · rename_i hint
    split at hread
    · rename_i hfloat
      exact verdict_float hfloat hread
    · rename_i hfloat
      split at hread
      · rename_i hsym
        exact verdict_symbol hsym hread
      · rename_i hsym
        split at hread
        · rename_i hdot
          subst hdot
          exact verdict_dot hread
        · rename_i hdot
          exact verdict_malformed hdot hint hfloat hsym hread

/-! ## Items that are atoms -/

/-- Numbers, symbols and dots. -/
def Token.IsAtom : Token → Prop
  | .dot => True
  | .integer _ => True
  | .float _ => True
  | .symbol _ => True
  | _ => False

/-- A number, a symbol or a dot is only ever read by one of the rules for atoms. -/
theorem family_of_isAtom {r : Rule} {text : List Char} {t : Token} (ht : t.IsAtom)
    (hread : r.read text = .token t) : r.family = .malformed := by
  cases r with
  | dot | integer | float | symbol | malformed => rfl
  | blank | comment => cases hread
  | leftParen | rightParen | quote =>
      cases hread
      exact ht.elim
  | string =>
      simp only [Rule.read] at hread
      split at hread
      · cases hread
        exact ht.elim
      · cases hread

/-- The first piece of a text is a number, a symbol or a dot only where an atom begins. -/
theorem isAtomStart_of_pieces {c : Char} {cs : List Char} {p : Piece} {after : List Piece}
    (hps : pieces (c :: cs) = p :: after) {t : Token} (ht : t.IsAtom)
    (hp : p.content = .token t) : isAtomStart c = true := by
  rw [pieces] at hps
  split at hps
  · rename_i m hm
    obtain ⟨rfl, _⟩ := List.cons.inj hps
    obtain ⟨r, _, hr⟩ := List.mem_filterMap.1 (mem_of_winner hm)
    obtain ⟨rfl, _, hmatch, _⟩ := candidate?_eq_some_iff.1 hr
    have hfamily := family_of_isAtom ht hp
    exact (matches_malformed_cons_iff.1 (matches_malformed_of_family hfamily hmatch)).1
  · obtain ⟨rfl, _⟩ := List.cons.inj hps
    cases hp

/-- Where an atom begins, an item is the whole run with its verdict. -/
theorem verdict_of_pieces {c : Char} (hc : isAtomStart c = true) {cs : List Char} {p : Piece}
    {after : List Piece} (hps : pieces (c :: cs) = p :: after)
    {content : Except LexicalError Token} (hp : p.content.yield = [content]) :
    ∃ rest, c :: cs = p.text ++ rest ∧ IsRun p.text rest ∧ Verdict p.text content := by
  rw [pieces_atom hc] at hps
  obtain ⟨rfl, _⟩ := List.cons.inj hps
  refine ⟨cs.drop (atomRest cs).length, ?_, isRun_atomRest hc cs, verdict_ofAtom _ hp⟩
  have hprefix : atomRest cs <+: cs := List.takeWhile_prefix _
  have hsplit : atomRest cs ++ cs.drop (atomRest cs).length = cs := by
    nth_rewrite 1 [List.prefix_iff_eq_take.1 hprefix]
    exact List.take_append_drop _ cs
  rw [List.cons_append, hsplit]

/-- **Lexing agrees with cutting at delimiters.** An item that starts with a character that is
neither a delimiter nor a quote covers exactly the run that begins there, and the run as a whole
decides what it is. So a number, a symbol or a dot always has a delimiter or the end of the text
behind it. -/
theorem items_are_delimited_runs {source : List Char} {item : Item} (hitem : item ∈ items source) :
    (∀ front c cs, source = front ++ c :: cs → item.span.start = Text.byteLength front →
      isDelimiter c = false → c ≠ '\x27' →
      ∃ run rest, c :: cs = run ++ rest ∧ IsRun run rest ∧
        item.span.stop = item.span.start + Text.byteLength run ∧ Verdict run item.content) ∧
    ∀ t, item.content = .ok t → t.IsAtom →
      ∃ front run rest, source = front ++ (run ++ rest) ∧
        item.span = ⟨Text.byteLength front, Text.byteLength (front ++ run)⟩ ∧
        ∀ c, rest.head? = some c → isDelimiter c = true := by
  obtain ⟨front, rest, p, after, hsource, hps, hp, hstart, hstop⟩ := exists_piece_of_mem_items hitem
  cases rest with
  | nil =>
      rw [pieces] at hps
      cases hps
  | cons d ds =>
      constructor
      · intro front' c cs hsource' hstart' hdelim hquote
        obtain ⟨rfl, hrest⟩ := append_inj_of_byteLength (hsource.symm.trans hsource')
          (hstart.symm.trans hstart')
        obtain ⟨rfl, rfl⟩ := List.cons.inj hrest
        have hc : isAtomStart d = true := by simp [isAtomStart, hdelim, hquote]
        obtain ⟨rest, hsplit, hrun, hverdict⟩ := verdict_of_pieces hc hps hp
        exact ⟨p.text, rest, hsplit, hrun, hstop, hverdict⟩
      · intro t ht hatom
        have htoken : p.content = .token t := by
          rw [ht] at hp
          cases hcontent : p.content with
          | skipped => rw [hcontent] at hp; cases hp
          | token t' => rw [hcontent] at hp; cases hp; rfl
          | error e => rw [hcontent] at hp; cases hp
        have hc := isAtomStart_of_pieces hps hatom htoken
        obtain ⟨rest, hsplit, hrun, _⟩ := verdict_of_pieces hc hps hp
        refine ⟨front, p.text, rest, by rw [← hsplit]; exact hsource, ?_, hrun.boundary⟩
        rw [Text.byteLength_append, ← hstart, ← hstop]

/-- In `(-12 a'b)` the quote does not end the atom that it stands in, and a blank ends `-12`. -/
theorem delimited_runs_around_quote :
    (⟨⟨5, 8⟩, .error (.invalidSymbol "a'b")⟩ ∈ items "(-12 a'b)".toList ∧
      ∃ run rest, "a'b)".toList = run ++ rest ∧ IsRun run rest ∧ 8 = 5 + Text.byteLength run ∧
        Verdict run (.error (.invalidSymbol "a'b"))) ∧
    (⟨⟨1, 4⟩, .ok (.integer (-12))⟩ ∈ items "(-12 a'b)".toList ∧
      ∃ front run rest, "(-12 a'b)".toList = front ++ (run ++ rest) ∧
        (⟨1, 4⟩ : Span) = ⟨Text.byteLength front, Text.byteLength (front ++ run)⟩ ∧
        ∀ c, rest.head? = some c → isDelimiter c = true) := by
  have hitems : items "(-12 a'b)".toList =
      [⟨⟨0, 1⟩, .ok .leftParen⟩, ⟨⟨1, 4⟩, .ok (.integer (-12))⟩,
        ⟨⟨5, 8⟩, .error (.invalidSymbol "a'b")⟩, ⟨⟨8, 9⟩, .ok .rightParen⟩] := by decide +kernel
  have hsymbol : ⟨⟨5, 8⟩, .error (.invalidSymbol "a'b")⟩ ∈ items "(-12 a'b)".toList := by
    rw [hitems]
    simp
  have hinteger : ⟨⟨1, 4⟩, .ok (.integer (-12))⟩ ∈ items "(-12 a'b)".toList := by
    rw [hitems]
    simp
  exact ⟨⟨hsymbol, (items_are_delimited_runs hsymbol).1 "(-12 ".toList 'a' "'b)".toList
      rfl rfl (by decide) (by decide)⟩,
    ⟨hinteger, (items_are_delimited_runs hinteger).2 _ rfl trivial⟩⟩

end SmallLisp
