import SmallLisp.Proofs.Token.Runs
import SmallLisp.Proofs.Token.Tiling

set_option autoImplicit false

/-! # Where a string ends

Two scanners go through a string. The pattern finds out how far it reaches, and `Text.unescape`
reads what it says, up to a closing quote that it looks for by itself. Here both are compared with
one way to take the text apart: behind the opening quote a string is a sequence of strokes, each a
character that stands for itself or a backslash with the character behind it (`Stroke`). Either the
first character that is no stroke is a quote, which closes the string, or the text ends, if need be
with a backslash that has nothing behind it (`exists_strokes`).

Strokes are taken by both scanners alike (`stringExtra_written`, `unescape_written`), so the match
ends with the quote that `Text.unescape` stops at.
-/

namespace SmallLisp

open Pattern Rule

/-! ## Strokes -/

/-- **A stroke** in the body of a string: a character that stands for itself, or a backslash that
takes the next character with it, whatever that is. -/
inductive Stroke
  | plain (c : Char) (hquote : c ≠ '"') (hbackslash : c ≠ '\\')
  | pair (c : Char)

/-- How a stroke is written. -/
def Stroke.text : Stroke → List Char
  | .plain c _ _ => [c]
  | .pair c => ['\\', c]

/-- The character that a stroke stands for. The pair `\n` is a line feed, and any other pair is its
second character. -/
def Stroke.meaning : Stroke → Char
  | .plain c _ _ => c
  | .pair c => if c = 'n' then '\n' else c

/-- Strokes as they are written, one behind the other. -/
def Stroke.written (body : List Stroke) : List Char := body.flatMap Stroke.text

/-- What strokes stand for. -/
def Stroke.meant (body : List Stroke) : List Char := body.map Stroke.meaning

open Stroke

/-- **How a text goes on behind an opening quote**: with strokes, and then with a quote or not at
all, except that a backslash may be left over. -/
theorem exists_strokes (cs : List Char) :
    ∃ body left, cs = written body ++ left ∧
      ((∃ later, left = '"' :: later) ∨ left = [] ∨ left = ['\\']) := by
  induction cs using stringInduction with
  | nil => exact ⟨[], [], rfl, .inr (.inl rfl)⟩
  | broken => exact ⟨[], ['\\'], rfl, .inr (.inr rfl)⟩
  | escape d cs ih =>
      obtain ⟨body, left, rfl, hleft⟩ := ih
      exact ⟨.pair d :: body, left, rfl, hleft⟩
  | quote cs => exact ⟨[], '"' :: cs, rfl, .inl ⟨cs, rfl⟩⟩
  | plain c cs hq hb ih =>
      obtain ⟨body, left, rfl, hleft⟩ := ih
      exact ⟨.plain c hq hb :: body, left, rfl, hleft⟩

/-! ## The two scanners -/

/-- **The pattern goes through strokes** without ending. -/
theorem stringExtra_written (body : List Stroke) (cs : List Char) :
    stringExtra (written body ++ cs) = (written body).length + stringExtra cs := by
  induction body with
  | nil => exact (Nat.zero_add _).symm
  | cons stroke body ih =>
      cases stroke with
      | plain c hq hb =>
          show stringExtra (c :: (written body ++ cs)) = (written body).length + 1 + _
          rw [stringExtra_plain hq hb, ih]
          omega
      | pair c =>
          show stringExtra (written body ++ cs) + 2 = (written body).length + 2 + _
          rw [ih]
          omega

/-- **Unescaping goes through strokes** and puts down what they mean. -/
theorem unescape_written (body : List Stroke) (cs : List Char) :
    Text.unescape (written body ++ cs) = (Text.unescape cs).map (meant body ++ ·) := by
  induction body with
  | nil => exact (congrFun Option.map_id _).symm
  | cons stroke body ih =>
      have hmap : (Text.unescape cs).map (meant (stroke :: body) ++ ·) =
          ((Text.unescape cs).map (meant body ++ ·)).map (stroke.meaning :: ·) := by
        rw [Option.map_map]
        rfl
      rw [hmap, ← ih]
      cases stroke with
      | plain c hq hb => exact unescape_plain hq hb _
      | pair c => rfl

/-- A string that is closed reaches up to the quote. -/
theorem stringExtra_closed (body : List Stroke) (later : List Char) :
    stringExtra (written body ++ ['"'] ++ later) = (written body ++ ['"']).length := by
  rw [List.append_assoc, stringExtra_written, List.length_append]
  rfl

/-- A string that is open reaches as far as there are strokes, and says nothing. -/
theorem stringExtra_open (body : List Stroke) {left : List Char}
    (hleft : left = [] ∨ left = ['\\']) :
    stringExtra (written body ++ left) = (written body).length ∧
      stringContent (written body ++ left) = .error .unterminatedString := by
  rw [stringExtra_written, stringContent, unescape_written]
  rcases hleft with rfl | rfl
  · exact ⟨rfl, rfl⟩
  · exact ⟨rfl, rfl⟩

/-- The longest match of the pattern at an opening quote. -/
theorem longest?_stringPattern (cs : List Char) :
    stringPattern.longest? ('"' :: cs) = some (stringExtra cs + 1) := by
  have hcons : ∀ s, Matches stringPattern ('"' :: s) ↔ Matches stringBody s := fun s => by
    rw [stringPattern_eq, matches_char_seq_cons_iff]
    exact and_iff_right rfl
  obtain ⟨hlen, hmatch, hmax⟩ := longest_stringBody cs
  refine longest?_eq_some_iff.2 ⟨Nat.succ_le_succ hlen, (hcons _).2 hmatch, fun m hlt hm => ?_⟩
  obtain ⟨k, rfl⟩ : ∃ k, m = k + 1 := ⟨m - 1, by omega⟩
  rw [List.take_succ_cons, hcons]
  exact hmax k (by omega) (Nat.le_of_succ_le_succ hm)

/-- **Unescaping stops at the last character** of a text: as long as that is missing there is no
result, and what follows it does not matter. -/
structure StopsAtLast (text result : List Char) : Prop where
  after : ∀ more, Text.unescape (text ++ more) = some result
  before : ∀ front missing, text = front ++ missing → missing ≠ [] → Text.unescape front = none

theorem stopsAtLast_written (body : List Stroke) :
    StopsAtLast (written body ++ ['"']) (meant body) where
  after more := by
    rw [List.append_assoc, unescape_written]
    exact congrArg some (List.append_nil _)
  before front missing hsplit hmissing := by
    by_contra hsome
    obtain ⟨s, hs⟩ := Option.ne_none_iff_exists'.1 hsome
    -- the string would end in `front`, but the pattern goes on to the last character
    have hextra := (unescape_append_of_some hs missing).2
    have hall := stringExtra_closed body []
    rw [List.append_nil, hsplit, hextra, List.length_append] at hall
    have hshort := stringExtra_le front
    have hpos := List.length_pos_iff.2 hmissing
    omega

/-! ## Strings among the items of a text -/

theorem locate_append (start : Nat) (ps qs : List Piece) :
    locate start (ps ++ qs) =
      locate start ps ++ locate (start + Text.byteLength (coverage ps)) qs := by
  induction ps generalizing start with
  | nil => rfl
  | cons p ps ih =>
      rw [List.cons_append, locate_cons, locate_cons, ih, List.append_assoc, coverage_cons,
        Text.byteLength_append, Nat.add_assoc]

/-- The items from some item on are those of the text that is left where it starts. -/
theorem exists_items_before {front rest : List Char} {item : Item}
    (hitem : item ∈ items (front ++ rest)) (hstart : item.span.start = Text.byteLength front) :
    ∃ earlier, items (front ++ rest) = earlier ++ itemsFrom (Text.byteLength front) rest := by
  obtain ⟨before, p, after, hps, _, hplace, _⟩ := mem_locate hitem
  obtain ⟨rest', hsplit, hrest'⟩ := pieces_of_append hps
  rw [Nat.zero_add, hstart] at hplace
  obtain ⟨rfl, rfl⟩ := append_inj_of_byteLength hsplit hplace
  refine ⟨locate 0 before, ?_⟩
  rw [items, hps, locate_append, Nat.zero_add, itemsFrom, hrest']

/-- A string is the first item where it opens. -/
theorem itemsFrom_string (start : Nat) (cs : List Char) :
    itemsFrom start ('"' :: cs) =
      ⟨⟨start, start + Text.byteLength ('"' :: cs.take (stringExtra cs))⟩, stringContent cs⟩ ::
        itemsFrom (start + Text.byteLength ('"' :: cs.take (stringExtra cs)))
          (cs.drop (stringExtra cs)) := by
  rw [itemsFrom_cons_of_choose (choose_string cs)]
  simp only [Rule.read, List.drop_succ_cons, List.drop_zero, unescape_take_stringExtra,
    stringContent]
  cases Text.unescape cs <;> rfl

theorem itemsFrom_backslash (start : Nat) :
    itemsFrom start ['\\'] = [⟨⟨start, start + 1⟩, .error (.invalidSymbol "\\")⟩] := by
  have halone : items ['\\'] = [⟨⟨0, 1⟩, .error (.invalidSymbol "\\")⟩] := by decide +kernel
  rw [itemsFrom_eq_map, halone]
  simp [Located.shift, Span.shift, Nat.add_comm]

/-- An item that starts with a quote is the string that opens there, and the next item is found
where the match ends. -/
theorem exists_items_of_quote {front text left : List Char} {item : Item}
    (hextra : stringExtra (text ++ left) = text.length)
    (hitem : item ∈ items (front ++ '"' :: (text ++ left)))
    (hstart : item.span.start = Text.byteLength front) :
    item.content = stringContent (text ++ left) ∧
    item.span.stop = Text.byteLength (front ++ '"' :: text) ∧
    ∃ earlier, items (front ++ '"' :: (text ++ left)) =
      earlier ++ item :: itemsFrom item.span.stop left := by
  obtain ⟨earlier, hearlier⟩ := exists_items_before hitem hstart
  rw [itemsFrom_string, hextra, List.take_left, List.drop_left,
    ← Text.byteLength_append] at hearlier
  -- an item is known by the place where it starts
  have hmem : ⟨⟨Text.byteLength front, Text.byteLength (front ++ '"' :: text)⟩,
      stringContent (text ++ left)⟩ ∈ items (front ++ '"' :: (text ++ left)) := by
    rw [hearlier]
    exact List.mem_append_right _ List.mem_cons_self
  obtain rfl := eq_of_start_eq hitem hmem hstart
  exact ⟨rfl, rfl, earlier, hearlier⟩

/-- **The pattern and the reading of a string agree on where it ends.** Take an item that starts
with a quote. If there are strokes behind it up to a quote, then the item is the string that the
strokes mean. Its text is the longest match of the pattern, which ends with this quote, and it is
the quote that unescaping stops at. Otherwise there are strokes up to the end of the source, and the
item is a string without its end that covers them all. A backslash that is left over then is an item
of its own, the last one. -/
theorem string_ends_at_unpaired_quote {source front rest : List Char} {item : Item}
    (hitem : item ∈ items source) (hsource : source = front ++ '"' :: rest)
    (hstart : item.span.start = Text.byteLength front) :
    (∀ body later, rest = written body ++ '"' :: later →
      item.content = .ok (.string (String.ofList (meant body))) ∧
      item.span.stop = Text.byteLength (front ++ '"' :: (written body ++ ['"'])) ∧
      stringPattern.longest? ('"' :: rest) = some ('"' :: (written body ++ ['"'])).length ∧
      StopsAtLast (written body ++ ['"']) (meant body)) ∧
    ((∀ body later, rest ≠ written body ++ '"' :: later) →
      item.content = .error .unterminatedString ∧
      ∃ body earlier,
        (rest = written body ∧ item.span.stop = Text.byteLength source ∧
          items source = earlier ++ [item]) ∨
        (rest = written body ++ ['\\'] ∧ item.span.stop + 1 = Text.byteLength source ∧
          items source = earlier ++ [item,
            ⟨⟨item.span.stop, Text.byteLength source⟩, .error (.invalidSymbol "\\")⟩])) := by
  subst hsource
  refine ⟨?_, fun hopen => ?_⟩
  · rintro body later rfl
    rw [List.append_cons (written body) '"' later] at hitem ⊢
    have hextra := stringExtra_closed body later
    have hstops := stopsAtLast_written body
    obtain ⟨hcontent, hstop, _⟩ := exists_items_of_quote hextra hitem hstart
    refine ⟨?_, hstop, ?_, hstops⟩
    · rw [hcontent, stringContent, hstops.after]
    · rw [longest?_stringPattern, hextra]
      rfl
  · obtain ⟨body, left, rfl, ⟨later, rfl⟩ | hleft⟩ := exists_strokes rest
    · exact absurd rfl (hopen body later)
    · obtain ⟨hextra, hunterminated⟩ := stringExtra_open body hleft
      obtain ⟨hcontent, hstop, earlier, hitems⟩ := exists_items_of_quote hextra hitem hstart
      refine ⟨hcontent.trans hunterminated, body, earlier, ?_⟩
      rcases hleft with rfl | rfl
      · rw [List.append_nil] at hitems ⊢
        exact .inl ⟨rfl, hstop, by rw [hitems, itemsFrom_nil]⟩
      · have hend : item.span.stop + 1 =
            Text.byteLength (front ++ '"' :: (written body ++ ['\\'])) := by
          rw [hstop, ← List.cons_append, ← List.append_assoc, Text.byteLength_append _ ['\\']]
          rfl
        exact .inr ⟨rfl, hend, by rw [hitems, itemsFrom_backslash, hend]⟩

/-- Of two strings the second breaks off. In the first an escaped quote does not end it, and in the
second the last backslash has nothing to escape. -/
theorem string_ends_at_unpaired_quote_broken :
    let source := "\"a\\\"b\" \"c\\".toList
    let closed : Item := ⟨⟨0, 6⟩, .ok (.string "a\"b")⟩
    let broken : Item := ⟨⟨7, 9⟩, .error .unterminatedString⟩
    (closed ∈ items source ∧ StopsAtLast "a\\\"b\"".toList "a\"b".toList ∧
      stringPattern.longest? source = some 6) ∧
    broken ∈ items source ∧ (∀ body later, "c\\".toList ≠ written body ++ '"' :: later) ∧
      ∃ earlier, items source =
        earlier ++ [broken, ⟨⟨9, 10⟩, .error (.invalidSymbol "\\")⟩] := by
  intro source closed broken
  have hitems : items source =
      [closed, broken, ⟨⟨9, 10⟩, .error (.invalidSymbol "\\")⟩] := by decide +kernel
  have hclosed : closed ∈ items source := by
    rw [hitems]
    simp
  have hbroken : broken ∈ items source := by
    rw [hitems]
    simp
  have hopen : ∀ body later, "c\\".toList ≠ written body ++ '"' :: later := by
    intro body later hsplit
    have hmem : '"' ∈ "c\\".toList := by
      rw [hsplit]
      simp
    exact absurd hmem (by decide)
  obtain ⟨_, _, hmatch, hstops⟩ :=
    (@string_ends_at_unpaired_quote source [] _ closed hclosed rfl rfl).1
      [.plain 'a' (by decide) (by decide), .pair '"', .plain 'b' (by decide) (by decide)]
      " \"c\\".toList rfl
  obtain ⟨_, body, earlier, ⟨_, hstop, _⟩ | ⟨_, _, hlast⟩⟩ :=
    (@string_ends_at_unpaired_quote source "\"a\\\"b\" ".toList _ broken hbroken rfl rfl).2 hopen
  · exact absurd hstop (by decide)
  · exact ⟨⟨hclosed, hstops, hmatch⟩, hbroken, hopen, earlier, hlast⟩

end SmallLisp
