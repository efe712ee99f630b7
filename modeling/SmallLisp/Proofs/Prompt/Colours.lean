import Mathlib.Data.List.Sort
import SmallLisp.Prompt.Highlight
import SmallLisp.Proofs.Prompt.Pairs
import SmallLisp.Proofs.Token.Runs

set_option autoImplicit false

/-! # Highlighting only adds colour

A line is shown part by part: the texts of items, and what stands between them. Each part is shown
as it is, or with one escape sequence in front of it and one behind. So the line is still there, in
its order and as a whole, and to take the colour from each part is to get it back (`LaidOut`).

What an item looks like depends on its kind alone, unless it is a parenthesis. Of these, two are in
colour or none: the one in front of the cursor and its partner.

The parts are those that the lexer cuts the line into. As an item's span covers its part, the line
in colour can also be put together from slices of the line, by the spans of its items alone
(`highlight_eq_spliced`).
-/

namespace SmallLisp.Prompt

/-! ## Parts of a line -/

/-- **A part of a line**: its text, the item that this is the text of, if there is one, and the
colour in which it is shown, if it has one. -/
structure Part where
  text : List Char
  item : Option Item
  colour : Option Colour

/-- A part as it is shown: with its colour switched on before it and off behind it. -/
def Part.shown (p : Part) : List Char := painted p.colour p.text

/-- **The parts make up the line.** Their texts in order are the line, their items in order are the
items of the line, the text of an item is what its span covers, and only items are in colour. -/
structure LaidOut (line : List Char) (parts : List Part) : Prop where
  whole : parts.flatMap Part.text = line
  items : parts.filterMap Part.item = items line
  covered : ∀ before part after item, parts = before ++ part :: after → part.item = some item →
    item.span.start = Text.byteLength (before.flatMap Part.text) ∧
      item.span.stop = item.span.start + Text.byteLength part.text
  plain : ∀ part ∈ parts, part.item = none → part.colour = none

/-- What a token or an error is as the content of a piece. -/
def contentOf : Except LexicalError Token → Rule.Content
  | .ok t => .token t
  | .error e => .error e

/-- The colour of an item. -/
def colourOfItem (pair : Option (Nat × Nat)) (item : Item) : Option Colour :=
  colourOf pair item.span.start (contentOf item.content)

/-- The part that a piece makes where it starts. -/
def partOf (pair : Option (Nat × Nat)) (start : Nat) (p : Piece) : Part :=
  ⟨p.text, (p.content.placed ⟨start, start + Text.byteLength p.text⟩).head?,
    colourOf pair start p.content⟩

/-- The parts that consecutive pieces make. -/
def partsOf (pair : Option (Nat × Nat)) (start : Nat) : List Piece → List Part
  | [] => []
  | p :: ps => partOf pair start p :: partsOf pair (start + Text.byteLength p.text) ps

section

variable (pair : Option (Nat × Nat)) (start : Nat)

theorem paint_eq_flatMap (ps : List Piece) :
    paint pair start ps = (partsOf pair start ps).flatMap Part.shown := by
  induction ps generalizing start with
  | nil => rfl
  | cons p ps ih =>
      rw [paint, partsOf, List.flatMap_cons, ih]
      rfl

theorem flatMap_text_partsOf (ps : List Piece) :
    (partsOf pair start ps).flatMap Part.text = coverage ps := by
  induction ps generalizing start with
  | nil => rfl
  | cons p ps ih =>
      rw [partsOf, List.flatMap_cons, ih]
      rfl

theorem filterMap_item_partsOf (ps : List Piece) :
    (partsOf pair start ps).filterMap Part.item = locate start ps := by
  induction ps generalizing start with
  | nil => rfl
  | cons p ps ih =>
      rw [partsOf, locate_cons, List.filterMap_cons, ih]
      obtain ⟨text, content⟩ := p
      cases content <;> rfl

/-- The text of an item is what its span covers. -/
theorem covered_partsOf {ps : List Piece} {before : List Part} {part : Part} {after : List Part}
    {item : Item} (hsplit : partsOf pair start ps = before ++ part :: after)
    (hitem : part.item = some item) :
    item.span.start = start + Text.byteLength (before.flatMap Part.text) ∧
      item.span.stop = item.span.start + Text.byteLength part.text := by
  induction ps generalizing start before with
  | nil => simp [partsOf] at hsplit
  | cons p ps ih =>
      rw [partsOf] at hsplit
      cases before with
      | nil =>
          obtain ⟨rfl, _⟩ := List.cons.inj hsplit
          obtain ⟨text, content⟩ := p
          cases content <;> cases hitem <;> exact ⟨rfl, rfl⟩
      | cons first before =>
          obtain ⟨rfl, hrest⟩ := List.cons.inj hsplit
          obtain ⟨hstart, hstop⟩ := ih _ hrest
          refine ⟨?_, hstop⟩
          rw [hstart, List.flatMap_cons, Text.byteLength_append, Nat.add_assoc]
          rfl

/-- A part that is no item is not in colour, and an item has the colour of its kind. -/
theorem colour_of_mem_partsOf {ps : List Piece} {part : Part}
    (hpart : part ∈ partsOf pair start ps) :
    part.colour = part.item.bind (colourOfItem pair) := by
  induction ps generalizing start with
  | nil => cases hpart
  | cons p ps ih =>
      rcases List.mem_cons.1 hpart with rfl | hlater
      · obtain ⟨text, content⟩ := p
        cases content <;> rfl
      · exact ih _ hlater

end

/-- **The parts of a line make it up.** -/
theorem laidOut_partsOf (pair : Option (Nat × Nat)) (line : List Char) :
    LaidOut line (partsOf pair 0 (pieces line)) where
  whole := (flatMap_text_partsOf pair 0 _).trans (flatten_pieces line)
  items := filterMap_item_partsOf pair 0 _
  covered before part after item hsplit hitem := by
    have hcovered := covered_partsOf pair 0 hsplit hitem
    rwa [Nat.zero_add] at hcovered
  plain part hpart hitem := by
    rw [colour_of_mem_partsOf pair 0 hpart, hitem]
    rfl

/-! ## The line by the spans of its items -/

/-- **A line that is put together by spans**, from the offset `last` on: before each item what
stands between it and the one before, then what its span covers, in its colour, and behind the last
item what is left. -/
def spliced (colour : Item → Option Colour) (line : List Char) (last : Nat) :
    List Item → List Char
  | [] => Text.dropBytes last line
  | item :: later =>
      Text.slice last item.span.start line ++
        painted (colour item) (Text.slice item.span.start item.span.stop line) ++
          spliced colour line item.span.stop later

section

variable {line : List Char} {parts before after : List Part} {part : Part} {item : Item}

theorem LaidOut.line_eq (hlaid : LaidOut line parts) (hsplit : parts = before ++ part :: after) :
    line = before.flatMap Part.text ++ (part.text ++ after.flatMap Part.text) := by
  rw [← hlaid.whole, hsplit, List.flatMap_append, List.flatMap_cons]

/-- To slice the line by the span of an item is to get its part. -/
theorem LaidOut.slice_eq (hlaid : LaidOut line parts) (hsplit : parts = before ++ part :: after)
    (hitem : part.item = some item) :
    Text.slice item.span.start item.span.stop line = part.text := by
  obtain ⟨hstart, hstop⟩ := hlaid.covered before part after item hsplit hitem
  rw [hstop, hstart, hlaid.line_eq hsplit, Text.slice_append]

/-- What stands between an offset and an item. -/
theorem LaidOut.slice_gap (hlaid : LaidOut line parts) (hsplit : parts = before ++ part :: after)
    (hitem : part.item = some item) {front gap : List Char}
    (hbefore : before.flatMap Part.text = front ++ gap) :
    Text.slice (Text.byteLength front) item.span.start line = gap := by
  obtain ⟨hstart, _⟩ := hlaid.covered before part after item hsplit hitem
  rw [hstart, hlaid.line_eq hsplit, hbefore, Text.byteLength_append, List.append_assoc,
    Text.slice_append]

/-- Parts without an item have shown the `gap` before the next one. -/
theorem LaidOut.flatMap_shown (hlaid : LaidOut line parts) {colour : Item → Option Colour}
    (hcolour : ∀ part ∈ parts, part.colour = part.item.bind colour)
    (hsplit : parts = before ++ after) {front gap : List Char}
    (hbefore : before.flatMap Part.text = front ++ gap) :
    gap ++ after.flatMap Part.shown =
      spliced colour line (Text.byteLength front) (after.filterMap Part.item) := by
  induction after generalizing before front gap with
  | nil =>
      have hwhole : line = front ++ gap := by
        rw [← hlaid.whole, hsplit, List.append_nil, hbefore]
      rw [List.filterMap_nil, spliced, hwhole, Text.dropBytes_byteLength_append]
      exact List.append_nil gap
  | cons part after ih =>
      have hnext : parts = (before ++ [part]) ++ after := by
        rw [hsplit, List.append_assoc]
        rfl
      have htext : (before ++ [part]).flatMap Part.text = front ++ gap ++ part.text := by
        rw [List.flatMap_append, hbefore]
        exact congrArg _ (List.append_nil _)
      have hpart := hcolour part (hsplit ▸ List.mem_append_right _ List.mem_cons_self)
      cases hitem : part.item with
      | none =>
          have hshown : part.shown = part.text := by
            rw [Part.shown, hpart, hitem]
            rfl
          rw [List.filterMap_cons_none hitem, List.flatMap_cons, hshown, ← List.append_assoc]
          exact ih hnext (htext.trans (List.append_assoc _ _ _))
      | some item =>
          have hshown : part.shown = painted (colour item) part.text := by
            rw [Part.shown, hpart, hitem]
            rfl
          have hend : item.span.stop = Text.byteLength (front ++ gap ++ part.text) := by
            obtain ⟨hstart, hstop⟩ := hlaid.covered before part after item hsplit hitem
            rw [hstop, hstart, hbefore, ← Text.byteLength_append]
          have hlater : after.flatMap Part.shown = spliced colour line item.span.stop
              (after.filterMap Part.item) := by
            rw [hend]
            exact ih hnext (htext.trans (List.append_nil _).symm)
          rw [List.filterMap_cons_some hitem, List.flatMap_cons, spliced,
            hlaid.slice_gap hsplit hitem hbefore, hlaid.slice_eq hsplit hitem, hshown, ← hlater,
            List.append_assoc]

end

/-- **A line in colour is put together by the spans of its items.** -/
theorem highlight_eq_spliced (line : List Char) (cursor : Nat) :
    highlight line cursor =
      spliced (colourOfItem (shownPair? line cursor)) line 0 (items line) := by
  have hlaid := laidOut_partsOf (shownPair? line cursor) line
  have hcolour : ∀ part ∈ partsOf (shownPair? line cursor) 0 (pieces line),
      part.colour = part.item.bind (colourOfItem (shownPair? line cursor)) :=
    fun _ hpart => colour_of_mem_partsOf _ 0 hpart
  rw [highlight, paint_eq_flatMap, ← hlaid.items]
  exact hlaid.flatMap_shown hcolour (List.nil_append _).symm (List.append_nil []).symm

/-! ## What is in colour -/

/-- The cursor stands behind the last parenthesis, and the error in between is red. -/
example : highlight "(a 1x)".toList 6 =
    "\x1b[1;34m(\x1b[0ma \x1b[31m1x\x1b[0m\x1b[1;34m)\x1b[0m".toList := by
  decide +kernel

end SmallLisp.Prompt
