import SmallLisp.Text.Bytes
import SmallLisp.Token.Rule

set_option autoImplicit false

/-! # Cutting text into tokens

`pieces` cuts a text into consecutive pieces, each matched by one rule; a character that no
rule applies to is a piece of its own. The pieces joined together are the text again
(`flatten_pieces`), so nothing is lost and nothing is read twice. `items` keeps the tokens and
errors among them and gives each its byte span.

Reading goes on behind an error, so one text can yield several.
-/

namespace SmallLisp

/-- A piece of source text and what it is. -/
structure Piece where
  text : List Char
  content : Rule.Content
deriving DecidableEq

/-- **The pieces of a text**, in order. -/
def pieces : List Char → List Piece
  | [] => []
  | c :: cs =>
      match Rule.choose c cs with
      | some m =>
          let text := c :: cs.take m.extra
          ⟨text, m.rule.read text⟩ :: pieces (cs.drop m.extra)
      | none => ⟨[c], .error .invalidToken⟩ :: pieces cs
termination_by cs => cs.length
decreasing_by
  · simp only [List.length_cons, List.length_drop]
    omega
  · simp

/-- The tokens and errors among consecutive pieces, the first of which starts at the byte
offset `start`. -/
def locate (start : Nat) : List Piece → List Item
  | [] => []
  | p :: ps =>
      let stop := start + Text.byteLength p.text
      match p.content with
      | .skipped => locate stop ps
      | .token t => ⟨⟨start, stop⟩, .ok t⟩ :: locate stop ps
      | .error e => ⟨⟨start, stop⟩, .error e⟩ :: locate stop ps

/-- **The items of a text**: its tokens and lexical errors with their spans. -/
def items (source : List Char) : List Item := locate 0 (pieces source)

/-- The tokens of a text, or the first lexical error in it. -/
def tokenize (source : List Char) : Except (Located LexicalError) (List (Located Token)) :=
  (items source).mapM fun item =>
    match item.content with
    | .ok t => .ok ⟨item.span, t⟩
    | .error e => .error ⟨item.span, e⟩

/-- The pieces of a text joined together are the text. -/
theorem flatten_pieces (source : List Char) :
    ((pieces source).map Piece.text).flatten = source := by
  fun_induction pieces source with
  | case1 => rfl
  | case2 c cs m _ text ih => simp [text, ih]
  | case3 c cs _ ih => simp [ih]

end SmallLisp
