import SmallLisp.Text.Blank
import SmallLisp.Token.Basic
import SmallLisp.Token.Pattern

set_option autoImplicit false

/-! # Lexical rules

Each rule has a pattern, a priority and a meaning. At every point of the text the rule with
the longest match applies, and of two rules that match the same length the one of higher
priority. The catch-all rule `malformed` describes every atom up to the next delimiter, with
the lowest priority: it applies exactly where an atom goes on beyond what a number, a symbol
or a dot can be, and always yields an error.
-/

namespace SmallLisp

/-- The rules by which text is cut into pieces. -/
inductive Rule
  | blank
  | comment
  | leftParen
  | rightParen
  | dot
  | quote
  | integer
  | float
  | string
  | symbol
  | malformed
deriving DecidableEq, Repr

namespace Rule

/-- All rules. -/
def all : List Rule :=
  [.blank, .comment, .leftParen, .rightParen, .dot, .quote, .integer, .float, .string,
    .symbol, .malformed]

/-! ## Character classes -/

/-- ASCII letters and the punctuation that may begin a symbol. -/
def isSymbolStart (c : Char) : Bool :=
  c.isAlpha || c == '+' || c == '*' || c == '/' || c == '%' || c == '<' || c == '>' ||
    c == '=' || c == '?' || c == '!' || c == '&' || c == '_'

/-- The characters that may go on a symbol: those that begin one, digits and the minus. -/
def isSymbolPart (c : Char) : Bool := isSymbolStart c || c.isDigit || c == '-'

/-- The characters that end an atom: whitespace, parentheses, the double quote and the
semicolon. -/
def isDelimiter (c : Char) : Bool :=
  Text.isWhitespace c || c == '(' || c == ')' || c == '"' || c == ';'

/-! ## Patterns -/

/-- One or more digits, with or without a minus in front. -/
def integerPattern : Pattern :=
  .seq (.opt (.char '-')) (.plus (.oneOf Char.isDigit))

/-- An integer followed by a point and any number of digits. -/
def floatPattern : Pattern :=
  .seq integerPattern (.seq (.char '.') (.star (.oneOf Char.isDigit)))

/-- A double quote, then any characters in which a backslash takes the next character with
it, then the closing quote unless the input ends first. -/
def stringPattern : Pattern :=
  .seq (.char '"')
    (.seq
      (.star (.alt (.oneOf fun c => c != '"' && c != '\\')
        (.seq (.char '\\') (.oneOf fun _ => true))))
      (.opt (.char '"')))

/-- A symbol begins with a letter or punctuation; a minus begins one too unless a digit
follows. -/
def symbolPattern : Pattern :=
  .alt (.seq (.oneOf isSymbolStart) (.star (.oneOf isSymbolPart)))
    (.seq (.char '-')
      (.opt (.seq (.oneOf fun c => isSymbolStart c || c == '-')
        (.star (.oneOf isSymbolPart)))))

/-- Any run of characters up to a delimiter that does not begin with a quote. -/
def malformedPattern : Pattern :=
  .seq (.oneOf fun c => !isDelimiter c && c != '\x27') (.star (.oneOf fun c => !isDelimiter c))

/-- The texts that a rule applies to. -/
def pattern : Rule → Pattern
  | .blank => .plus (.oneOf Text.isSkipped)
  | .comment => .seq (.char ';') (.star (.oneOf (· != '\n')))
  | .leftParen => .char '('
  | .rightParen => .char ')'
  | .dot => .char '.'
  | .quote => .char '\x27'
  | .integer => integerPattern
  | .float => floatPattern
  | .string => stringPattern
  | .symbol => symbolPattern
  | .malformed => malformedPattern

/-- Which rule wins among matches of one length. -/
def priority : Rule → Nat
  | .integer => 5
  | .float => 5
  | .symbol => 3
  | .malformed => 1
  | _ => 2

/-! ## Choosing a rule -/

/-- A rule together with the number of characters it matches beyond the first. -/
structure Candidate where
  rule : Rule
  extra : Nat
deriving DecidableEq, Repr

/-- The longest match wins, and of equally long ones the one of higher priority. -/
def Candidate.beats (a b : Candidate) : Bool :=
  decide (b.extra < a.extra) ||
    (decide (a.extra = b.extra) && decide (b.rule.priority < a.rule.priority))

/-- The match of one rule at a text that begins with `c`. -/
def candidate? (c : Char) (cs : List Char) (rule : Rule) : Option Candidate :=
  ((rule.pattern.derive c).longest? cs).map fun n => ⟨rule, n⟩

/-- The winner among candidates, in any order of the list. -/
def winner : List Candidate → Option Candidate
  | [] => none
  | a :: rest =>
      match winner rest with
      | none => some a
      | some b => if b.beats a then some b else some a

/-- **The rule that applies** at a text that begins with `c`. -/
def choose (c : Char) (cs : List Char) : Option Candidate :=
  winner (all.filterMap (candidate? c cs))

/-! ## Meanings -/

/-- What a piece of text turns out to be. -/
inductive Content
  | skipped
  | token (t : Token)
  | error (e : LexicalError)
deriving DecidableEq

/-- The value of an integer text, minus sign included. -/
def integerValue : List Char → Int
  | '-' :: ds => -(Decimal.value ds : Int)
  | ds => Decimal.value ds

/-- The double nearest to an unsigned text of digits with one point. -/
def unsignedFloat (cs : List Char) : Float :=
  let whole := cs.takeWhile Char.isDigit
  let fraction := (cs.dropWhile Char.isDigit).drop 1
  Float.ofScientific (Decimal.value (whole ++ fraction)) true fraction.length

/-- The double nearest to a float text, minus sign included. -/
def floatValue : List Char → Float
  | '-' :: cs => -(unsignedFloat cs)
  | cs => unsignedFloat cs

/-- Whether an atom begins like a number: with a digit or a point, or with a minus and one
of these. -/
def looksNumeric : List Char → Bool
  | '-' :: c :: _ => c.isDigit || c == '.'
  | c :: _ => c.isDigit || c == '.'
  | [] => false

/-- The error for an atom that is neither a number nor a symbol. -/
def malformedAtom (text : List Char) : LexicalError :=
  if looksNumeric text then .invalidNumber (String.ofList text)
  else .invalidSymbol (String.ofList text)

/-- The content of a text that a rule applies to. -/
def read (rule : Rule) (text : List Char) : Content :=
  match rule with
  | .blank => .skipped
  | .comment => .skipped
  | .leftParen => .token .leftParen
  | .rightParen => .token .rightParen
  | .dot => .token .dot
  | .quote => .token .quote
  | .integer =>
      match Number.fit (integerValue text) with
      | .ok i => .token (.integer i)
      | .error _ => .error (.invalidNumber (String.ofList text))
  | .float => .token (.float (floatValue text))
  | .string =>
      match Text.unescape (text.drop 1) with
      | some s => .token (.string (String.ofList s))
      | none => .error .unterminatedString
  | .symbol => .token (.symbol (String.ofList text))
  | .malformed => .error (malformedAtom text)

end Rule

end SmallLisp
