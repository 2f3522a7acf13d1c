import Picasso.Lexing.Token

namespace Picasso.Lexing

def readChunkSize : Nat := 4096

/-- `\s`. -/
def isSpace (b : UInt8) : Bool := b = 9 || b = 10 || b = 12 || b = 13 || b = 32

def isDigit (b : UInt8) : Bool := 48 ≤ b && b ≤ 57

/-- `[a-zA-Z_]`. -/
def isLetter (b : UInt8) : Bool := 97 ≤ b && b ≤ 122 || 65 ≤ b && b ≤ 90 || b = 95

inductive Pattern
  | space
  | comment
  | string
  | number
  | symbol
  | fixed (kind : TokenKind) (value : Bytes)
deriving DecidableEq

def count (p : UInt8 → Bool) (b : Bytes) : Nat := (b.takeWhile p).length

/-- The length of `(?:[^"\\]|\\.)*"` at the front. Bytes stand for the runes
they belong to: no byte of a longer rune is a quote, a backslash or a newline. -/
def stringEnd : Bytes → Option Nat
  | [] => none
  | b :: bs =>
    if b = 34 then some 1
    else if b = 92 then
      match bs with
      | [] => none
      | e :: bs => if e = 10 then none else (stringEnd bs).map (· + 2)
    else (stringEnd bs).map (· + 1)

def nonzero (n : Nat) : Option Nat := if n = 0 then none else some n

/-- The length of `(\.[0-9]+)?` at the front. -/
def fraction : Bytes → Nat
  | b :: bs => if b = 46 ∧ count isDigit bs ≠ 0 then 1 + count isDigit bs else 0
  | [] => 0

def Pattern.find : Pattern → Bytes → Option Nat
  | .space, b => nonzero (count isSpace b)
  | .comment, b => if ascii "//" <+: b then some (2 + count (· ≠ 10) (b.drop 2)) else none
  | .string, b => if b.head? = some 34 then (stringEnd b.tail).map (· + 1) else none
  | .number, b => (nonzero (count isDigit b)).map fun n => n + fraction (b.drop n)
  | .symbol, b =>
    if b.head?.any isLetter then some (1 + count (fun c => isLetter c || isDigit c) b.tail) else none
  | .fixed _ value, b => if value <+: b then some value.length else none

def fixedPattern (kind : TokenKind) (value : String) : Pattern := .fixed kind (ascii value)

def patterns : List Pattern :=
  [.space, .comment, .string, .number, .symbol,
    fixedPattern .OPEN_BRACKET "[", fixedPattern .CLOSE_BRACKET "]", fixedPattern .OPEN_CURLY "\x7b",
    fixedPattern .CLOSE_CURLY "\x7d", fixedPattern .OPEN_ATOMIC "(*", fixedPattern .CLOSE_ATOMIC "*)",
    fixedPattern .OPEN_PAREN "(", fixedPattern .CLOSE_PAREN ")",
    fixedPattern .EQUALS "==", fixedPattern .NOT_EQUALS "!=", fixedPattern .ASSIGNMENT "=", fixedPattern .NOT "!",
    fixedPattern .BITWIZE_LEFTSHIFT "<<", fixedPattern .BITWIZE_RIGHTSHIFT ">>", fixedPattern .LESS_EQUALS "<=",
    fixedPattern .LESS "<", fixedPattern .GREATER_EQUALS ">=", fixedPattern .GREATER ">",
    fixedPattern .OR "||", fixedPattern .AND "&&",
    fixedPattern .BITWISE_OR "|", fixedPattern .BITWISE_AND "&", fixedPattern .BITWISE_XOR "^",
    fixedPattern .BITWISE_NOT "~",
    fixedPattern .DOT_DOT "..", fixedPattern .DOT ".",
    fixedPattern .SEMI_COLON ";", fixedPattern .COLON ":", fixedPattern .QUESTION "?", fixedPattern .COMMA ",",
    fixedPattern .PLUS_PLUS "++", fixedPattern .MINUS_MINUS "--", fixedPattern .PLUS_EQUALS "+=",
    fixedPattern .MINUS_EQUALS "-=", fixedPattern .PLUS "+", fixedPattern .DASH "-", fixedPattern .SLASH "/",
    fixedPattern .STAR "*", fixedPattern .PERCENT "%"]

def firstMatch (b : Bytes) : Option (Pattern × Nat) := patterns.findSome? fun p => (p.find b).map fun n => (p, n)

/-- What the handlers have written: the tokens, the comments they have skipped,
and the place of the next byte. -/
structure Scanner where
  tokens : List Token
  comments : List (Bytes × SourceLoc)
  srcLoc : SourceLoc
deriving DecidableEq

def advanceByte (loc : SourceLoc) (b : UInt8) : SourceLoc :=
  if b = 10 then { loc with line := loc.line + 1, col := 1 } else { loc with col := loc.col + 1 }

def advance (loc : SourceLoc) (bs : Bytes) : SourceLoc := bs.foldl advanceByte loc

def Pattern.kind : Pattern → Bytes → Option TokenKind
  | .space, _ => none
  | .comment, _ => none
  | .string, _ => some .STRING
  | .number, _ => some .NUMBER
  | .symbol, text => some ((reservedKeywords.lookup text).getD .IDENTIFIER)
  | .fixed kind _, _ => some kind

def Scanner.handle (s : Scanner) (p : Pattern) (text : Bytes) : Scanner where
  tokens := s.tokens ++ ((p.kind text).map fun kind => ⟨kind, text, s.srcLoc⟩).toList
  comments := if p = .comment then s.comments ++ [(text, s.srcLoc)] else s.comments
  srcLoc := advance s.srcLoc text

/-- `unrecognized token`, or the end of the bound on the model's loop. -/
inductive Failure
  | lexerError (message : String) (loc : SourceLoc)
  | fuel
deriving DecidableEq

structure Outcome where
  tokens : List Token
  comments : List (Bytes × SourceLoc)
  failure : Option Failure
deriving DecidableEq

def Scanner.finish (s : Scanner) : Outcome := ⟨s.tokens, s.comments, none⟩

def Scanner.fail (s : Scanner) : Outcome :=
  ⟨s.tokens, s.comments, some (.lexerError "lexer error: unrecognized token" s.srcLoc)⟩

/-- The lexer: `input` is what the reader has still to deliver and `calls`
counts the calls of `Read`. -/
structure Lexer extends Scanner where
  input : Bytes
  buffer : Bytes
  eof : Bool
  calls : Nat

def newLexer (path : String) (content : Bytes) : Lexer := ⟨⟨[], [], ⟨path, 1, 1⟩⟩, content, [], false, 0⟩

/-- The `k`-th call of `Read` returns at most `reads k` bytes; it reports the
end of the file when there are no more. -/
def Lexer.fillBuffer (reads : Nat → Nat) (l : Lexer) : Lexer :=
  if l.eof ∨ readChunkSize ≤ l.buffer.length then l
  else
    let n := min (reads l.calls) readChunkSize
    { l with
      buffer := l.buffer ++ l.input.take n
      input := l.input.drop n
      eof := l.input.isEmpty
      calls := l.calls + 1 }

def Lexer.consume (l : Lexer) (p : Pattern) (n : Nat) : Lexer :=
  { l with toScanner := l.handle p (l.buffer.take n), buffer := l.buffer.drop n }

def lexLoop (reads : Nat → Nat) : Nat → Lexer → Outcome
  | 0, l => ⟨l.tokens, l.comments, some .fuel⟩
  | n + 1, l =>
    if l.eof ∧ l.buffer = [] then l.finish
    else
      let l := l.fillBuffer reads
      match firstMatch l.buffer with
      | some (p, k) => lexLoop reads n (l.consume p k)
      | none => l.fail

/-- What the lexer reads off a file. Every round takes a byte or ends the loop. -/
def lex (path : String) (content : Bytes) (reads : Nat → Nat) : Outcome :=
  lexLoop reads (content.length + 1) (newLexer path content)

def Outcome.result (o : Outcome) : Except Failure (List Token) :=
  match o.failure with
  | none => .ok o.tokens
  | some f => .error f

def tokenize (path : String) (content : Bytes) (reads : Nat → Nat) : Except Failure (List Token) :=
  (lex path content reads).result

end Picasso.Lexing
