import Picasso.Lexing.Token

namespace Picasso.Parsing

open Lexing

structure Parser where
  tokens : List Token
  pos : Nat

/-- Why the parser stops without a result: a reported error, a panic with a
text of its own, an index beyond the token slice or a string, or the end of the
bound on the model's recursion. -/
inductive Stop
  | parserError (message : String) (loc : SourceLoc)
  | message (text : String)
  | indexOutOfRange
  | sliceOutOfRange
  | fuel
deriving DecidableEq, Repr

abbrev Parse (α : Type) := StateT Parser (Except Stop) α

def stop {α : Type} (s : Stop) : Parse α := fun _ => .error s

def currentToken : Parse Token := fun p =>
  match if p.tokens.length ≤ p.pos then p.tokens[p.pos - 1]? else p.tokens[p.pos]? with
  | some t => .ok (t, p)
  | none => .error .indexOutOfRange

def move : Parse Token := do
  let tk ← currentToken
  modify fun p => { p with pos := p.pos + 1 }
  return tk

def currentTokenKind : Parse TokenKind := fun p =>
  match p.tokens[p.pos]? with
  | some t => .ok (t.kind, p)
  | none => .error .indexOutOfRange

def hasTokens : Parse Bool := fun p =>
  match p.tokens[p.pos]? with
  | some t => .ok (t.kind ≠ .EOF, p)
  | none => .ok (false, p)

def currentLoc : Parse SourceLoc := do return (← currentToken).src

def expect (expectedKind : TokenKind) : Parse Token := do
  let token ← currentToken
  if token.kind ≠ expectedKind then
    stop (.parserError ("Expected " ++ tokenKindString expectedKind ++ " but recieved " ++ tokenKindString token.kind ++
      " instead\n") token.src)
  else move

section Steps

variable {α β : Type} {p p' : Parser} {a : α} {t : Token} {done ts : List Token}

theorem bind_ok {f : Parse α} (g : α → Parse β) (h : f p = .ok (a, p')) : (f >>= g) p = g a p' := by
  simp only [bind, StateT.bind, h, Except.bind]

def front (done ts : List Token) : Parser := ⟨done ++ ts, done.length⟩

theorem currentToken_front : currentToken (front done (t :: ts)) = .ok (t, front done (t :: ts)) := by
  have h : ¬ done.length + (ts.length + 1) ≤ done.length := by omega
  simp [currentToken, front, h]

theorem currentTokenKind_front : currentTokenKind (front done (t :: ts)) = .ok (t.kind, front done (t :: ts)) := by
  simp [currentTokenKind, front]

theorem hasTokens_front (h : t.kind ≠ .EOF) : hasTokens (front done (t :: ts)) = .ok (true, front done (t :: ts)) := by
  simp [hasTokens, front, h]

theorem move_front : move (front done (t :: ts)) = .ok (t, front (done ++ [t]) ts) := by
  rw [move, bind_ok _ currentToken_front]
  change Except.ok (t, { front done (t :: ts) with pos := (front done (t :: ts)).pos + 1 }) = _
  simp [front]

theorem currentLoc_front : currentLoc (front done (t :: ts)) = .ok (t.src, front done (t :: ts)) := by
  rw [currentLoc, bind_ok _ currentToken_front]
  rfl

theorem expect_front {k : TokenKind} (h : t.kind = k) :
    expect k (front done (t :: ts)) = .ok (t, front (done ++ [t]) ts) := by
  rw [expect, bind_ok _ currentToken_front, if_neg (not_not_intro h), move_front]

end Steps

end Picasso.Parsing
