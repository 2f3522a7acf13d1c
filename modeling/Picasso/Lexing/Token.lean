import Mathlib.Data.List.Basic

namespace Picasso.Lexing

/-- Text of the source language is kept as bytes. -/
abbrev Bytes := List UInt8

-- has a name, so that lists of texts are searched by one term in all modules
instance : LawfulBEq Bytes := inferInstance

def ascii (s : String) : Bytes := s.toList.map fun c => c.toNat.toUInt8

structure SourceLoc where
  filePath : String
  line : Nat
  col : Nat
deriving DecidableEq, Repr

inductive TokenKind
  | EOF | NULL | TRUE | FALSE | NUMBER | STRING | IDENTIFIER
  | BREAK | CONTINUE
  | ATOMIC
  | OPEN_BRACKET | CLOSE_BRACKET | OPEN_CURLY | CLOSE_CURLY | OPEN_PAREN | CLOSE_PAREN | OPEN_ATOMIC | CLOSE_ATOMIC
  | ASSIGNMENT | EQUALS | NOT_EQUALS | NOT
  | LESS | LESS_EQUALS | GREATER | GREATER_EQUALS
  | OR | AND
  | BITWIZE_LEFTSHIFT | BITWIZE_RIGHTSHIFT
  | DOT | DOT_DOT | SEMI_COLON | COLON | QUESTION | COMMA
  | PLUS_PLUS | MINUS_MINUS | PLUS_EQUALS | MINUS_EQUALS
  | PLUS | DASH | SLASH | STAR | MOD | PERCENT
  | SAY | CONST | CLASS | INTERFACE | IS | NEW | USING | FROM | FN | IF | ELSE | FOREACH | WHILE | FOR | EXPORT | TYPEOF
  | IN | AS
  | RETURN | STATIC | INTERNAL
  | NUM_TOKENS
  | BITWISE_OR | BITWISE_XOR | BITWISE_NOT | BITWISE_AND
deriving DecidableEq, Repr

structure Token where
  kind : TokenKind
  value : Bytes
  src : SourceLoc
deriving DecidableEq, Repr

def Token.isOneOfMany (t : Token) (expectedTokens : List TokenKind) : Bool := expectedTokens.contains t.kind

def reservedKeywords : List (Bytes × TokenKind) :=
  [(ascii "true", .TRUE), (ascii "false", .FALSE), (ascii "null", .NULL), (ascii "break", .BREAK), (ascii "say", .SAY),
    (ascii "continue", .CONTINUE), (ascii "const", .CONST), (ascii "class", .CLASS), (ascii "interface", .INTERFACE),
    (ascii "atomic", .ATOMIC), (ascii "is", .IS), (ascii "new", .NEW), (ascii "using", .USING), (ascii "as", .AS),
    (ascii "from", .FROM), (ascii "fn", .FN), (ascii "if", .IF), (ascii "else", .ELSE), (ascii "foreach", .FOREACH),
    (ascii "while", .WHILE), (ascii "for", .FOR), (ascii "export", .EXPORT), (ascii "typeof", .TYPEOF),
    (ascii "in", .IN),
    (ascii "return", .RETURN), (ascii "static", .STATIC), (ascii "internal", .INTERNAL)]

def tokenKindString : TokenKind → String
  | .EOF => "eof"
  | .NULL => "null"
  | .NUMBER => "number"
  | .STRING => "string"
  | .TRUE => "true"
  | .FALSE => "false"
  | .IDENTIFIER => "identifier"
  | .BREAK => "break"
  | .CONTINUE => "continue"
  | .ATOMIC => "atomic"
  | .OPEN_BRACKET => "open_bracket"
  | .CLOSE_BRACKET => "close_bracket"
  | .OPEN_CURLY => "open_curly"
  | .CLOSE_CURLY => "close_curly"
  | .OPEN_PAREN => "open_paren"
  | .CLOSE_PAREN => "close_paren"
  | .OPEN_ATOMIC => "open_atomic"
  | .CLOSE_ATOMIC => "close_atomic"
  | .ASSIGNMENT => "assignment"
  | .EQUALS => "equals"
  | .NOT_EQUALS => "not_equals"
  | .NOT => "not"
  | .LESS => "less"
  | .LESS_EQUALS => "less_equals"
  | .GREATER => "greater"
  | .GREATER_EQUALS => "greater_equals"
  | .OR => "or"
  | .AND => "and"
  | .BITWISE_OR => "bitwise_or"
  | .BITWISE_XOR => "bitwise_xor"
  | .BITWISE_AND => "bitwise_and"
  | .BITWISE_NOT => "bitwise_not"
  | .DOT => "dot"
  | .DOT_DOT => "dot_dot"
  | .SEMI_COLON => "semi_colon"
  | .COLON => "colon"
  | .QUESTION => "question"
  | .COMMA => "comma"
  | .PLUS_PLUS => "plus_plus"
  | .MINUS_MINUS => "minus_minus"
  | .PLUS_EQUALS => "plus_equals"
  | .MINUS_EQUALS => "minus_equals"
  | .PLUS => "plus"
  | .MOD => "mod"
  | .DASH => "dash"
  | .SLASH => "slash"
  | .STAR => "star"
  | .PERCENT => "percent"
  | .SAY => "say"
  | .CONST => "const"
  | .CLASS => "class"
  | .INTERFACE => "interface"
  | .IS => "is"
  | .NEW => "new"
  | .USING => "using"
  | .AS => "as"
  | .FROM => "from"
  | .FN => "fn"
  | .IF => "if"
  | .ELSE => "else"
  | .FOREACH => "foreach"
  | .FOR => "for"
  | .WHILE => "while"
  | .EXPORT => "export"
  | .IN => "in"
  | .RETURN => "return"
  | .STATIC => "static"
  | .INTERNAL => "internal"
  | kind => "unknown(" ++ toString kind.ctorIdx ++ ")"

end Picasso.Lexing
