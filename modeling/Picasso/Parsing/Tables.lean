import Picasso.Lexing.Token

namespace Picasso.Parsing

open Lexing

abbrev BindingPower := Nat

namespace BindingPower

def defaultBp : BindingPower := 0
def assignment : BindingPower := 2
def bitwise : BindingPower := 3
def logical : BindingPower := 4
def relational : BindingPower := 5
def additive : BindingPower := 6
def multiplicative : BindingPower := 7
def unary : BindingPower := 8
def call : BindingPower := 9
def member : BindingPower := 10
def primary : BindingPower := 11

end BindingPower

inductive StatementHandler
  | parseBlockStmt | parseVarDeclStmt | parseFuncDeclaration | parseIfStmt | parseImportStmt | parseForeachStmt
  | parseWhileStmt | parseClassDeclStmt | parseInterfaceDeclStmt | parseFuncReturnStmt | parseBreakStmt
  | parseAtomicBlockStmt
deriving DecidableEq

inductive NudHandler
  | parsePrimaryExpr | parsePrefixExpr | parseArrayLiteralExpr | parseNullExpr | parseGroupingExpr | parseFuncExpr
  | parseNewExpr
deriving DecidableEq

inductive LedHandler
  | parseAssignmentExpr | parseBinaryExpr | parseRangeExpr | parseMemberExpr | parseCallExpr
deriving DecidableEq

/-- The four lookup tables. A kind without an entry has the power 0. -/
structure Tables where
  bp : TokenKind → BindingPower
  nud : TokenKind → Option NudHandler
  led : TokenKind → Option LedHandler
  statement : TokenKind → Option StatementHandler

/-- A call of `led`, `nud` or `statement`. -/
inductive Registration
  | led (kind : TokenKind) (bp : BindingPower) (ledFn : LedHandler)
  | nud (kind : TokenKind) (nudFn : NudHandler)
  | statement (kind : TokenKind) (stmtFn : StatementHandler)

namespace Tables

def empty : Tables := ⟨fun _ => 0, fun _ => none, fun _ => none, fun _ => none⟩

def setBp (t : Tables) (kind : TokenKind) (bp : BindingPower) : Tables :=
  { t with bp := fun k => if k = kind then bp else t.bp k }

def register (t : Tables) : Registration → Tables
  | .led kind bp ledFn => { t.setBp kind bp with led := fun k => if k = kind then some ledFn else t.led k }
  | .nud kind nudFn => { t.setBp kind .primary with nud := fun k => if k = kind then some nudFn else t.nud k }
  | .statement kind stmtFn =>
    { t.setBp kind .defaultBp with statement := fun k => if k = kind then some stmtFn else t.statement k }

end Tables

def buildTokensTable : List Registration :=
  [.led .ASSIGNMENT .assignment .parseAssignmentExpr,
    .led .PLUS_EQUALS .assignment .parseAssignmentExpr,
    .led .MINUS_EQUALS .assignment .parseAssignmentExpr,
    .led .BITWIZE_LEFTSHIFT .bitwise .parseBinaryExpr,
    .led .BITWIZE_RIGHTSHIFT .bitwise .parseBinaryExpr,
    .led .AND .logical .parseBinaryExpr,
    .led .OR .logical .parseBinaryExpr,
    .led .DOT_DOT .logical .parseRangeExpr,
    .led .BITWISE_AND .logical .parseBinaryExpr,
    .led .BITWISE_OR .logical .parseBinaryExpr,
    .led .BITWISE_XOR .logical .parseBinaryExpr,
    .led .LESS .relational .parseBinaryExpr,
    .led .LESS_EQUALS .relational .parseBinaryExpr,
    .led .GREATER .relational .parseBinaryExpr,
    .led .GREATER_EQUALS .relational .parseBinaryExpr,
    .led .EQUALS .relational .parseBinaryExpr,
    .led .NOT_EQUALS .relational .parseBinaryExpr,
    .led .QUESTION .relational .parseBinaryExpr,
    .led .PLUS .additive .parseBinaryExpr,
    .led .DASH .additive .parseBinaryExpr,
    .led .SLASH .multiplicative .parseBinaryExpr,
    .led .STAR .multiplicative .parseBinaryExpr,
    .led .PERCENT .multiplicative .parseBinaryExpr,
    .nud .NUMBER .parsePrimaryExpr,
    .nud .STRING .parsePrimaryExpr,
    .nud .IDENTIFIER .parsePrimaryExpr,
    .nud .TYPEOF .parsePrefixExpr,
    .nud .DASH .parsePrefixExpr,
    .nud .NOT .parsePrefixExpr,
    .nud .BITWISE_NOT .parsePrefixExpr,
    .nud .OPEN_BRACKET .parseArrayLiteralExpr,
    .led .DOT .member .parseMemberExpr,
    .led .OPEN_BRACKET .member .parseMemberExpr,
    .led .OPEN_PAREN .call .parseCallExpr,
    .nud .NULL .parseNullExpr,
    .nud .OPEN_PAREN .parseGroupingExpr,
    .nud .FN .parseFuncExpr,
    .nud .NEW .parseNewExpr,
    .statement .OPEN_CURLY .parseBlockStmt,
    .statement .SAY .parseVarDeclStmt,
    .statement .CONST .parseVarDeclStmt,
    .statement .FN .parseFuncDeclaration,
    .statement .IF .parseIfStmt,
    .statement .USING .parseImportStmt,
    .statement .FOREACH .parseForeachStmt,
    .statement .WHILE .parseWhileStmt,
    .statement .CLASS .parseClassDeclStmt,
    .statement .INTERFACE .parseInterfaceDeclStmt,
    .statement .RETURN .parseFuncReturnStmt,
    .statement .BREAK .parseBreakStmt,
    .statement .OPEN_ATOMIC .parseAtomicBlockStmt]

def tables : Tables := buildTokensTable.foldl Tables.register Tables.empty

def ledPower (kind : TokenKind) : BindingPower :=
  (buildTokensTable.findSome? fun
    | .led k bp _ => if k = kind then some bp else none
    | _ => none).getD .defaultBp

/-- The handlers of `BuildTypeTokensTable`. No type handler extends a type to the right. -/
inductive TypeNudHandler
  | symbolType | listType | tupleType

def typeNudTable : TokenKind → Option TypeNudHandler
  | .IDENTIFIER => some .symbolType
  | .OPEN_BRACKET => some .listType
  | .OPEN_PAREN => some .tupleType
  | _ => none

def typeBpTable (kind : TokenKind) : BindingPower := if (typeNudTable kind).isSome then .primary else .defaultBp

end Picasso.Parsing
