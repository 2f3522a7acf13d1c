import Picasso.Lexing.Token

namespace Picasso.Parsing

open Lexing

inductive TypeName
  | symbol (atomic : Bool) (value : Bytes)
  | list (atomic : Bool) (underlying : TypeName)
  | tuple (atomic : Bool) (types : List TypeName)
deriving Repr

def TypeName.setAtomic : TypeName → TypeName
  | .symbol _ value => .symbol true value
  | .list _ underlying => .list true underlying
  | .tuple _ types => .tuple true types

def TypeName.get : TypeName → Bytes
  | .symbol true value => ascii "atomic_" ++ value ++ ascii "_t"
  | .symbol false value => value
  | .list .. => ascii "array"
  | .tuple .. => ascii "tuple"

structure Parameter where
  name : Bytes
  type : TypeName
deriving Repr

mutual

/-- Expressions, over the values `ν` of the number literals. Every node carries
the place of the token after it. -/
inductive Expression (ν : Type)
  | number (loc : SourceLoc) (value : ν)
  | string (loc : SourceLoc) (value : Bytes)
  | symbol (loc : SourceLoc) (value : Bytes)
  | binary (loc : SourceLoc) (left : Expression ν) (operator : Token) (right : Expression ν)
  | assignment (loc : SourceLoc) (assignee assignedValue : Option (Expression ν))
      (assignees assignedValues : List (Expression ν))
  | prefixed (loc : SourceLoc) (operator : Token) (operand : Expression ν)
  | member (loc : SourceLoc) (member : Expression ν) (property : Bytes)
  | call (loc : SourceLoc) (method : Expression ν) (arguments : List (Expression ν))
  | computed (loc : SourceLoc) (member : Expression ν) (indices : List (Expression ν))
  | range (loc : SourceLoc) (lower upper : Expression ν)
  | function (loc : SourceLoc) (parameters : List Parameter) (body : List (Statement ν)) (returnType : Option TypeName)
  | list (loc : SourceLoc) (constants : List (Expression ν))
  | new (callLoc : SourceLoc) (method : Expression ν) (arguments : List (Expression ν))
  | null (loc : SourceLoc)

inductive Statement (ν : Type)
  | block (loc : SourceLoc) (body : List (Statement ν))
  | variableDeclaration (loc : SourceLoc) (identifier : Bytes) (assignedValue : Option (Expression ν))
      (explicitType : Option TypeName) (isStatic isInternal : Bool)
  | variableDeclarations (loc : SourceLoc) (identifiers : List Bytes) (explicitTypes : List (Option TypeName))
      (assignedValues : List (Expression ν)) (isStatic isInternal : Bool)
  | expression (loc : SourceLoc) (expression : Expression ν)
  | functionDefinition (loc : SourceLoc) (parameters : List Parameter) (name : Bytes) (body : List (Statement ν))
      (hash : UInt32) (returnType : Option TypeName) (isStatic isInternal : Bool)
  | returnStatement (loc : SourceLoc) (value : Option (SourceLoc × Expression ν)) (values : List (Expression ν))
    (isVoid : Bool)
  | ifStatement (loc : SourceLoc) (condition : Expression ν) (consequent : Statement ν)
    (alternate : Option (Statement ν))
  | importStatement (loc : SourceLoc) (name importAlias : Bytes)
  | foreachStatement (loc : SourceLoc) (value : Bytes) (index : Bool) (iterable : Expression ν)
    (body : List (Statement ν))
  | whileStatement (loc : SourceLoc) (condition : Expression ν) (body : List (Statement ν))
  | classDeclaration (loc : SourceLoc) (name : Bytes) (body : List (Statement ν)) (implements : Bytes)
    (isInternal : Bool)
  | interfaceDeclaration (loc : SourceLoc) (name : Bytes) (body : List (Statement ν))
  | breakStatement (loc : SourceLoc)
  | atomicBlock (loc : SourceLoc) (body : List (Statement ν))

end

end Picasso.Parsing
