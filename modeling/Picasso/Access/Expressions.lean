import Picasso.Access.Handlers

namespace Picasso.Access

open Lexing Parsing Declare

variable {ν : Type} (c : Context)

section Generation

/-- The scopes, the records of arrays, and the member accesses of the code so
far. Variables may share a record. -/
structure Gen where
  vars : VarTree Bytes (Var Nat)
  arrays : List ArrayType
  accesses : List MemberAccess

abbrev M := StateT Gen (Except Reject)

def Gen.describe (g : Gen) (v : Var Nat) : Var ArrayType := v.map fun r => g.arrays.getD r ⟨[], 0⟩

def hold (v : Var ArrayType) : M (Var Nat) := fun g =>
  match v with
  | .array a => .ok (.array g.arrays.length, { g with arrays := g.arrays ++ [a] })
  | v => .ok (v.map fun _ => 0, g)

def emit (a : MemberAccess) : M Unit := modify fun g => { g with accesses := g.accesses ++ [a] }

def made (v : Option (Var ArrayType)) : M (Option (Var Nat)) :=
  match v with
  | none => throw .backend
  | some v => do return some (← hold v)

def holdResult (v : Option (Var ArrayType)) : M (Option (Var Nat)) :=
  match v with
  | none => pure none
  | some v => do return some (← hold v)

def loaded (onNil : Reject) (v : Option (Var Nat)) : M ValueType :=
  match v with
  | none => throw onNil
  | some v => pure v.load

end Generation

section Leaves

def typeHolder (type : Bytes) : M (Option (Var Nat)) := do
  return some (← hold (← buildVar c type [] none))

def processSymbolExpression (value : Bytes) : M (Option (Var Nat)) := do
  match search value (← get).vars with
  | none => throw (.unknownVariable value)
  | some v => return some v

/-- A type or a variable of an imported package, where a name stands in front of
the dot. -/
def importedMember (base : Expression ν) (property : Bytes) : Option (M (Option (Var Nat))) :=
  match base with
  | .symbol _ value =>
    if typeExists c.view.typeHandler (c.resolveAlias (attach value property)) then
      some (typeHolder c (c.resolveAlias (attach value property)))
    else if value ∈ c.imports then
      some (
        match c.globals value property with
        | some v => made v
        | none => do
            match search (attach value property) (← get).vars with
            | none => throw (.unknownVariable property)
            | some v => return some v)
    else none
  | _ => none

def libMethod (method : Expression ν) : Option (List (Option (Var ArrayType)) → Option (Option (Var ArrayType))) :=
  match method with
  | .member _ (.symbol _ value) property => c.libMethods value property
  | _ => none

def callLibMethod (f : List (Option (Var ArrayType)) → Option (Option (Var ArrayType))) (args : List (Option (Var Nat))) :
    M (Option (Var Nat)) := do
  let g ← get
  match f (args.map (Option.map g.describe)) with
  | none => throw .backend
  | some v => holdResult v

def element (base : Option (Var Nat)) (indices : Nat) : M (Option (Var Nat)) := do
  match base with
  | some (.array r) =>
    let a := (← get).arrays.getD r ⟨[], 0⟩
    if indices < a.rank then return some (← hold (.array ⟨a.elementTypeString, a.rank - indices⟩))
    else
      let v ← buildVar c a.elementTypeString [] (c.view.typeHandler.getLLVMType a.elementTypeString)
      return some (← hold v)
  | _ => throw .panic

def explicitCast (type : Bytes) (v : Option (Var Nat)) : M (Option (Var Nat)) := do
  match c.explicitTypeCast c.view.typeHandler type (← loaded .panic v) with
  | none => throw .backend
  | some t => return some (← hold (← buildVar c type [] (some t)))

def binaryLeft (operator : Token) (left : Option (Var Nat)) : M Unit := do
  if c.leftOperand operator (left.map (← get).describe) then return () else throw .backend

def binaryResult (operator : Token) (left right : Option (Var Nat)) : M (Option (Var Nat)) := do
  let g ← get
  made (c.binary operator (left.map g.describe) (right.map g.describe))

def prefixResult (operator : Token) (operand : Option (Var Nat)) : M (Option (Var Nat)) := do
  made (c.prefixed operator (operand.map (← get).describe))

def isClass : Option (Var Nat) → Bool
  | some (.cls ..) => true
  | _ => false

def threadName : Bytes := ascii "thread"

def int64 : Bytes := ascii "int64"

end Leaves

mutual

/-- The value of an expression; the call of a method without result has none. -/
def processExpression : Expression ν → M (Option (Var Nat))
  | .null _ => return some .null
  | .symbol _ value =>
    if typeExists c.view.typeHandler value then typeHolder c value else processSymbolExpression value
  | .number .. => return some (.value (ascii "float64") .double)
  | .string .. => return some (.value (ascii "string") .string)
  | .new _ method arguments => do
      let k ← constructor c method
      passArguments .internalError (k.expected c) arguments
      let (v, a) ← k.call
      emit a
      return some (← hold v)
  | .member _ base property =>
    match importedMember c base property with
    | some v => v
    | none => do
        let v ← processExpression base
        let (v, a) ← readMember c v property (resolveRootMember base)
        emit a
        return some (← hold v)
  | .computed _ base indices => do
      let v ← processExpression base
      passArguments .panic (indices.map fun _ => int64) indices
      element c v indices.length
  | .prefixed _ operator operand => do prefixResult c operator (← processExpression operand)
  | .binary _ left operator right => do
      let l ← processExpression left
      binaryLeft c operator l
      binaryResult c operator l (← processExpression right)
  | .call _ method arguments =>
    match libMethod c method with
    | some f => do callLibMethod f (← processArguments arguments)
    | none =>
      match method with
      | .symbol _ name =>
        if typeExists c.view.typeHandler name then
          match arguments with
          | [] => throw .panic
          | e :: _ => do explicitCast c name (← processExpression e)
        else if name = threadName then
          match arguments with
          | .member _ base property :: rest => do
              let v ← processExpression base
              let (callee, a) ← spawnedMethod c v property (resolveRootMember base)
              passArguments .panic (callee.params.map getTypeString) rest
              emit a
              return none
          | _ => throw .panic
        else throw (.unknownMethod name)
      | .member _ base property => do
          let v ← processExpression base
          let (callee, a) ← calledMethod c v property (resolveRootMember base)
          passArguments .panic (callee.expected c) arguments
          emit a
          holdResult (← callResult c callee (isClass v))
      | _ => return none
  | _ => throw .invalidExpression

def processArguments : List (Expression ν) → M (List (Option (Var Nat)))
  | [] => return []
  | e :: es => do
      let v ← processExpression e
      return v :: (← processArguments es)

def passArguments (onNil : Reject) : List Bytes → List (Expression ν) → M Unit
  | _, [] => return ()
  | expected, e :: es => do
      let v ← processExpression e
      let t ← loaded onNil v
      match expected with
      | [] => throw .panic
      | target :: expected => do
          let _ ← castTo c target t
          passArguments onNil expected es

end

end Picasso.Access
