import Picasso.Access.Expressions

namespace Picasso.Access

open Lexing Parsing Declare

variable {ν : Type} (c : Context)

section Scopes

def inBlock (m : M Unit) : M Unit := do
  modify fun g => { g with vars := [] :: g.vars }
  m
  modify fun g => { g with vars := g.vars.tail }

def addVar (name : Bytes) (v : Var Nat) : M Unit := modify fun g => { g with vars := addNewVar name v g.vars }

def processOptional (e : Option (Expression ν)) : M (Option (Var Nat)) :=
  match e with
  | none => return some .null
  | some e => processExpression c e

end Scopes

section Assignments

def unpack (typeNames : List Bytes) (type : ValueType) (n : Nat) : M (List (Option (Var Nat))) :=
  (List.range n).mapM fun i =>
    match typeNames[i]?, c.tupleField type i with
    | some typeName, some t => do return some (← hold (← buildVar c typeName [] (some t)))
    | _, _ => throw .panic

def unpacked (v : Option (Var Nat)) : M (List (Option (Var Nat))) :=
  match v with
  | some (.tuple typeNames type) => unpack c typeNames type typeNames.length
  | v => return [v]

def processRHSValues (assignedValues : List (Option (Expression ν))) (expectedCount : Nat) :
    M (List (Option (Var Nat))) := do
  match assignedValues with
  | [e] =>
    match ← processOptional c e with
    | some (.tuple typeNames type) => unpack c typeNames type expectedCount
    | v => if expectedCount = 1 then return [v] else throw .tupleUnpackFailed
  | es =>
    let rhsVars ← es.mapM fun e => do unpacked c (← processOptional c e)
    if rhsVars.flatten.length = expectedCount then return rhsVars.flatten else throw .tupleUnpackFailed

def assignSymbol (value : Bytes) (rhs : Option (Var Nat)) : M Unit := do
  match search value (← get).vars with
  | none => throw (.unknownVariable value)
  | some v =>
    if v.nativeTypeString = ascii "array" then
      match v, rhs with
      | .array r, some (.array r') =>
        modify fun g => { g with arrays := g.arrays.set r (g.arrays.getD r' ⟨[], 0⟩) }
      | _, _ => throw .panic
    else
      let casted ← castTo c v.nativeTypeString (← loaded .panic rhs)
      let castedVar ← buildVar c v.nativeTypeString [] (some casted)
      if c.update c.view.typeHandler ((← get).describe v) castedVar.load then return () else throw .backend

def assignElement (base : Option (Var Nat)) (indices : Nat) (rhs : Option (Var Nat)) : M Unit := do
  match base with
  | some (.array r) =>
    let a := (← get).arrays.getD r ⟨[], 0⟩
    if indices < a.rank then
      match rhs with
      | some (.array _) => return ()
      | _ => throw .internalError
    else
      let casted ← castTo c a.elementTypeString (← loaded .panic rhs)
      let _ ← buildVar c a.elementTypeString [] (some casted)
  | _ => throw .panic

def assignToTarget (target : Option (Expression ν)) (rhs : Option (Var Nat)) : M Unit :=
  match target with
  | some (.symbol _ value) => assignSymbol c value rhs
  | some (.member _ base property) => do
      let v ← processExpression c base
      let a ← writeMember c v property (resolveRootMember base) rhs
      emit a
  | some (.computed _ base indices) => do
      let v ← processExpression c base
      passArguments c .panic (indices.map fun _ => int64) indices
      assignElement c v indices.length rhs
  | _ => return ()

/-- All right sides come before the first target. -/
def assignVariable (assignees assignedValues : List (Option (Expression ν))) : M Unit := do
  let rhsVars ← processRHSValues c assignedValues assignees.length
  (assignees.zip rhsVars).forM fun e => assignToTarget c e.1 e.2

end Assignments

section Declarations

def atomicObject (type : Bytes) : Except Reject ValueType :=
  if (c.view.classes type).isSome then .ok (.udt type) else .error .panic

/-- An array keeps its record, which is then shared. -/
def buildTypedVar (explicitType : TypeName) (rhsVar : Option (Var Nat)) : M (Var Nat) :=
  match rhsVar with
  | some (.array r) => if c.resolveAlias explicitType.get = ascii "array" then return .array r else cast
  | _ => cast
where
  cast : M (Var Nat) := do
    let casted ← castTo c (c.resolveAlias explicitType.get) (← loaded .panic rhsVar)
    hold (← buildTyped c explicitType (some casted))

def buildZeroVar (explicitType : TypeName) : M (Var Nat) := do
  if isAtomic explicitType then
    let t ← atomicObject c (c.resolveAlias explicitType.get)
    hold (← buildTyped c explicitType (some t))
  else hold (← buildTyped c explicitType none)

def typeAt (explicitTypes : List (Option TypeName)) (i : Nat) : Except Reject TypeName :=
  match explicitTypes[i]? with
  | some (some type) => .ok type
  | _ => .error .panic

def checkNew (identifier : Bytes) : M Unit := do
  if identifier ∈ current (← get).vars then throw (.variableRedeclaration identifier) else return ()

def declaredVars (explicitTypes : List (Option TypeName)) (assignedValues : List (Option (Expression ν))) (n : Nat) :
    M (List (Var Nat)) := do
  if assignedValues.isEmpty then (List.range n).mapM fun i => do buildZeroVar c (← typeAt explicitTypes i)
  else
    let rhsVars ← processRHSValues c assignedValues n
    rhsVars.zipIdx.mapM fun e => do buildTypedVar c (← typeAt explicitTypes e.2) e.1

def declareVariable (identifiers : List Bytes) (explicitTypes : List (Option TypeName))
    (assignedValues : List (Option (Expression ν))) : M Unit := do
  identifiers.forM checkNew
  let vs ← declaredVars c explicitTypes assignedValues identifiers.length
  (identifiers.zip vs).forM fun e => addVar e.1 e.2

end Declarations

section Returns

def returnComponent (types : List TypeName) (e : Expression ν × Nat) : M (ValueType × Bytes) := do
  let v ← processExpression c e.1
  match types[e.2]? with
  | none => throw .panic
  | some type =>
    let expectedType := c.resolveAlias type.get
    let casted ← castTo c expectedType (← loaded .panic v)
    let _ ← buildVar c expectedType [] (some casted)
    match c.view.typeHandler.getLLVMType expectedType with
    | none => throw .panic
    | some t => return (t, expectedType)

/-- The return from a function with a return type. Nothing is cast to no value. -/
def returnValue (rt : Option TypeName) (value : Option (Expression ν)) (values : List (Expression ν)) : M Unit := do
  if values.isEmpty then
    let t ← loaded .panic (← processOptional c value)
    match rt with
    | none => return ()
    | some type =>
      if c.resolveAlias type.get = ascii "void" then return ()
      else
        let _ ← castTo c (c.resolveAlias type.get) t
  else
    match rt with
    | some (.tuple _ types) =>
      let parts ← values.zipIdx.mapM (returnComponent c types)
      if c.globalTypeList (generateTupleName (parts.map Prod.fst) (parts.map Prod.snd)) then return ()
      else throw .internalError
    | _ => throw .tuplePackFailed

end Returns

section Blocks

def processExpressionStatement (e : Expression ν) : M Unit :=
  match e with
  | .assignment _ assignee assignedValue assignees assignedValues =>
    if assignees.isEmpty then assignVariable c [assignee] [assignedValue]
    else assignVariable c (assignees.map some) (assignedValues.map some)
  | .call .. | .new .. => do let _ ← processExpression c e
  | _ => throw .invalidStatement

def processCondition (condition : Expression ν) : M Unit := do
  if c.condition (← loaded .panic (← processExpression c condition)) then return () else throw .backend

def processBound (e : Expression ν) : M (Var Nat) := do
  let casted ← castTo c (ascii "int") (← loaded .panic (← processExpression c e))
  hold (← buildVar c (ascii "int") [] (some casted))

/-- The index of a loop is in scope for the upper bound already. -/
def processRange (value : Bytes) (iterable : Expression ν) : M Unit :=
  match iterable with
  | .range _ lower upper => do
      addVar value (← processBound c lower)
      let _ ← processBound c upper
  | _ => throw .panic

mutual

/-- A statement in a function with a return type and inside of `loops` loops;
the result tells whether the rest of the block is left out. -/
def processStatement (rt : Option TypeName) (loops : Nat) : Statement ν → M Bool
  | .variableDeclaration _ identifier assignedValue explicitType _ _ => do
      declareVariable c [identifier] [explicitType] (assignedValue.toList.map some)
      return false
  | .variableDeclarations _ identifiers explicitTypes assignedValues _ _ => do
      declareVariable c identifiers explicitTypes (assignedValues.map some)
      return false
  | .expression _ e => do
      processExpressionStatement c e
      return false
  | .atomicBlock _ body => do
      inBlock (processStatements rt loops body)
      return false
  | .ifStatement _ condition consequent alternate => do
      processCondition c condition
      processConsequent rt loops consequent
      match alternate with
      | some (.block _ body) => do
          inBlock (processStatements rt loops body)
          return false
      | some (.ifStatement loc condition consequent alternate) =>
        processStatement rt loops (.ifStatement loc condition consequent alternate)
      | _ => return false
  | .foreachStatement _ value _ iterable body => do
      inBlock (do
        processRange c value iterable
        inBlock (processStatements rt (loops + 1) body))
      return false
  | .whileStatement _ condition body => do
      inBlock (do
        processCondition c condition
        inBlock (processStatements rt (loops + 1) body))
      return false
  | .breakStatement _ => if loops = 0 then throw .invalidBreakStatement else return true
  | .returnStatement _ value values _ => do
      returnValue c rt (value.map Prod.snd) values
      return true
  | _ => return false

def processConsequent (rt : Option TypeName) (loops : Nat) : Statement ν → M Unit
  | .block _ body => inBlock (processStatements rt loops body)
  | _ => throw .panic

def processStatements (rt : Option TypeName) (loops : Nat) : List (Statement ν) → M Unit
  | [] => return ()
  | st :: sts => do
      if ← processStatement rt loops st then return () else processStatements rt loops sts

end

def processBlock (rt : Option TypeName) (body : List (Statement ν)) : M Unit :=
  inBlock (processStatements c rt 0 body)

end Blocks

section Functions

structure FunctionDefinition (ν : Type) where
  name : Bytes
  parameters : List Parameter
  returnType : Option TypeName
  body : List (Statement ν)

def functionDefinitions (body : List (Statement ν)) : List (FunctionDefinition ν) :=
  body.filterMap fun
    | .functionDefinition _ parameters name body _ returnType _ _ => some ⟨name, parameters, returnType, body⟩
    | _ => none

/-- A field with its initial value, which is only kept where a single field is
declared. -/
structure FieldInit (ν : Type) where
  identifier : Bytes
  explicitType : Option TypeName
  assignedValue : Option (Expression ν)

def fieldInits (body : List (Statement ν)) : List (FieldInit ν) :=
  body.flatMap fun
    | .variableDeclaration _ identifier assignedValue explicitType _ _ => [⟨identifier, explicitType, assignedValue⟩]
    | .variableDeclarations _ identifiers explicitTypes _ _ _ =>
      identifiers.zipWith (fun identifier explicitType => ⟨identifier, explicitType, none⟩) explicitTypes
    | _ => []

def initialType (explicitType : TypeName) (assignedValue : Option (Expression ν)) : M ValueType := do
  let tp := c.resolveAlias explicitType.get
  match assignedValue with
  | none =>
    if isAtomic explicitType then atomicObject c tp
    else
      let v ← buildTyped c explicitType none
      return v.load
  | some e =>
    match ← processExpression c e with
    | none => throw .panic
    | some v =>
      let casted ← castTo c tp v.load
      if v.nativeTypeString = ascii "array" then return v.load
      else
        let v ← buildVar c tp [] (some casted)
        return v.load

def initField (cv : ClassView) (fqClsName : Bytes) (field : FieldInit ν) : M Unit := do
  match field.explicitType with
  | none => throw .panic
  | some explicitType =>
    let fieldType ← memberType cv fqClsName field.identifier .panic
    let t ← initialType c explicitType field.assignedValue
    ensure c t fieldType

/-- The fields get their values; the source goes through them in no fixed order. -/
def defineConstructor (fqClsName : Bytes) (body : List (Statement ν)) : M Unit := do
  let cv ← instantiable c fqClsName
  (fieldInits body).forM (initField c cv fqClsName)

def isConstructor (fqFuncName fqClsName : Bytes) : Bool := endName fqFuncName = endName fqClsName

def bindThis (fqClsName : Bytes) (cls : ClassDeclaration ν) (fqFuncName name : Bytes) (t : ValueType) : M Unit := do
  match c.view.classes fqClsName with
  | none => throw (.unknownClass fqClsName)
  | some _ =>
    if t = .udt fqClsName then
      if isConstructor fqFuncName fqClsName then defineConstructor c fqClsName cls.body else pure ()
      addVar name (.cls fqClsName t)
    else throw .internalError

def bindParameter (fqClsName : Bytes) (cls : ClassDeclaration ν) (fn : FunctionDefinition ν)
    (p : (Bytes × ValueType) × Nat) : M Unit := do
  match fn.parameters[p.2]? with
  | some parameter => addVar p.1.1 (← hold (← buildTyped c parameter.type (some p.1.2)))
  | none => bindThis c fqClsName cls (attach fqClsName fn.name) p.1.1 p.1.2

/-- The names of the parameters, which are those of the first method of the
name. -/
def parameterNames (cls : ClassDeclaration ν) (name : Bytes) : List Bytes :=
  ((findMethod cls.body name).elim [] fun m => m.parameters.map Parameter.name) ++ [thisName]

def getRetType (name : Bytes) : Option TypeName :=
  ((c.view.classes (moduleOf name)).bind fun cv => cv.returns name).join

def defineFunc (fqClsName : Bytes) (cls : ClassDeclaration ν) (fn : FunctionDefinition ν) : M Unit :=
  match (c.view.classes fqClsName).bind fun cv => cv.methods (attach fqClsName fn.name) with
  | some (.func _ params) =>
    inBlock (do
      ((parameterNames cls fn.name).zip params).zipIdx.forM (bindParameter c fqClsName cls fn)
      processBlock c (getRetType c (attach fqClsName fn.name)) fn.body)
  | _ => throw .panic

def checkRedeclaration (fqClsName : Bytes) (avoid : List Bytes) (fn : FunctionDefinition ν) : Except Reject Unit :=
  if attach fqClsName fn.name ∈ avoid then .error (.methodRedeclaration (attach fqClsName fn.name)) else .ok ()

def defineClassFuncs (cls : ClassDeclaration ν) : M Unit := do
  let fqClsName := attach c.moduleName cls.name
  (functionDefinitions cls.body).zipIdx.forM fun e => do
    checkRedeclaration fqClsName (((functionDefinitions cls.body).take e.2).map FunctionDefinition.name) e.1
    defineFunc c fqClsName cls e.1

def argsName : Bytes := ascii "args"

/-- The parameter of the main function goes by a name of its own. -/
def defineMainFunc (fn : FunctionDefinition ν) : M Unit :=
  match fn.parameters, fn.returnType with
  | [], _ => throw (.invalidMainMethodSignature (ascii "args missing main function"))
  | _, some _ => throw (.invalidMainMethodSignature (ascii "expected no return type for main functions"))
  | p :: _, none =>
    inBlock (do
      addVar argsName (← hold (← buildTyped c p.type (some .array)))
      processBlock c none fn.body)

def mainName : Bytes := ascii "start"

def define (tree : List (Statement ν)) : M Unit := do
  (classDeclarations tree).forM (defineClassFuncs c)
  ((functionDefinitions tree).filter fun fn => fn.name = mainName).forM (defineMainFunc c)

def accesses (tree : List (Statement ν)) : Except Reject (List MemberAccess) :=
  match define c tree ⟨[], [], []⟩ with
  | .error e => .error e
  | .ok (_, g) => .ok g.accesses

end Functions

end Picasso.Access
