import Picasso.Declare.Define

namespace Picasso.Access

open Lexing Parsing Declare

section Scopes

variable {ν V : Type} [DecidableEq ν]

/-- The stack of scopes, the innermost first. -/
abbrev VarTree (ν V : Type) := List (List (ν × V))

def search (x : ν) (t : VarTree ν V) : Option V := t.flatten.lookup x

def addNewVar (x : ν) (v : V) : VarTree ν V → VarTree ν V
  | [] => []
  | top :: outer => ((x, v) :: top) :: outer

def current : VarTree ν V → List ν
  | [] => []
  | top :: _ => top.map Prod.fst

end Scopes

section Values

/-- A value as the compiler knows it, over what it knows of arrays: what it is
wrapped in, and the type of what is loaded from it. -/
inductive Var (α : Type)
  | value (typeName : Bytes) (type : ValueType)
  | cls (name : Bytes) (udt : ValueType)
  | interfaceH (name : Bytes) (udt : ValueType)
  | array (array : α)
  | tuple (typeNames : List Bytes) (type : ValueType)
  | null
deriving DecidableEq, Repr

structure ArrayType where
  elementTypeString : Bytes
  rank : Nat
deriving DecidableEq, Repr

variable {α β : Type}

def Var.map (f : α → β) : Var α → Var β
  | .value typeName type => .value typeName type
  | .cls name udt => .cls name udt
  | .interfaceH name udt => .interfaceH name udt
  | .array a => .array (f a)
  | .tuple typeNames type => .tuple typeNames type
  | .null => .null

/-- The type of what is loaded; null is a pointer to a struct without fields. -/
def Var.load : Var α → ValueType
  | .value _ type | .cls _ type | .interfaceH _ type | .tuple _ type => type
  | .array _ => .array
  | .null => .udt (ascii "\x7b\x7d")

def Var.nativeTypeString : Var α → Bytes
  | .value typeName _ => typeName
  | .cls name _ | .interfaceH name _ => name
  | .array _ => ascii "array"
  | .tuple .. => ascii "tuple"
  | .null => ascii "null"

def getTypeString : ValueType → Bytes
  | .void => ascii "void"
  | .i1 => ascii "i1"
  | .i8 => ascii "i8"
  | .i16 => ascii "i16"
  | .i32 => ascii "i32"
  | .i64 => ascii "i64"
  | .half => ascii "half"
  | .float => ascii "float"
  | .double => ascii "double"
  | .string => ascii "string"
  | .array => ascii "array"
  | .udt name | .tuple name => name

def getRank : TypeName → Nat
  | .list _ underlying => getRank underlying + 1
  | _ => 0

def isAtomic : TypeName → Bool
  | .symbol atomic _ | .list atomic _ | .tuple atomic _ => atomic

def nativeWrappers : List (Bytes × Bytes × ValueType) :=
  [(ascii "boolean", ascii "boolean", .i1), (ascii "i1", ascii "boolean", .i1),
    (ascii "int8", ascii "int8", .i8), (ascii "i8", ascii "int8", .i8), (ascii "uint8", ascii "uint8", .i8),
    (ascii "int16", ascii "int16", .i16), (ascii "i16", ascii "int16", .i16), (ascii "uint16", ascii "uint16", .i16),
    (ascii "int32", ascii "int32", .i32), (ascii "i32", ascii "int32", .i32), (ascii "uint32", ascii "uint32", .i32),
    (ascii "int64", ascii "int64", .i64), (ascii "int", ascii "int64", .i64), (ascii "i64", ascii "int64", .i64),
    (ascii "uint64", ascii "uint64", .i64), (ascii "uint", ascii "uint64", .i64),
    (ascii "float16", ascii "float16", .half), (ascii "half", ascii "float16", .half),
    (ascii "float32", ascii "float32", .float), (ascii "float", ascii "float32", .float),
    (ascii "float64", ascii "float64", .double), (ascii "double", ascii "float64", .double)]

end Values

section Contexts

/-- What the handlers read of the metadata of a class, which is held in maps;
`internalFields` is looked up for the members of the class only. -/
structure ClassView where
  fieldIndexMap : Bytes → Option Nat
  varAST : Bytes → Option TypeName
  internalFields : Bytes → Bool
  methods : Bytes → Option FieldType
  methodArgs : Bytes → Option (List TypeName)
  returns : Bytes → Option (Option TypeName)
  fields : List FieldType
  internal : Bool

def ClassView.of (fqName : Bytes) (mc : MetaClass) : ClassView where
  fieldIndexMap := mc.fieldIndexMap.lookup
  varAST := mc.varAST.lookup
  internalFields property := decide (attach fqName property ∈ mc.internalFields)
  methods := mc.methods.lookup
  methodArgs := mc.methodArgs.lookup
  returns := mc.returns.lookup
  fields := mc.fields
  internal := mc.internal

structure View where
  aliasMap : AliasMap
  typeHandler : TypeHandler
  classes : Bytes → Option ClassView
  interfaces : Bytes → Bool

def View.of (st : State) : View where
  aliasMap := st.aliasMap
  typeHandler := st.typeHandler
  classes name := (st.classes.lookup name).map (ClassView.of name)
  interfaces name := (st.interfaces.lookup name).isSome

/-- The rest of the compiler, where `none` and `false` stand for its aborts:
casts, stores and operators, the functions and variables of libraries by the
name in front of the dot, the types of tuples, and those of the runtime. -/
structure Backend where
  implicitTypeCast : TypeHandler → Bytes → ValueType → Option ValueType
  explicitTypeCast : TypeHandler → Bytes → ValueType → Option ValueType
  ensureType : TypeHandler → ValueType → FieldType → Bool
  update : TypeHandler → Var ArrayType → ValueType → Bool
  condition : ValueType → Bool
  leftOperand : Token → Option (Var ArrayType) → Bool
  binary : Token → Option (Var ArrayType) → Option (Var ArrayType) → Option (Var ArrayType)
  prefixed : Token → Option (Var ArrayType) → Option (Var ArrayType)
  libMethods : Bytes → Bytes → Option (List (Option (Var ArrayType)) → Option (Option (Var ArrayType)))
  globals : Bytes → Bytes → Option (Option (Var ArrayType))
  tupleField : ValueType → Nat → Option ValueType
  globalTypeList : Bytes → Bool
  types : List (Bytes × List FieldType)

structure Context extends Backend where
  view : View
  moduleName : Bytes
  imports : List Bytes

def Context.resolveAlias (c : Context) (name : Bytes) : Bytes := Declare.resolveAlias c.view.aliasMap name

/-- The aborts of the handlers; `backend` stands for those of the rest of the
compiler, and `panic` for those of the language in which they are written. -/
inductive Reject
  | fieldNotAccessible (cls property : Bytes)
  | classNotAccessible (cls : Bytes)
  | interfaceInstantiationError (name : Bytes)
  | unknownClass (name : Bytes)
  | unknownClassField (property cls : Bytes)
  | unknownMethod (name : Bytes)
  | unknownVariable (name : Bytes)
  | variableRedeclaration (name : Bytes)
  | methodRedeclaration (name : Bytes)
  | invalidMainMethodSignature (what : Bytes)
  | tupleUnpackFailed
  | tuplePackFailed
  | invalidStatement
  | invalidExpression
  | invalidBreakStatement
  | internalError
  | backend
  | panic
deriving DecidableEq, Repr

inductive Kind
  | read | write | call | spawn | construct
deriving DecidableEq, Repr

/-- The use of a member of a class by code that is emitted; `fromThis` tells
whether the chain of members starts at `this`. -/
structure MemberAccess where
  kind : Kind
  cls : Bytes
  property : Bytes
  fromThis : Bool
deriving DecidableEq, Repr

end Contexts

section Handlers

variable {ν α : Type} (c : Context)

def thisName : Bytes := ascii "this"

def resolveRootMember : Expression ν → Except Reject Bytes
  | .symbol _ value => .ok value
  | .member _ base _ => resolveRootMember base
  | .computed _ base _ => resolveRootMember base
  | _ => .error .panic

def castTo (target : Bytes) (type : ValueType) : Except Reject ValueType :=
  match c.implicitTypeCast c.view.typeHandler target type with
  | none => .error .backend
  | some t => .ok t

def ensure (type : ValueType) (expected : FieldType) : Except Reject Unit :=
  if c.ensureType c.view.typeHandler type expected then .ok () else .error .backend

/-- The types that may stand in expressions. One of the names has a digit for a
letter. -/
def typeExists (th : TypeHandler) (type : Bytes) : Bool :=
  [ascii "null", ascii "void", ascii "boolean", ascii "i1", ascii "int8", ascii "uint8", ascii "i8", ascii "int16",
      ascii "uint16", ascii "i16", ascii "int32", ascii "uint32", ascii "132", ascii "int64", ascii "uint64",
      ascii "int", ascii "uint", ascii "i64", ascii "float16", ascii "half", ascii "float32", ascii "float",
      ascii "float64", ascii "double", ascii "string"].contains type ||
    th.classUDTS.contains type || th.interfaceUDTS.contains type

/-- A variable of a class, an interface or another name. One of an interface goes
by the name of the type of its initial value. -/
def buildObject (type : Bytes) (init : Option ValueType) : Except Reject (Var ArrayType) :=
  let t := init.getD (.udt type)
  if type ∈ c.view.typeHandler.interfaceUDTS then do
    if t = .udt type then .ok () else ensure c t (.value (.udt type))
    .ok (.interfaceH (getTypeString t) (.udt type))
  else if type ∈ c.view.typeHandler.classUDTS then
    if t = .udt type then .ok (.cls type t) else .error .internalError
  else .error .panic

/-- A variable of a type, with the type of its initial value, if it has one. A
half is loaded as a float if it is not a constant. -/
def buildVar (type underlying : Bytes) (init : Option ValueType) : Except Reject (Var ArrayType) :=
  match nativeWrappers.lookup type with
  | some (typeName, t) =>
    if init.getD t = t then .ok (.value typeName (if t = .half ∧ init.isSome then .float else t)) else .error .panic
  | none =>
    if type = ascii "string" ∨ type = ascii "i8*" then .ok (.value (ascii "string") .string)
    else if type = ascii "null" ∨ type = ascii "void" then if init.isSome then .ok .null else .error .panic
    else if type = ascii "array" then
      if underlying = [] then .error .internalError
      else if (c.view.typeHandler.getLLVMType underlying).isSome then .ok (.array ⟨underlying, 0⟩)
      else .error .panic
    else buildObject c type init

def buildTyped (type : TypeName) (init : Option ValueType) : Except Reject (Var ArrayType) :=
  buildVar c (c.resolveAlias type.get) (c.resolveAlias (getUnderlyingType type)) init

def checkAccess (cv : ClassView) (name property root : Bytes) : Except Reject Unit :=
  if root ≠ thisName ∧ cv.internalFields property = true then
    .error (.fieldNotAccessible name property)
  else .ok ()

def classView (name : Bytes) : Except Reject ClassView :=
  match c.view.classes name with
  | none => .error .internalError
  | some cv => .ok cv

def memberType (cv : ClassView) (name property : Bytes) (unknown : Reject) : Except Reject FieldType :=
  match cv.fieldIndexMap (attach name property) with
  | none => .error unknown
  | some i =>
    match cv.fields[i]? with
    | none => .error .panic
    | some type => .ok type

/-- What a field is wrapped in. A pointer to a function is read as a string, and
a string as an object of no class. -/
def fieldVar (cv : ClassView) (fieldFqName : Bytes) : FieldType → Except Reject (Var ArrayType)
  | .func .. => .ok (.value (ascii "string") .string)
  | .value .array =>
    match cv.varAST fieldFqName with
    | none => .error .panic
    | some type => .ok (.array ⟨c.resolveAlias (getUnderlyingType type), getRank type⟩)
  | .value (.udt name) => .ok (.cls name (.udt name))
  | .value .string => .ok (.cls [] .string)
  | .value .i1 => .ok (.value (ascii "boolean") .i1)
  | .value .i8 => .ok (.value (ascii "int8") .i8)
  | .value .i16 => .ok (.value (ascii "int16") .i16)
  | .value .i32 => .ok (.value (ascii "int32") .i32)
  | .value .i64 => .ok (.value (ascii "int64") .i64)
  | .value .half => .ok (.value (ascii "float16") .half)
  | .value .float => .ok (.value (ascii "float32") .float)
  | .value .double => .ok (.value (ascii "float64") .double)
  | .value .void | .value (.tuple _) => .error .internalError

def readMember (base : Option (Var α)) (property : Bytes) (root : Except Reject Bytes) :
    Except Reject (Var ArrayType × MemberAccess) :=
  match base with
  | some (.cls name _) => do
      let cv ← classView c name
      let root ← root
      checkAccess cv name property root
      let type ← memberType cv name property (.unknownClassField property name)
      let v ← fieldVar c cv (attach name property) type
      .ok (v, ⟨.read, name, property, root = thisName⟩)
  | _ => .error .internalError

def storedType (typeName : Bytes) (rhs : Option (Var α)) : Except Reject ValueType :=
  match rhs with
  | none => .error .panic
  | some rhs =>
    if typeName = ascii "array" then .ok rhs.load
    else do
      let casted ← castTo c typeName rhs.load
      let v ← buildVar c typeName [] (some casted)
      .ok v.load

/-- The assignment to a member of an object. The index of an unknown member is
that of the first one. -/
def writeMember (base : Option (Var α)) (property : Bytes) (root : Except Reject Bytes) (rhs : Option (Var α)) :
    Except Reject MemberAccess :=
  match base with
  | some (.cls name _) =>
    match c.view.classes name with
    | none => .error .panic
    | some cv =>
      match cv.fields[(cv.fieldIndexMap (attach name property)).getD 0]?, cv.varAST (attach name property) with
      | some fieldType, some explicitType => do
          let root ← root
          checkAccess cv name property root
          let type ← storedType c (c.resolveAlias explicitType.get) rhs
          ensure c type fieldType
          .ok ⟨.write, name, property, root = thisName⟩
      | _, _ => .error .panic
  | _ => .error .internalError

structure Callee where
  cv : ClassView
  methodFqName : Bytes
  retType : ValueType
  params : List ValueType

def loadMethod (cv : ClassView) (name property : Bytes) : Except Reject Callee := do
  let type ← memberType cv name property (.unknownMethod property)
  match type with
  | .value _ => .error .internalError
  | .func retType params => .ok ⟨cv, attach name property, retType, params⟩

def calledMethod (base : Option (Var α)) (property : Bytes) (root : Except Reject Bytes) :
    Except Reject (Callee × MemberAccess) :=
  match base with
  | some (.cls name _) | some (.interfaceH name _) => do
      let cv ← classView c name
      let root ← root
      checkAccess cv name property root
      let callee ← loadMethod cv name property
      .ok (callee, ⟨.call, name, property, root = thisName⟩)
  | _ => .error .internalError

def spawnedMethod (base : Option (Var α)) (property : Bytes) (root : Except Reject Bytes) :
    Except Reject (Callee × MemberAccess) :=
  match base with
  | some (.cls name _) => do
      let cv ← classView c name
      let callee ← loadMethod cv name property
      .ok (callee, ⟨.spawn, name, property, root.toOption = some thisName⟩)
  | _ => .error .panic

def Callee.expected (callee : Callee) : List Bytes :=
  ((callee.cv.methodArgs callee.methodFqName).getD []).map fun type => c.resolveAlias type.get

/-- The value of a call. Several results are only known of on an object. -/
def callResult (callee : Callee) (isClass : Bool) : Except Reject (Option (Var ArrayType)) :=
  if callee.retType = .void then .ok none
  else
    match callee.cv.returns callee.methodFqName, isClass with
    | some (some (.tuple _ types)), true =>
      .ok (some (.tuple (types.map fun type => c.resolveAlias type.get) callee.retType))
    | some (some type), _ => do
        let v ← buildTyped c type (some callee.retType)
        .ok (some v)
    | _, _ => .error .panic

/-- The written name of a class, and the part behind the last dot. -/
def buildAliasNameFromMemExp : Expression ν → Bytes × Bytes
  | .symbol _ value => (value, value)
  | .member _ base property => (attach (buildAliasNameFromMemExp base).1 property, property)
  | _ => ([], [])

def moduleOf (fqClsName : Bytes) : Bytes := (fqClsName.rdropWhile (· ≠ 46)).dropLast

def instantiable (fqClsName : Bytes) : Except Reject ClassView :=
  if c.view.interfaces fqClsName then .error (.interfaceInstantiationError fqClsName)
  else
    match c.view.classes fqClsName with
    | none => .error (.unknownClass fqClsName)
    | some cv =>
      if cv.internal = true ∧ moduleOf fqClsName ≠ c.moduleName then .error (.classNotAccessible fqClsName)
      else .ok cv

structure Constructor where
  cv : ClassView
  fqClsName : Bytes
  fqConstructorName : Bytes
  methodName : Bytes

def constructor (method : Expression ν) : Except Reject Constructor := do
  let (aliasClsName, methodName) := buildAliasNameFromMemExp method
  let fqClsName := c.resolveAlias aliasClsName
  let cv ← instantiable c fqClsName
  .ok ⟨cv, fqClsName, c.resolveAlias (attach aliasClsName methodName), methodName⟩

def Constructor.expected (k : Constructor) : List Bytes :=
  ((k.cv.methodArgs k.fqConstructorName).getD []).map fun type => c.resolveAlias type.get

def Constructor.call (k : Constructor) : Except Reject (Var ArrayType × MemberAccess) :=
  match k.cv.methods k.fqConstructorName with
  | some (.func retType _) =>
    if retType = .udt k.fqClsName then
      .ok (.cls k.fqClsName retType, ⟨.construct, k.fqClsName, k.methodName, false⟩)
    else .error .internalError
  | _ => .error .panic

end Handlers

end Picasso.Access
