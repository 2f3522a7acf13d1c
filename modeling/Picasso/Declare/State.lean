import Picasso.Declare.Names
import Picasso.Parsing.Ast

namespace Picasso.Declare

open Lexing Parsing

section Types

/-- The types of values. `udt`: a pointer to the struct of a class or of an
interface; `tuple`: a struct of several results. Structs are known by their
names. -/
inductive ValueType
  | void | i1 | i8 | i16 | i32 | i64 | half | float | double
  | string | array
  | udt (name : Bytes)
  | tuple (name : Bytes)
deriving DecidableEq, Repr

inductive FieldType
  | value (type : ValueType)
  | func (retType : ValueType) (params : List ValueType)
deriving DecidableEq, Repr

def nativeTypes : List (Bytes × ValueType) :=
  [(ascii "null", .void), (ascii "void", .void),
    (ascii "boolean", .i1), (ascii "i1", .i1),
    (ascii "int8", .i8), (ascii "uint8", .i8), (ascii "i8", .i8),
    (ascii "int16", .i16), (ascii "uint16", .i16), (ascii "i16", .i16),
    (ascii "int32", .i32), (ascii "uint32", .i32), (ascii "i32", .i32),
    (ascii "int64", .i64), (ascii "int", .i64), (ascii "uint", .i64), (ascii "uint64", .i64), (ascii "i64", .i64),
    (ascii "float16", .half), (ascii "half", .half),
    (ascii "float32", .float), (ascii "float", .float),
    (ascii "float64", .double), (ascii "double", .double),
    (ascii "string", .string), (ascii "array", .array)]

structure TypeHandler where
  classUDTS : List Bytes
  interfaceUDTS : List Bytes
deriving DecidableEq

/-- The type of a resolved name; `none` stands for the panic on an unknown one.
A name that is not registered stands for one that ends in it. -/
def TypeHandler.getLLVMType (th : TypeHandler) (type : Bytes) : Option ValueType :=
  if type = [] then some .void
  else
    match nativeTypes.lookup type with
    | some t => some t
    | none =>
      if type ∈ th.classUDTS ∨ type ∈ th.interfaceUDTS then some (.udt type)
      else
        match th.classUDTS.find? fun fqName => (46 :: type).isSuffixOf fqName with
        | some fqName => some (.udt fqName)
        | none => (th.interfaceUDTS.find? fun fqName => (46 :: type).isSuffixOf fqName).map .udt

def getUnderlyingType : TypeName → Bytes
  | .list _ (.list atomic underlying) => getUnderlyingType (.list atomic underlying)
  | .list _ underlying => underlying.get
  | _ => []

def sanitize (b : UInt8) : UInt8 := if b = 46 ∨ b = 91 ∨ b = 93 then 95 else b

def tuplePart (fieldType : ValueType) (typeName : Bytes) : Bytes :=
  match fieldType with
  | .i1 => ascii "i1"
  | .i8 => ascii "i8"
  | .i16 => ascii "i16"
  | .i32 => ascii "i32"
  | .i64 => ascii "i64"
  | .half => ascii "f16"
  | .float => ascii "f32"
  | .double => ascii "f64"
  | .string | .array | .udt _ => typeName.map sanitize
  | .void | .tuple _ => ascii "unknown"

def generateTupleName (fieldTypes : List ValueType) (typeNames : List Bytes) : Bytes :=
  ascii "tuple_" ++ [95].intercalate (fieldTypes.zipWith tuplePart typeNames)

end Types

section States

structure MethodSig where
  parameters : List Parameter
  returnType : Option TypeName

/-- What is known of a class, or of an interface as a class. `fields` are those
of its struct. -/
structure MetaClass where
  fieldIndexMap : AList fun _ : Bytes => Nat
  varAST : AList fun _ : Bytes => TypeName
  internalFields : List Bytes
  methods : AList fun _ : Bytes => FieldType
  methodArgs : AList fun _ : Bytes => List TypeName
  returns : AList fun _ : Bytes => Option TypeName
  arrayVarsEleTypes : AList fun _ : Nat => ValueType
  fields : List FieldType
  implements : Bytes
  internal : Bool

def newMetaClass (implements : Bytes) (internal : Bool) : MetaClass :=
  ⟨∅, ∅, [], ∅, ∅, ∅, ∅, [], implements, internal⟩

structure MetaInterface where
  methods : AList fun _ : Bytes => MethodSig
  implementedBy : List Bytes

structure State where
  aliasMap : AliasMap
  typeHandler : TypeHandler
  classes : AList fun _ : Bytes => MetaClass
  interfaces : AList fun _ : Bytes => MetaInterface
  globalFuncList : AList fun _ : Bytes => FieldType

/-- The aborts of the declaration handlers; `panic` stands for those of the
language in which they are written. -/
inductive Abort
  | typeRedeclaration (name : Bytes)
  | variableRedeclaration (name : Bytes)
  | methodRedeclaration (name : Bytes)
  | unImplementedInterfaceMethod (message : Bytes)
  | varsNotAllowedInInterface
  | panic
deriving DecidableEq

def attach (fqName name : Bytes) : Bytes := fqName ++ 46 :: name

theorem attach_inj {fqName name name' : Bytes} : attach fqName name = attach fqName name' ↔ name = name' := by
  simp [attach]

def State.llvmType (st : State) (type : Bytes) : Except Abort ValueType :=
  match st.typeHandler.getLLVMType type with
  | none => .error .panic
  | some t => .ok t

theorem llvmType_ok {st : State} {name : Bytes} {t : ValueType} :
    st.llvmType name = .ok t ↔ st.typeHandler.getLLVMType name = some t := by
  rw [State.llvmType]
  cases st.typeHandler.getLLVMType name <;> simp

def State.resolveAlias (st : State) (aliasField : Bytes) : Bytes := Declare.resolveAlias st.aliasMap aliasField

def State.valueType (st : State) (type : TypeName) : Except Abort ValueType := st.llvmType (st.resolveAlias type.get)

def State.getOrCreateTupleType (st : State) (types : List TypeName) : Except Abort ValueType := do
  let fieldTypes ← types.mapM st.valueType
  .ok (.tuple (generateTupleName fieldTypes (types.map fun type => st.resolveAlias type.get)))

def State.returnType (st : State) : Option TypeName → Except Abort ValueType
  | some (.tuple _ types) => st.getOrCreateTupleType types
  | some type => st.valueType type
  | none => st.llvmType []

def State.paramTypes (st : State) (parameters : List Parameter) : Except Abort (List ValueType) :=
  parameters.mapM fun p => st.valueType p.type

end States

end Picasso.Declare
