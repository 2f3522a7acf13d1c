import Picasso.Declare.State
import Picasso.Declare.Imports

namespace Picasso.Declare

open Lexing Parsing

variable {ν : Type}

section Trees

structure ClassDeclaration (ν : Type) where
  name : Bytes
  body : List (Statement ν)
  implements : Bytes
  isInternal : Bool

structure InterfaceDeclaration (ν : Type) where
  name : Bytes
  body : List (Statement ν)

structure Method where
  name : Bytes
  parameters : List Parameter
  returnType : Option TypeName
  isInternal : Bool

def classDeclarations (tree : List (Statement ν)) : List (ClassDeclaration ν) :=
  tree.filterMap fun
    | .classDeclaration _ name body implements isInternal => some ⟨name, body, implements, isInternal⟩
    | _ => none

def interfaceDeclarations (tree : List (Statement ν)) : List (InterfaceDeclaration ν) :=
  tree.filterMap fun
    | .interfaceDeclaration _ name body => some ⟨name, body⟩
    | _ => none

def method? : Statement ν → Option Method
  | .functionDefinition _ parameters name _ _ returnType _ isInternal => some ⟨name, parameters, returnType, isInternal⟩
  | _ => none

def methodsOf (body : List (Statement ν)) : List Method := body.filterMap method?

end Trees

section Interfaces

/-- An interface is treated just like a class that cannot be instantiated. -/
def declareInterface (st : State) (ifs : InterfaceDeclaration ν) (sourcePkg : PackageEntry) : Except Abort State :=
  let ifName := attach sourcePkg.name ifs.name
  if (st.classes.lookup ifName).isSome then .error (.typeRedeclaration ifName)
  else
    .ok { st with
      classes := st.classes.insert ifName (newMetaClass [] false)
      interfaces := st.interfaces.insert ifName ⟨∅, []⟩
      typeHandler :=
        ⟨ifName :: st.typeHandler.classUDTS, ifName :: st.typeHandler.interfaceUDTS⟩ }

def State.interfaceReturnType (st : State) : Option TypeName → Except Abort ValueType
  | some type => st.valueType type
  | none => st.llvmType []

structure InterfaceFields where
  fieldIndexMap : AList fun _ : Bytes => Nat
  fieldTypes : List FieldType
  i : Nat

def defineInterfaceMethod (st : State) (fqInterfaceName : Bytes) (b : InterfaceFields) :
    Statement ν → Except Abort InterfaceFields
  | .variableDeclaration .. => .error .varsNotAllowedInInterface
  | .variableDeclarations .. => .error .varsNotAllowedInInterface
  | .functionDefinition _ parameters name _ _ returnType _ _ => do
      let retType ← st.interfaceReturnType returnType
      let args ← st.paramTypes parameters
      .ok ⟨b.fieldIndexMap.insert (attach fqInterfaceName name) b.i, b.fieldTypes ++ [.func retType args], b.i + 1⟩
  | _ => .ok b

def defineInterfaceUDT (st : State) (ifs : InterfaceDeclaration ν) (sourcePkg : PackageEntry) : Except Abort State := do
  let fqInterfaceName := attach sourcePkg.name ifs.name
  match st.classes.lookup fqInterfaceName with
  | none => .error .panic
  | some mc =>
    let b ← ifs.body.foldlM (defineInterfaceMethod st fqInterfaceName) ⟨mc.fieldIndexMap, [], 0⟩
    .ok { st with
      classes := st.classes.insert fqInterfaceName
        { mc with fieldIndexMap := b.fieldIndexMap, fields := b.fieldTypes } }

/-- The signature of a method is kept the first time that its name is met. -/
def declareInterfaceFunc (sourcePkg : PackageEntry) (ifs : InterfaceDeclaration ν) (st : State) (m : Method) :
    Except Abort State := do
  let fqClsName := attach sourcePkg.name ifs.name
  let fqFuncName := attach fqClsName m.name
  let params ← st.paramTypes m.parameters
  let retType ← st.interfaceReturnType m.returnType
  match st.classes.lookup fqClsName, st.interfaces.lookup fqClsName with
  | some mc, some mi =>
    let f := (st.globalFuncList.lookup fqFuncName).getD (.func retType (params ++ [.udt fqClsName]))
    let isNew := (st.globalFuncList.lookup fqFuncName).isNone
    let declared := (mc.methods.lookup fqFuncName).isSome
    .ok { st with
      globalFuncList := if declared then st.globalFuncList else st.globalFuncList.insert fqFuncName f
      interfaces :=
        if declared || !isNew then st.interfaces
        else st.interfaces.insert fqClsName { mi with methods := mi.methods.insert m.name ⟨m.parameters, m.returnType⟩ }
      classes := st.classes.insert fqClsName
        { mc with
          methods := if declared then mc.methods else mc.methods.insert fqFuncName f
          returns := if declared then mc.returns else mc.returns.insert fqFuncName m.returnType
          methodArgs :=
            if (mc.methodArgs.lookup fqFuncName).isSome then mc.methodArgs
            else mc.methodArgs.insert fqFuncName (m.parameters.map Parameter.type) } }
  | _, _ => .error .panic

def declareInterfaceFuncs (st : State) (ifs : InterfaceDeclaration ν) (sourcePkg : PackageEntry) :
    Except Abort State :=
  (methodsOf ifs.body).foldlM (declareInterfaceFunc sourcePkg ifs) st

end Interfaces

section Classes

def declareOpaqueClass (st : State) (cls : ClassDeclaration ν) (sourcePkg : PackageEntry) : Except Abort State :=
  let clsName := attach sourcePkg.name cls.name
  if (st.classes.lookup clsName).isSome then .error (.typeRedeclaration clsName)
  else
    let implements := st.resolveAlias cls.implements
    let declared : State := { st with
      classes := st.classes.insert clsName (newMetaClass implements cls.isInternal)
      typeHandler := { st.typeHandler with classUDTS := clsName :: st.typeHandler.classUDTS }
      aliasMap := st.aliasMap.insert sourcePkg.importAlias sourcePkg.name }
    if implements = [] then .ok declared
    else
      match st.interfaces.lookup implements with
      | none => .error .panic
      | some mi =>
        .ok { declared with
          interfaces := st.interfaces.insert implements { mi with implementedBy := mi.implementedBy ++ [clsName] } }

/-- What is known of a class so far, with the fields of its struct; `i` is the
next index, and `vars` and `funcs` are the names that have been defined. -/
structure ClassFields where
  clsMeta : MetaClass
  fieldTypes : List FieldType
  i : Nat
  vars : List Bytes
  funcs : List Bytes

def ClassFields.place (b : ClassFields) (fqMemberName : Bytes) (isInternal : Bool) (fieldType : FieldType) :
    ClassFields :=
  { b with
    clsMeta := { b.clsMeta with
      fieldIndexMap := b.clsMeta.fieldIndexMap.insert fqMemberName b.i
      internalFields :=
        if isInternal then fqMemberName :: b.clsMeta.internalFields else b.clsMeta.internalFields }
    fieldTypes := b.fieldTypes ++ [fieldType] }

def elementTypes (st : State) (b : ClassFields) (type : TypeName) : Except Abort (AList fun _ : Nat => ValueType) :=
  if getUnderlyingType type = [] then .ok b.clsMeta.arrayVarsEleTypes
  else do
    let eleType ← st.llvmType (st.resolveAlias (getUnderlyingType type))
    .ok (b.clsMeta.arrayVarsEleTypes.insert b.i eleType)

def defineField (st : State) (fqName : Bytes) (b : ClassFields) (identifier : Bytes) (explicitType : Option TypeName)
    (isInternal : Bool) : Except Abort ClassFields :=
  let fqVarName := attach fqName identifier
  if fqVarName ∈ b.vars then .error (.variableRedeclaration identifier)
  else
    match explicitType with
    | none => .error .panic
    | some type => do
        let fieldType ← st.valueType type
        let arrayVarsEleTypes ← elementTypes st b type
        let b := b.place fqVarName isInternal (.value fieldType)
        .ok { b with
          clsMeta := { b.clsMeta with
            varAST := b.clsMeta.varAST.insert fqVarName type
            arrayVarsEleTypes := arrayVarsEleTypes }
          vars := fqVarName :: b.vars }

/-- The type of the pointer to a method, where `this` is the last parameter. -/
def State.methodType (st : State) (fqName : Bytes) (m : Method) : Except Abort FieldType := do
  let retType ← st.returnType m.returnType
  let args ← st.paramTypes m.parameters
  .ok (.func retType (args ++ [.udt fqName]))

def defineMethod (st : State) (fqName : Bytes) (b : ClassFields) (m : Method) : Except Abort ClassFields :=
  let fqFuncName := attach fqName m.name
  if fqFuncName ∈ b.funcs then .error (.methodRedeclaration m.name)
  else do
    let fieldType ← st.methodType fqName m
    let b := b.place fqFuncName m.isInternal fieldType
    .ok { b with funcs := fqFuncName :: b.funcs }

def ClassFields.next (b : ClassFields) : ClassFields := { b with i := b.i + 1 }

/-- The type of the interface is taken for the one of the class if no alias has
changed it and the type of the class ends in it. -/
def State.expectedType (st : State) (classType : Bytes) : Option TypeName → Bytes
  | none => []
  | some type =>
    let interfaceType := st.resolveAlias type.get
    if interfaceType = type.get ∧ classType ≠ interfaceType ∧ (46 :: interfaceType).isSuffixOf classType then classType
    else interfaceType

def State.writtenType (st : State) : Option TypeName → Bytes
  | none => []
  | some type => st.resolveAlias type.get

def mismatch (className methodName : Bytes) (what : Bytes) : Abort :=
  .unImplementedInterfaceMethod
    (ascii "Method signature mismatch: " ++ attach className methodName ++ ascii " " ++ what)

def typeMismatch (expected got : Bytes) : Bytes :=
  ascii "type mismatch (expected " ++ expected ++ ascii ", got " ++ got ++ ascii ")"

def validateParameter (st : State) (className methodName : Bytes) (e : (Parameter × Parameter) × Nat) :
    Except Abort Unit :=
  let classType := st.writtenType (some e.1.1.type)
  let interfaceType := st.expectedType classType (some e.1.2.type)
  if classType ≠ interfaceType then
    .error (mismatch className methodName
      (ascii "parameter " ++ ascii (toString e.2) ++ ascii " " ++ typeMismatch interfaceType classType))
  else .ok ()

def validateReturn (st : State) (className methodName : Bytes) (returnType interfaceReturnType : Option TypeName) :
    Except Abort Unit :=
  let classRetType := st.writtenType returnType
  let interfaceRetType := st.expectedType classRetType interfaceReturnType
  if classRetType ≠ interfaceRetType then
    .error (mismatch className methodName (ascii "return " ++ typeMismatch interfaceRetType classRetType))
  else .ok ()

def validateInterfaceMethodSignature (st : State) (className methodName : Bytes) (m : Method)
    (interfaceMeta : MetaInterface) : Except Abort Unit :=
  match interfaceMeta.methods.lookup methodName with
  | none => .ok ()
  | some sig =>
    if m.parameters.length ≠ sig.parameters.length then
      .error (mismatch className methodName (ascii "parameter count differs"))
    else do
      (m.parameters.zip sig.parameters).zipIdx.forM (validateParameter st className methodName)
      validateReturn st className methodName m.returnType sig.returnType

def interfaceMethodsByIndex (fieldIndexMap : AList fun _ : Bytes => Nat) : AList fun _ : Nat => Bytes :=
  fieldIndexMap.entries.foldl (fun m e => m.insert e.2 (endName e.1)) ∅

def findMethod (body : List (Statement ν)) (methodName : Bytes) : Option Method :=
  (methodsOf body).find? fun m => m.name = methodName

def notImplemented (fqName methodName : Bytes) : Abort :=
  .unImplementedInterfaceMethod (attach fqName methodName ++ ascii " must implement interface method " ++ methodName)

def defineInterfaceSlot (st : State) (fqName : Bytes) (cls : ClassDeclaration ν) (interfaceMeta : MetaInterface)
    (byIndex : AList fun _ : Nat => Bytes) (b : ClassFields) (idx : Nat) : Except Abort ClassFields :=
  match byIndex.lookup idx with
  | none => .ok b
  | some methodName =>
    match findMethod cls.body methodName with
    | none => .error (notImplemented fqName methodName)
    | some m => do
        validateInterfaceMethodSignature st fqName methodName m interfaceMeta
        let b ← defineMethod st fqName b m
        .ok b.next

/-- The methods of the interface come first, to be at the indices that they have
there. -/
def defineInterfaceMethods (st : State) (fqName : Bytes) (cls : ClassDeclaration ν) (b : ClassFields) :
    Except Abort ClassFields :=
  if b.clsMeta.implements = [] then .ok b
  else
    match st.classes.lookup b.clsMeta.implements, st.interfaces.lookup b.clsMeta.implements with
    | some interfaceClassMeta, some interfaceMeta =>
      let byIndex := interfaceMethodsByIndex interfaceClassMeta.fieldIndexMap
      (List.range byIndex.entries.length).foldlM (defineInterfaceSlot st fqName cls interfaceMeta byIndex) b
    | _, _ => .ok b

def defineMember (st : State) (fqName : Bytes) (b : ClassFields) : Statement ν → Except Abort ClassFields
  | .variableDeclaration _ identifier _ explicitType _ isInternal => do
      let b ← defineField st fqName b identifier explicitType isInternal
      .ok b.next
  | .variableDeclarations _ identifiers explicitTypes _ _ isInternal =>
    identifiers.zipIdx.foldlM (fun b (identifier, j) =>
      match explicitTypes[j]? with
      | none => .error .panic
      | some explicitType => do
          let b ← defineField st fqName b identifier explicitType isInternal
          .ok b.next) b
  | .functionDefinition _ parameters name _ _ returnType _ isInternal =>
    if attach fqName name ∈ b.funcs then .ok b
    else do
      let b ← defineMethod st fqName b ⟨name, parameters, returnType, isInternal⟩
      .ok b.next
  | _ => .ok b

def classMeta (st : State) (fqName : Bytes) (cls : ClassDeclaration ν) (mc : MetaClass) : Except Abort MetaClass := do
  let b ← defineInterfaceMethods st fqName cls ⟨mc, [], 0, [], []⟩
  let b ← cls.body.foldlM (defineMember st fqName) b
  .ok { b.clsMeta with fields := b.fieldTypes }

def defineClass (st : State) (cls : ClassDeclaration ν) (sourcePkg : PackageEntry) : Except Abort State := do
  let fqName := attach sourcePkg.name cls.name
  match st.classes.lookup fqName with
  | none => .error .panic
  | some mc =>
    let mc ← classMeta st fqName cls mc
    .ok { st with classes := st.classes.insert fqName mc }

/-- The constructor, which has the name of the class, returns the object. -/
def declareFunc (sourcePkg : PackageEntry) (cls : ClassDeclaration ν) (st : State) (m : Method) :
    Except Abort State := do
  let fqClsName := attach sourcePkg.name cls.name
  let fqFuncName := attach fqClsName m.name
  let params ← st.paramTypes m.parameters
  let retType ← st.returnType m.returnType
  match st.classes.lookup fqClsName with
  | none => .error .panic
  | some mc =>
    let new := FieldType.func (if cls.name = m.name then .udt fqClsName else retType) (params ++ [.udt fqClsName])
    let f := (st.globalFuncList.lookup fqFuncName).getD new
    let declared := (mc.methods.lookup fqFuncName).isSome
    .ok { st with
      globalFuncList := if declared then st.globalFuncList else st.globalFuncList.insert fqFuncName f
      classes := st.classes.insert fqClsName
        { mc with
          methods := if declared then mc.methods else mc.methods.insert fqFuncName f
          returns := if declared then mc.returns else mc.returns.insert fqFuncName m.returnType
          methodArgs :=
            if (mc.methodArgs.lookup fqFuncName).isSome then mc.methodArgs
            else mc.methodArgs.insert fqFuncName (m.parameters.map Parameter.type) } }

def declareClassFuncs (st : State) (cls : ClassDeclaration ν) (sourcePkg : PackageEntry) : Except Abort State :=
  (methodsOf cls.body).foldlM (declareFunc sourcePkg cls) st

/-- The check of a method against redeclaration, before its body is compiled. -/
def defineFunc (fqClsName : Bytes) (avoid : List Bytes) (m : Method) : Except Abort (List Bytes) :=
  let fqFuncName := attach fqClsName m.name
  if fqFuncName ∈ avoid then .error (.methodRedeclaration fqFuncName) else .ok (m.name :: avoid)

def defineClassFuncs (fqClsName : Bytes) (cls : ClassDeclaration ν) : Except Abort (List Bytes) :=
  (methodsOf cls.body).foldlM (defineFunc fqClsName) []

end Classes

def declare (st : State) (sourcePkg : PackageEntry) (tree : List (Statement ν)) : Except Abort State := do
  let st := { st with aliasMap := st.aliasMap.insert sourcePkg.importAlias sourcePkg.name }
  let st ← (interfaceDeclarations tree).foldlM (fun st ifs => declareInterface st ifs sourcePkg) st
  let st ← (classDeclarations tree).foldlM (fun st cls => declareOpaqueClass st cls sourcePkg) st
  let st ← (interfaceDeclarations tree).foldlM (fun st ifs => defineInterfaceUDT st ifs sourcePkg) st
  let st ← (interfaceDeclarations tree).foldlM (fun st ifs => declareInterfaceFuncs st ifs sourcePkg) st
  let st ← (classDeclarations tree).foldlM (fun st cls => defineClass st cls sourcePkg) st
  (classDeclarations tree).foldlM (fun st cls => declareClassFuncs st cls sourcePkg) st

end Picasso.Declare
