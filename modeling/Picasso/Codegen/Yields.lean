import Picasso.Access.Statements
import Picasso.Codegen.Functions

namespace Picasso.Codegen.Yields

open Lexing Parsing Declare Blocks Lib.ControlFlow
open Access (FunctionDefinition functionDefinitions fieldInits isConstructor mainName)

variable {ν : Type}

section Instructions

/-- A `call` runs the method or the constructor of that name; `other` stands for
all that runs no code of the program, like a call into the runtime. -/
inductive Op
  | selfYield
  | call (name : Bytes)
  | other
deriving DecidableEq

/-- An instruction, and whether it comes from within an atomic block of the
source. -/
structure Inst where
  inside : Bool
  op : Op
deriving DecidableEq

/-- How the names of a module resolve: the functions of libraries and of foreign
modules and the imported variables, by what stands in front of the dot, and the
types. -/
structure Names where
  external : Bytes → Bytes → Bool
  imported : Bytes → Bytes → Bool
  typeExists : Bytes → Bool

/-- Where an instruction is emitted. The compiler knows the counter only. -/
structure Site where
  inside : Bool
  ac : Int

def emit (s : Site) (op : Op) (k : Code Inst Unit) : Code Inst Unit := .inst ⟨s.inside, op⟩ k

def addYield (s : Site) (k : Code Inst Unit) : Code Inst Unit := if 0 < s.ac then k else emit s .selfYield k

end Instructions

section Expressions

variable (n : Names) (s : Site)

def isImported (base : Expression ν) (property : Bytes) : Bool :=
  match base with
  | .symbol _ value => n.imported value property
  | _ => false

def isExternal (method : Expression ν) : Bool :=
  match method with
  | .member _ (.symbol _ value) property => n.external value property
  | _ => false

def constructorName (method : Expression ν) : Bytes := (Access.buildAliasNameFromMemExp method).2

mutual

/-- The code of an expression, in front of the code `k`. What is rejected has no
code. -/
def processExpression : Expression ν → Code Inst Unit → Code Inst Unit
  | .null _, k | .symbol _ _, k | .number _ _, k | .string _ _, k => emit s .other k
  | .new _ method arguments, k =>
    emit s .other (passArguments arguments (emit s (.call (constructorName method)) (emit s .other k)))
  | .member _ base property, k =>
    if isImported n base property then emit s .other k else processExpression base (emit s .other k)
  | .computed _ base indices, k => processExpression base (passArguments indices (emit s .other k))
  | .prefixed _ _ operand, k => processExpression operand (emit s .other k)
  | .binary _ left operator right, k =>
    if operator.kind = .AND ∨ operator.kind = .OR then
      -- the right side has a block of its own
      processExpression left (emit s .other (.logical () (operator.kind = .AND)
        (processExpression right (emit s .other .done)) (emit s .other k)))
    else processExpression left (processExpression right (emit s .other k))
  | .call _ method arguments, k =>
    addYield s (
      if isExternal n method then passArguments arguments (emit s .other k)
      else
        match method with
        | .symbol _ name =>
          if n.typeExists name then
            match arguments with
            | e :: _ => processExpression e (emit s .other k)
            | [] => k
          else
            -- `thread` loads the method, but another task runs it
            match arguments with
            | .member _ base _ :: rest => processExpression base (emit s .other (passArguments rest (emit s .other k)))
            | _ => k
        | .member _ base property =>
          processExpression base (emit s .other (passArguments arguments
            (emit s (.call property) (emit s .other k))))
        | _ => k)
  | _, k => k

def passArguments : List (Expression ν) → Code Inst Unit → Code Inst Unit
  | [], k => k
  | e :: es, k => processExpression e (emit s .other (passArguments es k))

end

def assignToTarget (target : Expression ν) (k : Code Inst Unit) : Code Inst Unit :=
  match target with
  | .member _ base _ => processExpression n s base (emit s .other k)
  | .computed _ base indices => processExpression n s base (passArguments n s indices (emit s .other k))
  | _ => emit s .other k

def assignToTargets : List (Expression ν) → Code Inst Unit → Code Inst Unit
  | [], k => k
  | e :: es, k => assignToTarget n s e (assignToTargets es k)

/-- The values come before the places. -/
def assignVariable (assignees assignedValues : List (Expression ν)) : Code Inst Unit :=
  passArguments n s assignedValues (assignToTargets n s assignees .done)

def declareVariable (assignedValues : List (Expression ν)) : Code Inst Unit :=
  passArguments n s assignedValues (emit s .other .done)

def processExpressionStatement (e : Expression ν) : Code Inst Unit :=
  match e with
  | .assignment _ assignee assignedValue assignees assignedValues =>
    if assignees.isEmpty then assignVariable n s assignee.toList assignedValue.toList
    else assignVariable n s assignees assignedValues
  | .call .. | .new .. => processExpression n s e .done
  | _ => .done

def processCondition (condition : Expression ν) : Code Inst Unit :=
  processExpression n s condition (emit s .other .done)

def returned (value : Option (SourceLoc × Expression ν)) (values : List (Expression ν)) : List (Expression ν) :=
  if values.isEmpty then (value.map Prod.snd).toList else values

end Expressions

section Statements

variable (n : Names)

mutual

/-- A statement, in front of those that follow it, and the counter after it. A
statement that has no place in a block has no code. -/
def processStatement (inside : Bool) : Statement ν → Int → (Body Inst Unit Unit → Body Inst Unit Unit) × Int
  | .variableDeclaration _ _ assignedValue _ _ _, ac => (.simple (declareVariable n ⟨inside, ac⟩ assignedValue.toList), ac)
  | .variableDeclarations _ _ _ assignedValues _ _, ac => (.simple (declareVariable n ⟨inside, ac⟩ assignedValues), ac)
  | .expression _ e, ac => (.simple (processExpressionStatement n ⟨inside, ac⟩ e), ac)
  | .atomicBlock _ body, ac =>
    let (b, ac) := processStatements true body (ac + 1)
    (.atomic b, ac - 1)
  | .ifStatement _ condition consequent alternate, ac =>
    let (b, ac') := processConsequent inside consequent ac
    let (a, ac') := processAlternate inside alternate ac'
    (.ifElse (processCondition n ⟨inside, ac⟩ condition) () b a, ac')
  | .foreachStatement _ _ _ iterable body, ac =>
    match iterable with
    | .range _ lower upper =>
      let other : Inst := ⟨inside, .other⟩
      let (b, ac') := processStatements inside body ac
      (.foreach (passArguments n ⟨inside, ac⟩ [lower, upper] .done) [other, other] () b [other, other, other], ac')
    | _ => (id, ac)
  | .whileStatement _ condition body, ac =>
    let (b, ac') := processStatements inside body ac
    (.whileLoop (processCondition n ⟨inside, ac⟩ condition) () b, ac')
  | _, ac => (id, ac)

def processConsequent (inside : Bool) : Statement ν → Int → Body Inst Unit Unit × Int
  | .block _ body, ac => processStatements inside body ac
  | _, ac => (.nil, ac)

def processAlternate (inside : Bool) : Option (Statement ν) → Int → Alternate Inst Unit Unit × Int
  | some (.block _ body), ac =>
    let (b, ac) := processStatements inside body ac
    (.block b, ac)
  | some (.ifStatement _ condition consequent alternate), ac =>
    let (b, ac') := processConsequent inside consequent ac
    let (a, ac') := processAlternate inside alternate ac'
    (.elseIf (processCondition n ⟨inside, ac⟩ condition) () b a, ac')
  | _, ac => (.none, ac)

def processStatements (inside : Bool) : List (Statement ν) → Int → Body Inst Unit Unit × Int
  | [], ac => (.nil, ac)
  | .breakStatement _ :: _, ac => (.breakLoop .nil, ac)
  | .returnStatement _ value values _ :: _, ac =>
    (.ret (passArguments n ⟨inside, ac⟩ (returned value values) .done) () .nil, ac)
  | st :: sts, ac =>
    let (b, ac) := processStatement inside st ac
    let (rest, ac) := processStatements inside sts ac
    (b rest, ac)

end

end Statements

section Functions

structure Function (ν : Type) where
  name : Bytes
  kind : Kind Unit
  inits : List (Expression ν)
  body : List (Statement ν)

def methodKind (constructor : Bool) (returnType : Option TypeName) : Kind Unit :=
  if constructor then .constructor () else if returnType.isSome then .typed else .void

def classFunctions (fqClsName : Bytes) (cls : ClassDeclaration ν) : List (Function ν) :=
  (functionDefinitions cls.body).map fun fn =>
    let constructor := isConstructor (attach fqClsName fn.name) fqClsName
    ⟨fn.name, methodKind constructor fn.returnType,
      if constructor then (fieldInits cls.body).filterMap (·.assignedValue) else [], fn.body⟩

/-- The main function returns the same value whatever its body says. -/
def mainFunctions (tree : List (Statement ν)) : List (Function ν) :=
  ((functionDefinitions tree).filter fun fn => fn.name = mainName).map fun fn =>
    ⟨fn.name, .constructor (), [], fn.body⟩

structure Source (ν : Type) where
  name : Bytes
  names : Names
  tree : List (Statement ν)

def Source.functions (m : Source ν) : List (Function ν) :=
  (classDeclarations m.tree).flatMap (fun cls => classFunctions (attach m.name cls.name) cls) ++ mainFunctions m.tree

structure Compiled (ν : Type) where
  fn : Function ν
  graph : Func Inst Unit Unit

/-- A function gets the counter as the function before it has left it. -/
def defineFuncs (n : Names) : List (Function ν) → Int → Option (List (Compiled ν))
  | [], _ => some []
  | fn :: fns, ac => do
      let (body, ac') := processStatements n false fn.body ac
      let graph ← defineFunc fn.kind (declareVariable n ⟨false, ac⟩ fn.inits) body
      return ⟨fn, graph⟩ :: (← defineFuncs n fns ac')

def link : List (Source ν) → Option (List (Compiled ν))
  | [] => some []
  | m :: ms => do return (← defineFuncs m.names m.functions 0) ++ (← link ms)

end Functions

end Picasso.Codegen.Yields
