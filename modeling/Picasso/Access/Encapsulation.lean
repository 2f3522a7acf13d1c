import Picasso.Access.Guards
import Picasso.Access.Modules

namespace Picasso.Access

open Lexing Parsing Declare Build

variable {ν : Type}

section Definitions

/-- The classes whose member an access is of: the one that is named, and for an
interface all that implement it. -/
def Reaches (st : State) (a : MemberAccess) (k : Bytes) : Prop :=
  a.cls = k ∨
    (st.interfaces.lookup a.cls).isSome ∧ ∃ mc, st.classes.lookup k = some mc ∧ mc.implements = a.cls

end Definitions

section Proofs

variable {b : Backend} {m : Module ν} {st : State} {as : List MemberAccess} {c : Context}

theorem compile_ok (h : m.compile b = .ok (st, as)) :
    m.declared b = .ok st ∧ accesses (m.context b st) m.tree = .ok as := by
  rw [Module.compile] at h
  split at h
  · cases h
  · next hst =>
    split at h
    · cases h
    · next has =>
      cases h
      exact ⟨hst, has⟩

variable {k property root : Bytes}

end Proofs

section Programs

def symbolNode (name : String) : Expression Empty := .symbol nowhere (ascii name)

def memberNode (base : Expression Empty) (property : String) : Expression Empty := .member nowhere base (ascii property)

def sayNode (name : String) (type : TypeName) (value : Option (Expression Empty)) : Statement Empty :=
  .variableDeclaration nowhere (ascii name) value (some type) false false

def functionNode (name : String) (parameters : List Parameter) (body : List (Statement Empty)) : Statement Empty :=
  .functionDefinition nowhere parameters (ascii name) body 0 none false false

def argsParameter : Parameter := ⟨ascii "args", .list false (named "string")⟩

def vault (exported : Bool) : Loaded Empty where
  entry := package "vault"
  source := [classNode "Box" [fieldNode "secret" (named "int") true, fieldNode "label" (named "int") false,
    methodNode "open" [] none true] ""]
  exported := exported

def client (packages : List (Loaded Empty)) (body : List (Statement Empty)) : Module Empty where
  packages := packages
  own := package "start"
  tree := [functionNode "start" [argsParameter] (sayNode "x" (named "vault.Box") none :: body)]
  imports := []

def spawning : Module Empty :=
  client [vault false]
    [.expression nowhere (.call nowhere (symbolNode "thread") [memberNode (symbolNode "x") "open"])]

end Programs

end Picasso.Access
