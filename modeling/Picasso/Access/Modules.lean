import Picasso.Access.Statements
import Picasso.Declare.Members

namespace Picasso.Access

open Lexing Parsing Declare Build Lib.Folds
open List hiding attach

variable {ν : Type}

section Definitions

/-- A package that is declared in front of a module, from its source or from
what has been exported of it. -/
structure Loaded (ν : Type) where
  entry : PackageEntry
  source : List (Statement ν)
  exported : Bool

def Loaded.tree (p : Loaded ν) : List (Statement ν) := if p.exported then clearDefinitions p.source else p.source

def declarePackages (packages : List (Loaded ν)) : Except Declare.Abort State :=
  declareAll initial (packages.map fun p => (p.entry, p.tree))

structure Module (ν : Type) where
  packages : List (Loaded ν)
  own : PackageEntry
  tree : List (Statement ν)
  imports : List Bytes

/-- The types of the runtime, which have no members that can be named. -/
def registerTypes (types : List (Bytes × List FieldType)) (st : State) : State :=
  types.foldl (fun st e =>
    { st with
      classes := st.classes.insert e.1 { newMetaClass [] false with fields := e.2 }
      typeHandler := { st.typeHandler with classUDTS := e.1 :: st.typeHandler.classUDTS } }) st

inductive Failure
  | declaration (abort : Declare.Abort)
  | definition (reject : Reject)

def Module.declared (b : Backend) (m : Module ν) : Except Declare.Abort State := do
  let st ← declarePackages m.packages
  declare (registerTypes b.types st) m.own m.tree

def Module.context (b : Backend) (m : Module ν) (st : State) : Context :=
  { b with view := View.of st, moduleName := m.own.name, imports := m.imports }

def Module.compile (b : Backend) (m : Module ν) : Except Failure (State × List MemberAccess) :=
  match m.declared b with
  | .error abort => .error (.declaration abort)
  | .ok st =>
    match accesses (m.context b st) m.tree with
    | .error reject => .error (.definition reject)
    | .ok as => .ok (st, as)

end Definitions

section Flags

variable {st : State} {k property : Bytes} {cls : ClassDeclaration ν} {mc : MetaClass} {pre slots : List Slot}

end Flags

section Exported

def clearClass (cls : ClassDeclaration ν) : ClassDeclaration ν := { cls with body := cls.body.map clearMethod }

theorem classDeclarations_clear (tree : List (Statement ν)) :
    classDeclarations (clearDefinitions tree) = (classDeclarations tree).map clearClass := by
  rw [classDeclarations, clearDefinitions, filterMap_map, classDeclarations, map_filterMap]
  refine filterMap_congr fun stmt _ => ?_
  cases stmt <;> rfl

theorem interfaceDeclarations_clear (tree : List (Statement ν)) :
    interfaceDeclarations (clearDefinitions tree) = interfaceDeclarations tree := by
  rw [interfaceDeclarations, clearDefinitions, filterMap_map]
  refine filterMap_congr fun stmt _ => ?_
  cases stmt <;> rfl

def exportedMethod (m : Method) : Method := { m with isInternal := false }

theorem methodsOf_clear (body : List (Statement ν)) :
    methodsOf (body.map clearMethod) = (methodsOf body).map exportedMethod := by
  rw [methodsOf, filterMap_map, methodsOf, map_filterMap]
  refine filterMap_congr fun stmt _ => ?_
  cases stmt <;> rfl

theorem dotFree_clear {tree : List (Statement ν)} (h : DotFree tree) : DotFree (clearDefinitions tree) := by
  refine ⟨by simpa only [interfaceDeclarations_clear] using h.1, ?_⟩
  rw [classDeclarations_clear]
  intro cls hcls m hm
  obtain ⟨cls', hcls', rfl⟩ := mem_map.mp hcls
  rw [show (clearClass cls').body = cls'.body.map clearMethod from rfl, methodsOf_clear] at hm
  obtain ⟨m', hm', rfl⟩ := mem_map.mp hm
  exact h.2 cls' hcls' m' hm'

theorem Loaded.dotFree {p : Loaded ν} (h : DotFree p.source) : DotFree p.tree := by
  rw [Loaded.tree]
  split
  · exact dotFree_clear h
  · exact h

end Exported

section Declared

variable {b : Backend} {m : Module ν} {st st' : State} {k : Bytes}

end Declared

end Picasso.Access
