import Picasso.Build.Cache

namespace Picasso.Build

open Lexing Parsing

variable {ν : Type}

section Definitions

/-- A source file. `underBuild`: it lies below a directory of the name `build`. -/
structure SourceFile (ν : Type) where
  tree : List (Statement ν)
  modTime : Nat
  underBuild : Bool

/-- What is compiled for a package: its tree, in front of which the packages
are declared that it imports, directly or through others. -/
structure Output (ν : Type) where
  tree : List (Statement ν)
  declared : List (Bytes × List (Statement ν))

abbrev Files (ν : Type) := AList fun _ : Bytes => SourceFile ν

abbrev Outputs (ν : Type) := AList fun _ : Bytes => Output ν

abbrev Exports (ν : Type) := AList fun _ : Bytes => List (Statement ν)

/-- The project directory. `lastBuild` is the time in `build.meta`, or zero if
there is none. -/
structure Project (ν : Type) where
  files : Files ν
  outputs : Outputs ν
  exports : Exports ν
  lastBuild : Nat

/-- What makes the compiler give up: a file with a wrong import list, a file
that cannot be parsed, a package that cannot be compiled. -/
structure Verdicts where
  parsesImports : Bytes → Bool
  parses : Bytes → Bool
  compiles : Bytes → Bool

def isImport : Statement ν → Bool
  | .importStatement .. => true
  | _ => false

def parseImports (tree : List (Statement ν)) : List (Statement ν) := tree.takeWhile isImport

def Files.importTrees (files : Files ν) : Packages ν := files.entries.map fun e => (e.1, parseImports e.2.tree)

def findModifiedPkgs (files : Files ν) (lastBuild : Nat) : List Bytes :=
  (files.entries.filter fun e => !e.2.underBuild && lastBuild < e.2.modTime).map Sigma.fst

def Project.dirty (r : Ranges) (w : Project ν) : List Bytes :=
  let pkgs := w.files.importTrees
  let modified := findModifiedPkgs w.files w.lastBuild
  match checkBuildCache r (modified.length + pkgs.names.length + 1) pkgs modified with
  | some (.ok dirty) => dirty
  | _ => []

/-- The trees of the packages to compile; `none` if a file cannot be parsed. -/
def loadPackages (v : Verdicts) (r : Ranges) (w : Project ν) : Option (Packages ν) :=
  if w.files.keys.all v.parsesImports && w.files.keys.all (fun p => p ∉ w.dirty r || v.parses p) then
    some ((w.files.entries.filter fun e => e.1 ∈ w.dirty r).map fun e => (e.1, e.2.tree))
  else none

def clearMethod : Statement ν → Statement ν
  | .functionDefinition _ parameters name _ hash returnType isStatic _ =>
    .functionDefinition ⟨"", 0, 0⟩ parameters name [] hash returnType isStatic false
  | stmt => stmt

def clearStatement : Statement ν → Statement ν
  | .classDeclaration loc name body implements isInternal =>
    .classDeclaration loc name (body.map clearMethod) implements isInternal
  | stmt => stmt

def clearDefinitions (tree : List (Statement ν)) : List (Statement ν) := tree.map clearStatement

def generateExports (packages : Packages ν) (exports : Exports ν) : Exports ν :=
  packages.foldl (fun exports pkg => exports.insert pkg.1 (clearDefinitions pkg.2)) exports

structure Generator (ν : Type) where
  packages : Packages ν
  allPkgs : List Bytes
  exports : Exports ν
  compiles : Bytes → Bool

inductive Abort
  | cyclicDependency (pkgName : Bytes)
  | unknownModule (pkgName : Bytes)
  | loadingExports (pkgName : Bytes)
  | compileError (pkgName : Bytes)
  | fuel

/-- The tree of an imported package: from memory if it is compiled in this
build, or else from its exports. -/
def Generator.packageAST (g : Generator ν) (pkgName : Bytes) : Option (List (Statement ν)) :=
  match g.packages.lookup pkgName with
  | some tree => some tree
  | none => g.exports.lookup pkgName

structure Declarations (ν : Type) where
  declared : List Bytes
  trees : List (Bytes × List (Statement ν))

def recursiveTransitiveDeclaration (g : Generator ν) : Nat → Declarations ν → Bytes → Except Abort (Declarations ν)
  | 0, _, _ => .error .fuel
  | n + 1, d, pkgName =>
    if pkgName ∈ d.declared then .ok d
    else
      match g.packageAST pkgName with
      | none => .error (.loadingExports pkgName)
      | some tree => do
          let d ← (extractUserImports tree).foldlM (recursiveTransitiveDeclaration g n)
            { d with declared := pkgName :: d.declared }
          .ok { d with trees := d.trees ++ [(pkgName, tree)] }

def Generator.names (g : Generator ν) : List Bytes :=
  g.packages.flatMap (fun pkg => extractUserImports pkg.2) ++ g.exports.entries.flatMap fun e => extractUserImports e.2

def Generator.resolveUserImports (g : Generator ν) (tree : List (Statement ν)) : Except Abort (Declarations ν) :=
  (extractUserImports tree).foldlM (recursiveTransitiveDeclaration g (g.names.length + 1)) ⟨[], []⟩

structure Session (ν : Type) where
  outputs : Outputs ν
  builtPkgs : List Bytes
  visitingPkgs : List Bytes

def Session.finish (s : Session ν) (pkgName : Bytes) : Session ν :=
  { s with builtPkgs := pkgName :: s.builtPkgs, visitingPkgs := s.visitingPkgs.erase pkgName }

def Generator.compile (g : Generator ν) (s : Session ν) (pkgName : Bytes) (tree : List (Statement ν)) :
    Except (Abort × Session ν) (Session ν) :=
  if g.compiles pkgName then
    match g.resolveUserImports tree with
    | .error e => .error (e, s)
    | .ok d => .ok { s with outputs := s.outputs.insert pkgName ⟨tree, d.trees⟩ }
  else .error (.compileError pkgName, s)

/-- An error ends the compiler with the files as they are then. -/
def buildPackage (g : Generator ν) : Nat → Session ν → Bytes → Except (Abort × Session ν) (Session ν)
  | 0, s, _ => .error (.fuel, s)
  | n + 1, s, pkgName =>
    if pkgName ∈ s.builtPkgs then .ok s
    else if pkgName ∈ s.visitingPkgs then .error (.cyclicDependency pkgName, s)
    else
      let s := { s with visitingPkgs := pkgName :: s.visitingPkgs }
      if pkgName ∈ g.allPkgs then
        match g.packages.lookup pkgName with
        | none => .ok (s.finish pkgName)
        | some tree => do
            let s ← (extractUserImports tree).foldlM (buildPackage g n) s
            let s ← g.compile s pkgName tree
            .ok (s.finish pkgName)
      else .error (.unknownModule pkgName, s)

def buildAll (g : Generator ν) (outputs : Outputs ν) : Except (Abort × Session ν) (Session ν) :=
  buildPackage g (g.allPkgs.length + 1) ⟨outputs, [], []⟩ main

/-- A build at time `now`, and whether it completes. The time is written to
`build.meta` before anything is compiled. -/
def Project.build (v : Verdicts) (r : Ranges) (now : Nat) (w : Project ν) : Project ν × Bool :=
  match loadPackages v r w with
  | none => (w, false)
  | some packages =>
    let w := { w with lastBuild := now }
    match buildAll ⟨packages, w.files.keys, w.exports, v.compiles⟩ w.outputs with
    | .error (_, s) => ({ w with outputs := s.outputs }, false)
    | .ok s => ({ w with outputs := s.outputs, exports := generateExports packages w.exports }, true)

end Definitions

end Picasso.Build
