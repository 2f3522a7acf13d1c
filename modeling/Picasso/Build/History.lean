import Picasso.Build.Generator
import Picasso.Lib.Transition

namespace Picasso.Build.History

open Lexing Parsing Lib.Exploration Lib.Transition List

variable {ν : Type}

section Machine

/-- A project over time. `loaded` are the files that the last build that
completed has read, and `completedAt` is the time that it has written. -/
structure State (ν : Type) where
  project : Project ν
  now : Nat
  loaded : Files ν
  completedAt : Nat
  completed : Bool

inductive Act (ν : Type)
  | edit (time : Nat) (pkgName : Bytes) (tree : List (Statement ν)) (underBuild : Bool)
  | remove (time : Nat) (pkgName : Bytes)
  | build (time : Nat) (verdicts : Verdicts) (ranges : Ranges)

def Act.time : Act ν → Nat
  | .edit time .. => time
  | .remove time _ => time
  | .build time .. => time

def State.change (s : State ν) (files : Files ν) (time : Nat) : State ν :=
  { s with project := { s.project with files := files }, now := time, completed := false }

def State.built (s : State ν) (time : Nat) : Project ν × Bool → State ν
  | (w, false) => { s with project := w, now := time, completed := false }
  | (w, true) => ⟨w, time, s.project.files, time, true⟩

def step (s : State ν) (a : Act ν) : Option (State ν) :=
  if s.now < a.time then
    match a with
    | .edit time pkgName tree underBuild =>
      some (s.change (s.project.files.insert pkgName ⟨tree, time, underBuild⟩) time)
    | .remove time pkgName => some (s.change (s.project.files.erase pkgName) time)
    | .build time verdicts ranges => some (s.built time (s.project.build verdicts ranges time))
  else none

structure Initial (s : State ν) : Prop where
  times : ∀ p f, s.project.files.lookup p = some f → 0 < f.modTime ∧ f.modTime ≤ s.now
  outputs : s.project.outputs = ∅
  exports : s.project.exports = ∅
  lastBuild : s.project.lastBuild = 0
  completedAt : s.completedAt = 0
  completed : s.completed = false

def machine (ν : Type) : Machine (State ν) (Act ν) := ⟨Initial, step⟩

end Machine

section Freshness

def imports (files : Files ν) (p : Bytes) : List Bytes :=
  extractUserImports (((files.lookup p).map SourceFile.tree).getD [])

def Imports (files : Files ν) (p q : Bytes) : Prop := ∃ i ∈ imports files p, Reaches (imports files) i q

/-- The compiled output and the exports of a package are those of its source,
and the output declares its imports as their sources do, those of its imports
included, and nothing else. -/
structure UpToDate (w : Project ν) (p : Bytes) (f : SourceFile ν) (o : Output ν) : Prop where
  source : w.files.lookup p = some f
  output : w.outputs.lookup p = some o
  exports : w.exports.lookup p = some (clearDefinitions f.tree)
  tree : o.tree = f.tree
  declares : ∀ q, Imports w.files p q → ∃ t, (q, t) ∈ o.declared
  declared : ∀ e ∈ o.declared, Imports w.files p e.1 ∧
    ∃ f', w.files.lookup e.1 = some f' ∧ clearDefinitions e.2 = clearDefinitions f'.tree

def Fresh (w : Project ν) (p : Bytes) : Prop := ∃ f o, UpToDate w p f o

def Modified (files : Files ν) (time : Nat) (p : Bytes) : Prop := ∃ f, files.lookup p = some f ∧ time < f.modTime

/-- A package that can be built: it is there and not under `build`, and its
imports come first. -/
def Plain (files : Files ν) (p : Bytes) : Prop :=
  ∃ f, files.lookup p = some f ∧ f.underBuild = false ∧
    extractUserImports (parseImports f.tree) = extractUserImports f.tree

/-- What `build.meta` hides from a build is up to date: a package that `start`
reaches imports something modified since the time of `build.meta`, or it has
been part of the last build that completed and imports nothing modified since. -/
def Timely (s : State ν) : Act ν → Prop
  | .build .. => ∀ p, Reaches (imports s.project.files) main p →
      Plain s.project.files p ∧
        ((∃ m, Reaches (imports s.project.files) p m ∧ Modified s.project.files s.project.lastBuild m) ∨
          Reaches (imports s.loaded) main p ∧
            ∀ m, Reaches (imports s.project.files) p m → ¬ Modified s.project.files s.completedAt m)
  | _ => True

end Freshness

section Lemmas

variable {w w' : Project ν} {p q : Bytes} {tree : List (Statement ν)}

theorem clearMethod_idem (stmt : Statement ν) : clearMethod (clearMethod stmt) = clearMethod stmt := by
  cases stmt <;> rfl

theorem clearStatement_idem (stmt : Statement ν) : clearStatement (clearStatement stmt) = clearStatement stmt := by
  cases stmt with
  | classDeclaration =>
    simp only [clearStatement, map_map, Statement.classDeclaration.injEq, true_and, and_true]
    exact map_congr_left fun stmt _ => clearMethod_idem stmt
  | _ => rfl

theorem clearDefinitions_idem (tree : List (Statement ν)) :
    clearDefinitions (clearDefinitions tree) = clearDefinitions tree := by
  rw [clearDefinitions, clearDefinitions, map_map]
  exact map_congr_left fun stmt _ => clearStatement_idem stmt

theorem userImport_clear (stmt : Statement ν) : userImport (clearStatement stmt) = userImport stmt := by
  cases stmt <;> rfl

theorem extractUserImports_clear (tree : List (Statement ν)) :
    extractUserImports (clearDefinitions tree) = extractUserImports tree := by
  rw [extractUserImports, clearDefinitions, filterMap_map, extractUserImports]
  exact filterMap_congr fun stmt _ => userImport_clear stmt

theorem lookup_files {τ : Type} (keep : Bytes → Bool) (φ : SourceFile ν → τ)
    (l : List (Sigma fun _ : Bytes => SourceFile ν)) (p : Bytes) :
    ((l.filter fun e => keep e.1).map fun e => (e.1, φ e.2)).lookup p =
      if keep p then (l.dlookup p).map φ else none := by
  induction l with
  | nil => simp
  | cons e l ih =>
    obtain ⟨q, f⟩ := e
    by_cases hpq : p = q
    · subst hpq
      by_cases hk : keep p = true
      · simp [hk]
      · rw [filter_cons, if_neg hk, ih, if_neg hk, if_neg hk]
    · rw [dlookup_cons_ne _ _ hpq, ← ih, filter_cons]
      split
      · rw [map_cons, lookup_cons, beq_false_of_ne hpq]
      · rfl

variable {files : Files ν} {r : Ranges} {v : Verdicts} {packages : Packages ν}

theorem mem_findModifiedPkgs {time : Nat} {m : Bytes} :
    m ∈ findModifiedPkgs files time ↔ ∃ f, files.lookup m = some f ∧ f.underBuild = false ∧ time < f.modTime := by
  simp only [findModifiedPkgs, mem_map, mem_filter, Bool.and_eq_true, Bool.not_eq_true', decide_eq_true_eq]
  constructor
  · rintro ⟨e, ⟨he, hb, ht⟩, rfl⟩
    exact ⟨e.2, AList.mem_lookup_iff.mpr he, hb, ht⟩
  · rintro ⟨f, hf, hb, ht⟩
    exact ⟨⟨m, f⟩, ⟨AList.mem_lookup_iff.mp hf, hb, ht⟩, rfl⟩

theorem importTrees_imports (files : Files ν) (p : Bytes) :
    files.importTrees.imports p = extractUserImports (((files.lookup p).map fun f => parseImports f.tree).getD []) := by
  have h := lookup_files (fun _ => true) (fun f : SourceFile ν => parseImports f.tree) files.entries p
  rw [filter_eq_self.mpr fun _ _ => rfl, if_pos rfl] at h
  rw [Packages.imports, Packages.body, Files.importTrees, h]
  rfl

theorem importTrees_sub (h : q ∈ files.importTrees.imports p) : q ∈ imports files p := by
  rw [importTrees_imports] at h
  rw [imports]
  cases hf : files.lookup p with
  | none => simp [hf, extractUserImports] at h
  | some f =>
    rw [hf] at h
    exact (List.Sublist.filterMap userImport (takeWhile_sublist isImport)).subset h

theorem reaches_sub {m : Bytes} (h : Reaches files.importTrees.imports p m) : Reaches (imports files) p m := by
  induction h with
  | refl => exact .refl
  | tail _ hc ih => exact ih.tail (importTrees_sub hc)

theorem mem_dirty (r : Ranges) (w : Project ν) (p : Bytes) :
    p ∈ w.dirty r ↔ p ∈ findModifiedPkgs w.files w.lastBuild ∨ Reaches w.files.importTrees.imports main p ∧
      ∃ m ∈ findModifiedPkgs w.files w.lastBuild, Reaches w.files.importTrees.imports p m := by
  obtain ⟨dirty, hrun, hmem⟩ :=
    checkBuildCache_spec r w.files.importTrees (findModifiedPkgs w.files w.lastBuild) (Nat.lt_succ_self _)
  rw [Project.dirty]
  simp only [hrun]
  exact hmem p

theorem modified_of_dirty (h : p ∈ w.dirty r) :
    ∃ m, Reaches (imports w.files) p m ∧ Modified w.files w.lastBuild m := by
  rcases (mem_dirty r w p).mp h with h | ⟨-, m, hm, hr⟩
  · obtain ⟨f, hf, -, ht⟩ := mem_findModifiedPkgs.mp h
    exact ⟨p, .refl, f, hf, ht⟩
  · obtain ⟨f, hf, -, ht⟩ := mem_findModifiedPkgs.mp hm
    exact ⟨m, reaches_sub hr, f, hf, ht⟩

theorem loadPackages_lookup (h : loadPackages v r w = some packages) (p : Bytes) :
    packages.lookup p = if p ∈ w.dirty r then (w.files.lookup p).map SourceFile.tree else none := by
  rw [loadPackages] at h
  split at h
  · cases h
    have hl := lookup_files (fun p => decide (p ∈ w.dirty r)) SourceFile.tree w.files.entries p
    simp only [decide_eq_true_eq] at hl
    exact hl
  · cases h

theorem generateExports_lookup (packages : Packages ν) (exports : Exports ν) (p : Bytes)
    (hnd : (packages.map Prod.fst).Nodup) :
    (generateExports packages exports).lookup p =
      match packages.lookup p with
      | some tree => some (clearDefinitions tree)
      | none => exports.lookup p := by
  induction packages generalizing exports with
  | nil => rfl
  | cons pkg packages ih =>
    obtain ⟨q, tree⟩ := pkg
    obtain ⟨hq, hnd⟩ := nodup_cons.mp hnd
    rw [generateExports, foldl_cons, ← generateExports, ih _ hnd, lookup_cons]
    by_cases hpq : p = q
    · subst hpq
      have hnone : packages.lookup p = none := by
        rw [lookup_eq_none_iff]
        intro e he
        simpa using fun h : p = e.1 => hq (mem_map.mpr ⟨e, he, h.symm⟩)
      rw [hnone, beq_self_eq_true]
      exact AList.lookup_insert _
    · rw [beq_false_of_ne hpq]
      cases packages.lookup p with
      | none => exact AList.lookup_insert_ne hpq
      | some _ => rfl

theorem loadPackages_nodup (h : loadPackages v r w = some packages) : (packages.map Prod.fst).Nodup := by
  rw [loadPackages] at h
  split at h
  · cases h
    rw [map_map]
    exact (w.files.nodupKeys.sublist filter_sublist : List.NodupKeys _)
  · cases h

variable (hplain : ∀ p, Reaches (imports w.files) main p → Plain w.files p)

include hplain

theorem importTrees_reached (hp : Reaches (imports w.files) main p) :
    w.files.importTrees.imports p = imports w.files p := by
  obtain ⟨f, hf, -, hlead⟩ := hplain p hp
  rw [importTrees_imports, imports, hf]
  exact hlead

theorem dirty_of_modified {m : Bytes} (hp : Reaches (imports w.files) main p) (hm : Reaches (imports w.files) p m)
    (hmod : Modified w.files w.lastBuild m) : p ∈ w.dirty r := by
  obtain ⟨f, hf, hlt⟩ := hmod
  obtain ⟨f', hf', hbuild, -⟩ := hplain m (hp.trans hm)
  cases hf.symm.trans hf'
  have hmain : Reaches w.files.importTrees.imports main p :=
    (Reaches.congr fun y hy => importTrees_reached hplain hy).mpr hp
  have hdown : Reaches w.files.importTrees.imports p m :=
    (Reaches.congr fun y hy => importTrees_reached hplain (hp.trans hy)).mpr hm
  exact (mem_dirty r w p).mpr (.inr ⟨hmain, m, mem_findModifiedPkgs.mpr ⟨f, hf, hbuild, hlt⟩, hdown⟩)

end Lemmas

def noTrouble : Verdicts := ⟨fun _ => true, fun _ => true, fun _ => true⟩

def inOrder : Ranges := ⟨id, id, fun _ => .refl _, fun _ => .refl _⟩

end Picasso.Build.History
