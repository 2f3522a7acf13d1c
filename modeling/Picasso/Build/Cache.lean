import Picasso.Parsing.Ast
import Picasso.Lib.Exploration
import Mathlib.Data.List.AList

namespace Picasso.Build

open Lexing Parsing Lib.Exploration List

variable {ν : Type}

section Imports

def isBuiltIn (name : Bytes) : Bool := (ascii "builtin").isPrefixOf name

def isFFI (name : Bytes) : Bool := (ascii "c.ffi").isPrefixOf name

def userImport : Statement ν → Option Bytes
  | .importStatement _ name _ => if isBuiltIn name || isFFI name then none else some name
  | _ => none

def extractUserImports (body : List (Statement ν)) : List Bytes := body.filterMap userImport

abbrev Packages (ν : Type) := List (Bytes × List (Statement ν))

def Packages.body (pkgs : Packages ν) (pkgName : Bytes) : List (Statement ν) := (pkgs.lookup pkgName).getD []

def Packages.imports (pkgs : Packages ν) (pkgName : Bytes) : List Bytes := extractUserImports (pkgs.body pkgName)

def main : Bytes := ascii "start"

end Imports

section Definitions

abbrev Graph := AList fun _ : Bytes => List Bytes

def Graph.append (m : Graph) (key value : Bytes) : Graph := m.insert key ((m.lookup key).getD [] ++ [value])

/-- The order in which `range` goes through a map is not fixed. -/
structure Ranges where
  names : List Bytes → List Bytes
  edges : List (Sigma fun _ : Bytes => List Bytes) → List (Sigma fun _ : Bytes => List Bytes)
  names_perm : ∀ l, (names l).Perm l
  edges_perm : ∀ l, (edges l).Perm l

structure Visit where
  graph : Graph
  visitStack : List Bytes

/-- A package is entered once; the errors of the inner calls are dropped. -/
def buildTree (pkgs : Packages ν) : Nat → Visit → Bytes → Option (Visit × Option Bytes)
  | 0, _, _ => none
  | n + 1, it, pkgName =>
    if pkgName ∈ it.visitStack then some (it, some (ascii "cyclic dependency found involving " ++ pkgName))
    else
      let it := ⟨it.graph.insert pkgName [], pkgName :: it.visitStack⟩
      let step := fun (it : Visit) stmt =>
        match userImport stmt with
        | some name => (buildTree pkgs n { it with graph := it.graph.append pkgName name } name).map Prod.fst
        | none => some it
      ((pkgs.body pkgName).foldlM step it).map fun it => (it, none)

def reverseImportTree (r : Ranges) (graph : Graph) : Graph :=
  (r.edges graph.entries).foldl (fun rev e => e.2.foldl (fun rev imp => rev.append imp e.1) rev) ∅

/-- The packages that import `p` and are not dirty yet become dirty and join
the queue. -/
def markParents (reverse : Graph) (p : Bytes) (dirty queue : List Bytes) : List Bytes × List Bytes :=
  ((reverse.lookup p).getD []).foldl
    (fun s parent => if parent ∈ s.1 then s else (s.1 ++ [parent], s.2 ++ [parent])) (dirty, queue)

def propagateLoop (reverse : Graph) : Nat → List Bytes → List Bytes → Option (List Bytes)
  | _, dirty, [] => some dirty
  | 0, _, _ :: _ => none
  | n + 1, dirty, p :: queue =>
    propagateLoop reverse n (markParents reverse p dirty queue).1 (markParents reverse p dirty queue).2

def propagateModified (r : Ranges) (n : Nat) (initial : List Bytes) (reverse : Graph) : Option (List Bytes) :=
  propagateLoop reverse n (r.names initial) (r.names initial)

/-- The packages to be compiled again, where `modified` are those whose files
are newer than the last build. -/
def checkBuildCache (r : Ranges) (n : Nat) (pkgs : Packages ν) (modified : List Bytes) :
    Option (Except Bytes (List Bytes)) :=
  (buildTree pkgs n ⟨∅, []⟩ main).bind fun
    | (_, some err) => some (.error err)
    | (it, none) => (propagateModified r n modified (reverseImportTree r it.graph)).map .ok

end Definitions

section Tree

variable {pkgs : Packages ν} {it it' : Visit} {p : Bytes}

def Packages.names (pkgs : Packages ν) : List Bytes := main :: pkgs.flatMap fun pkg => extractUserImports pkg.2

theorem imports_names {q : Bytes} (h : q ∈ pkgs.imports p) : q ∈ pkgs.names := by
  rw [Packages.imports, Packages.body] at h
  cases hl : pkgs.lookup p with
  | none => simp [hl, extractUserImports] at h
  | some body =>
    rw [hl] at h
    obtain ⟨l, l', rfl, -⟩ := lookup_eq_some_iff.mp hl
    exact mem_cons_of_mem _ (mem_flatMap.mpr ⟨(p, body), by simp, h⟩)

/-- What a search writes: the imports of the packages that it enters. -/
structure Traced (pkgs : Packages ν) (it it' : Visit) : Prop where
  keeps : ∀ q ∈ it.visitStack, it'.graph.lookup q = it.graph.lookup q
  adds : ∀ q ∈ it'.visitStack, q ∉ it.visitStack → it'.graph.lookup q = some (pkgs.imports q)
  rest : ∀ q, q ∉ it'.visitStack → it'.graph.lookup q = it.graph.lookup q

theorem Traced.refl (pkgs : Packages ν) (it : Visit) : Traced pkgs it it :=
  ⟨fun _ _ => rfl, fun _ h h' => absurd h h', fun _ _ => rfl⟩

theorem append_lookup (m : Graph) (key value : Bytes) :
    (m.append key value).lookup key = some ((m.lookup key).getD [] ++ [value]) := AList.lookup_insert _

theorem append_lookup_ne (m : Graph) {key q : Bytes} (value : Bytes) (h : q ≠ key) :
    (m.append key value).lookup q = m.lookup q := AList.lookup_insert_ne h

/-- The loop over the statements of a package, with what it does for one import. -/
def treeStep (pkgs : Packages ν) (n : Nat) (pkgName : Bytes) (it : Visit) (stmt : Statement ν) : Option Visit :=
  match userImport stmt with
  | some name => (buildTree pkgs n { it with graph := it.graph.append pkgName name } name).map Prod.fst
  | none => some it

def TreeSpec (pkgs : Packages ν) (n : Nat) : Prop :=
  ∀ it p, p ∈ pkgs.names → unseen pkgs.names it.visitStack < n →
    ∃ it' err, buildTree pkgs n it p = some (it', err) ∧ (p ∉ it.visitStack → err = none) ∧
      Explored pkgs.imports it.visitStack [p] it'.visitStack ∧ Traced pkgs it it'

theorem treeLoop_spec {n : Nat} (ih : TreeSpec pkgs n) (body : List (Statement ν)) (it : Visit) (done : List Bytes)
    (hp : p ∈ it.visitStack) (hdone : it.graph.lookup p = some done) (hn : unseen pkgs.names it.visitStack < n)
    (hbody : ∀ q ∈ extractUserImports body, q ∈ pkgs.names) : ∃ it', body.foldlM (treeStep pkgs n p) it = some it' ∧
      Explored pkgs.imports it.visitStack (extractUserImports body) it'.visitStack ∧
      it'.graph.lookup p = some (done ++ extractUserImports body) ∧
      (∀ q ∈ it.visitStack, q ≠ p → it'.graph.lookup q = it.graph.lookup q) ∧
      (∀ q ∈ it'.visitStack, q ∉ it.visitStack → it'.graph.lookup q = some (pkgs.imports q)) ∧
      ∀ q, q ∉ it'.visitStack → it'.graph.lookup q = it.graph.lookup q := by
  induction body generalizing it done with
  | nil =>
    exact ⟨it, rfl, .nil, by simpa [extractUserImports] using hdone, fun _ _ _ => rfl, fun _ h h' => absurd h h',
      fun _ _ => rfl⟩
  | cons stmt body ihb =>
    cases hu : userImport stmt with
    | none =>
      have himp : extractUserImports (stmt :: body) = extractUserImports body := by
        simp [extractUserImports, hu]
      rw [himp] at hbody ⊢
      obtain ⟨it', hrun, hrest⟩ := ihb it done hp hdone hn hbody
      exact ⟨it', by rw [foldlM_cons, treeStep, hu]; exact hrun, hrest⟩
    | some name =>
      have himp : extractUserImports (stmt :: body) = name :: extractUserImports body := by
        simp [extractUserImports, hu]
      rw [himp] at hbody ⊢
      have hadd : (it.graph.append p name).lookup p = some (done ++ [name]) := by
        rw [append_lookup, hdone, Option.getD_some]
      obtain ⟨it1, err, hcall, -, hexp, htr⟩ :=
        ih { it with graph := it.graph.append p name } name (hbody name mem_cons_self) hn
      have hp1 : p ∈ it1.visitStack := hexp.grows p hp
      obtain ⟨it', hrun, hexp', hp', hkeep, hadds, hrest⟩ := ihb it1 (done ++ [name]) hp1
        ((htr.keeps p hp).trans hadd) ((unseen_le hexp.grows).trans_lt hn)
        fun q hq => hbody q (mem_cons_of_mem name hq)
      refine ⟨it', ?_, hexp.cons hexp', by rw [hp', append_assoc, singleton_append], ?_, ?_, ?_⟩
      · rw [foldlM_cons, treeStep, hu]
        simp only [hcall]
        exact hrun
      · intro q hq hne
        rw [hkeep q (hexp.grows q hq) hne, htr.keeps q hq, append_lookup_ne _ _ hne]
      · intro q hq hnew
        by_cases hq1 : q ∈ it1.visitStack
        · have hne : q ≠ p := by
            rintro rfl
            exact hnew hp
          rw [hkeep q hq1 hne, htr.adds q hq1 hnew]
        · exact hadds q hq hq1
      · intro q hq
        have hq1 : q ∉ it1.visitStack := fun h => hq (hexp'.grows q h)
        have hne : q ≠ p := by
          rintro rfl
          exact hq1 hp1
        rw [hrest q hq, htr.rest q hq1, append_lookup_ne _ _ hne]

theorem buildTree_spec (pkgs : Packages ν) (n : Nat) : TreeSpec pkgs n := by
  induction n with
  | zero => exact fun _ _ _ h => absurd h (Nat.not_lt_zero _)
  | succ n ih =>
    intro it p hp hn
    by_cases hseen : p ∈ it.visitStack
    · refine ⟨it, some (ascii "cyclic dependency found involving " ++ p), ?_, fun h => absurd hseen h, .skip hseen,
        .refl pkgs it⟩
      rw [buildTree, if_pos hseen]
    · have hlt := unseen_lt hp hseen
      obtain ⟨it', hrun, hexp, hp', hkeep, hadds, hrest⟩ := treeLoop_spec ih (pkgs.body p)
        ⟨it.graph.insert p [], p :: it.visitStack⟩ [] mem_cons_self (AList.lookup_insert _)
        (Nat.lt_of_lt_of_le hlt (Nat.le_of_lt_succ hn)) fun q hq => imports_names hq
      refine ⟨it', none, ?_, fun _ => rfl, hexp.enter, ?_, ?_, ?_⟩
      · rw [buildTree, if_neg hseen]
        have hstep := congrArg (Option.map fun it => (it, (none : Option Bytes))) hrun
        exact hstep
      · intro q hq
        have hne : q ≠ p := by
          rintro rfl
          exact hseen hq
        rw [hkeep q (mem_cons_of_mem p hq) hne]
        exact AList.lookup_insert_ne hne
      · intro q hq hnew
        by_cases hqp : q = p
        · rw [hqp, hp', nil_append, Packages.imports]
        · exact hadds q hq (by simp [hqp, hnew])
      · intro q hq
        have hne : q ≠ p := by
          rintro rfl
          exact hq (hexp.grows q mem_cons_self)
        rw [hrest q hq]
        exact AList.lookup_insert_ne hne

theorem buildTree_main {n : Nat} (hn : pkgs.names.length < n) : ∃ it, buildTree pkgs n ⟨∅, []⟩ main = some (it, none) ∧
      ∀ q imps, it.graph.lookup q = some imps ↔ Reaches pkgs.imports main q ∧ imps = pkgs.imports q := by
  have hlen : unseen pkgs.names [] < n := (unseen_le_length _ []).trans_lt hn
  obtain ⟨it, err, hrun, herr, hexp, htr⟩ := buildTree_spec pkgs n ⟨∅, []⟩ main mem_cons_self hlen
  rw [herr not_mem_nil] at hrun
  refine ⟨it, hrun, fun q imps => ?_⟩
  rw [← hexp.mem_iff]
  by_cases hq : q ∈ it.visitStack
  · rw [htr.adds q hq not_mem_nil, Option.some_inj, and_iff_right hq, eq_comm]
  · rw [htr.rest q hq]
    simp [hq]

end Tree

section Propagation

variable {graph reverse : Graph}

def Graph.parents (m : Graph) (q : Bytes) : List Bytes := (m.lookup q).getD []

theorem mem_parents_append {m : Graph} {key value q x : Bytes} :
    x ∈ (m.append key value).parents q ↔ x ∈ m.parents q ∨ q = key ∧ x = value := by
  rw [Graph.parents, Graph.parents]
  by_cases hq : q = key
  · subst hq
    rw [append_lookup, Option.getD_some, mem_append, mem_singleton]
    simp
  · rw [append_lookup_ne _ _ hq]
    simp [hq]

theorem mem_parents_imports (pkg : Bytes) (imps : List Bytes) (rev : Graph) (q x : Bytes) :
    x ∈ (imps.foldl (fun rev imp => rev.append imp pkg) rev).parents q ↔ x ∈ rev.parents q ∨ q ∈ imps ∧ x = pkg := by
  induction imps generalizing rev with
  | nil => simp
  | cons imp imps ih =>
    rw [foldl_cons, ih, mem_parents_append, mem_cons]
    tauto

theorem mem_parents_edges (edges : List (Sigma fun _ : Bytes => List Bytes)) (rev : Graph) (q x : Bytes) :
    x ∈ (edges.foldl (fun rev e => e.2.foldl (fun rev imp => rev.append imp e.1) rev) rev).parents q ↔
      x ∈ rev.parents q ∨ ∃ e ∈ edges, q ∈ e.2 ∧ x = e.1 := by
  induction edges generalizing rev with
  | nil => simp
  | cons e edges ih =>
    rw [foldl_cons, ih, mem_parents_imports, exists_mem_cons_iff, or_assoc]

theorem mem_reverseImportTree (r : Ranges) (graph : Graph) (q x : Bytes) :
    x ∈ (reverseImportTree r graph).parents q ↔ ∃ imps, graph.lookup x = some imps ∧ q ∈ imps := by
  rw [reverseImportTree, mem_parents_edges]
  constructor
  · rintro (h | ⟨e, he, hq, rfl⟩)
    · simp [Graph.parents] at h
    · exact ⟨e.2, AList.mem_lookup_iff.mpr ((r.edges_perm _).mem_iff.mp he), hq⟩
  · rintro ⟨imps, hl, hq⟩
    exact .inr ⟨⟨x, imps⟩, (r.edges_perm _).mem_iff.mpr (AList.mem_lookup_iff.mp hl), hq, rfl⟩

theorem markParents_spec (ps dirty queue : List Bytes) :
    ∃ new, ps.foldl (fun s parent => if parent ∈ s.1 then s else (s.1 ++ [parent], s.2 ++ [parent])) (dirty, queue) =
        (dirty ++ new, queue ++ new) ∧
      (∀ x ∈ new, x ∈ ps ∧ x ∉ dirty) ∧ new.Nodup ∧ ∀ y ∈ ps, y ∈ dirty ∨ y ∈ new := by
  induction ps generalizing dirty queue with
  | nil => exact ⟨[], by simp, by simp, nodup_nil, by simp⟩
  | cons q ps ih =>
    rw [foldl_cons]
    by_cases hq : q ∈ dirty
    · obtain ⟨new, hrun, hnew, hnd, hall⟩ := ih dirty queue
      refine ⟨new, by rw [if_pos hq]; exact hrun, ?_, hnd, ?_⟩
      · exact fun x hx => ⟨mem_cons_of_mem q (hnew x hx).1, (hnew x hx).2⟩
      intro y hy
      rcases mem_cons.mp hy with rfl | hy
      · exact .inl hq
      · exact hall y hy
    · obtain ⟨new, hrun, hnew, hnd, hall⟩ := ih (dirty ++ [q]) (queue ++ [q])
      refine ⟨q :: new, ?_, ?_, ?_, ?_⟩
      · rw [if_neg hq, hrun, append_assoc, append_assoc, singleton_append]
      · intro x hx
        rcases mem_cons.mp hx with rfl | hx
        · exact ⟨mem_cons_self, hq⟩
        · have := hnew x hx
          exact ⟨mem_cons_of_mem q this.1, fun h => this.2 (mem_append_left _ h)⟩
      · exact nodup_cons.mpr ⟨fun h => (hnew q h).2 (by simp), hnd⟩
      · intro y hy
        rcases mem_cons.mp hy with rfl | hy
        · exact .inr mem_cons_self
        · rcases hall y hy with h | h
          · rcases mem_append.mp h with h | h
            · exact .inl h
            · exact .inr (mem_singleton.mp h ▸ mem_cons_self)
          · exact .inr (mem_cons_of_mem q h)

theorem propagateLoop_spec {u modified dirty queue : List Bytes} {n : Nat}
    (hnodes : ∀ q, ∀ x ∈ reverse.parents q, x ∈ u) (h : Closing reverse.parents modified dirty queue)
    (hn : queue.length + unseen u dirty ≤ n) :
    ∃ dirty', propagateLoop reverse n dirty queue = some dirty' ∧ Closing reverse.parents modified dirty' [] := by
  induction n generalizing dirty queue with
  | zero =>
    have hq : queue = [] := eq_nil_of_length_eq_zero (by omega)
    exact ⟨dirty, by rw [hq, propagateLoop], hq ▸ h⟩
  | succ n ih =>
    cases queue with
    | nil => exact ⟨dirty, by rw [propagateLoop], h⟩
    | cons p queue =>
      obtain ⟨new, hrun, hnew, hnd, hall⟩ := markParents_spec (reverse.parents p) dirty queue
      have hcount := unseen_append hnd fun x hx => ⟨hnodes p x (hnew x hx).1, (hnew x hx).2⟩
      have hmark : markParents reverse p dirty queue = (dirty ++ new, queue ++ new) := hrun
      rw [propagateLoop, hmark]
      apply ih (h.pop (fun x hx => (hnew x hx).1) hall)
      simp only [length_append, length_cons] at hn ⊢
      omega

end Propagation

section Exactness

variable {pkgs : Packages ν} {p : Bytes}

theorem reaches_names (h : Reaches pkgs.imports main p) : p ∈ pkgs.names := by
  cases h with
  | refl => exact mem_cons_self
  | tail _ hp => exact imports_names hp

theorem reaches_parents {reverse : Graph} {m : Bytes}
    (hrev : ∀ q x, x ∈ reverse.parents q ↔ Reaches pkgs.imports main x ∧ q ∈ pkgs.imports x) :
    Reaches reverse.parents m p ↔ p = m ∨ Reaches pkgs.imports main p ∧ Reaches pkgs.imports p m := by
  constructor
  · intro h
    induction h with
    | refl => exact .inl rfl
    | tail _ hp ih =>
      obtain ⟨hmain, hq⟩ := (hrev _ _).mp hp
      rcases ih with rfl | ⟨-, hm⟩
      · exact .inr ⟨hmain, .head hq .refl⟩
      · exact .inr ⟨hmain, .head hq hm⟩
  · rintro (rfl | ⟨hmain, hm⟩)
    · exact .refl
    · induction hm using Relation.ReflTransGen.head_induction_on with
      | refl => exact .refl
      | head hq _ ih => exact (ih (hmain.tail hq)).tail ((hrev _ _).mpr ⟨hmain, hq⟩)

theorem checkBuildCache_spec (r : Ranges) (pkgs : Packages ν) (modified : List Bytes) {n : Nat}
    (hn : modified.length + pkgs.names.length < n) : ∃ dirty, checkBuildCache r n pkgs modified = some (.ok dirty) ∧
      ∀ p, p ∈ dirty ↔ p ∈ modified ∨ Reaches pkgs.imports main p ∧ ∃ m ∈ modified, Reaches pkgs.imports p m := by
  obtain ⟨it, htree, hgraph⟩ := buildTree_main (show pkgs.names.length < n by omega)
  have hrev : ∀ q x, x ∈ (reverseImportTree r it.graph).parents q ↔
      Reaches pkgs.imports main x ∧ q ∈ pkgs.imports x := by
    intro q x
    rw [mem_reverseImportTree]
    constructor
    · rintro ⟨imps, hl, hq⟩
      obtain ⟨hx, rfl⟩ := (hgraph x imps).mp hl
      exact ⟨hx, hq⟩
    · rintro ⟨hx, hq⟩
      exact ⟨_, (hgraph x _).mpr ⟨hx, rfl⟩, hq⟩
  have hperm := r.names_perm modified
  obtain ⟨dirty, hloop, hclosed⟩ := propagateLoop_spec (u := pkgs.names) (n := n)
    (fun q x hx => reaches_names ((hrev q x).mp hx).1) (.start (r.names modified))
    (by have := unseen_le_length pkgs.names (r.names modified)
        rw [hperm.length_eq]
        omega)
  refine ⟨dirty, ?_, fun p => ?_⟩
  · rw [checkBuildCache, htree]
    simp only [Option.bind_some, propagateModified, hloop, Option.map_some]
  · rw [hclosed.mem_iff]
    constructor
    · rintro ⟨m, hm, hp⟩
      rcases (reaches_parents hrev).mp hp with rfl | ⟨hmain, hpm⟩
      · exact .inl (hperm.mem_iff.mp hm)
      · exact .inr ⟨hmain, m, hperm.mem_iff.mp hm, hpm⟩
    · rintro (hp | ⟨hmain, m, hm, hpm⟩)
      · exact ⟨p, hperm.mem_iff.mpr hp, .refl⟩
      · exact ⟨m, hperm.mem_iff.mpr hm, (reaches_parents hrev).mpr (.inr ⟨hmain, hpm⟩)⟩

/-- In whatever order its maps are gone through, the cache check ends, and
what it calls dirty are the modified packages and those that can be reached
from `start` and import a modified one, directly or through others. -/
theorem dirty_exact (r : Ranges) (pkgs : Packages ν) (modified : List Bytes) :
    ∃ N, ∀ n ≥ N, ∃ dirty, checkBuildCache r n pkgs modified = some (.ok dirty) ∧ ∀ p, p ∈ dirty ↔
        p ∈ modified ∨ Reaches pkgs.imports main p ∧ ∃ m ∈ modified, Reaches pkgs.imports p m :=
  ⟨modified.length + pkgs.names.length + 1, fun _ hn => checkBuildCache_spec r pkgs modified (by omega)⟩

end Exactness

end Picasso.Build
