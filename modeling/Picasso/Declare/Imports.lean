import Picasso.Build.Generator
import Picasso.Lib.Postorder

namespace Picasso.Declare

open Lexing Build Lib.Exploration Lib.Folds Lib.Postorder List

variable {σ τ δ ν : Type}

structure PackageEntry where
  name : Bytes
  importAlias : Bytes
deriving DecidableEq, Repr

/-- A tree that cannot be loaded, a declaration that is given up, or the end of
the bound on the model's recursion. -/
inductive Halt (δ : Type)
  | loadingExports (pkgName : Bytes)
  | abort (reason : δ)
  | fuel

section Definitions

variable (load : Bytes → Option τ) (imports : τ → List PackageEntry) (declare : σ → PackageEntry → τ → Except δ σ)

/-- The packages that a package imports are declared before it; `d` holds the
names of the packages that have been entered, and the state of the compiler. -/
def recursiveTransitiveDeclaration : Nat → List Bytes × σ → PackageEntry → Except (Halt δ) (List Bytes × σ)
  | 0, _, _ => .error .fuel
  | n + 1, d, pkg =>
    if pkg.name ∈ d.1 then .ok d
    else
      match load pkg.name with
      | none => .error (.loadingExports pkg.name)
      | some tree => do
          let d ← (imports tree).foldlM (recursiveTransitiveDeclaration n) (pkg.name :: d.1, d.2)
          match declare d.2 pkg tree with
          | .error reason => .error (.abort reason)
          | .ok s => .ok (d.1, s)

def resolveUserImports (n : Nat) (s : σ) (directUserImports : List PackageEntry) : Except (Halt δ) (List Bytes × σ) :=
  directUserImports.foldlM (recursiveTransitiveDeclaration load imports declare n) ([], s)

def next (p : Bytes) : List PackageEntry := (load p).elim [] imports

def declares (s : σ) (pkg : PackageEntry) : Except (Halt δ) σ :=
  match load pkg.name with
  | none => .error (.loadingExports pkg.name)
  | some tree =>
    match declare s pkg tree with
    | .error reason => .error (.abort reason)
    | .ok s => .ok s

end Definitions

section Runs

variable {load : Bytes → Option τ} {imports : τ → List PackageEntry} {declare : σ → PackageEntry → τ → Except δ σ}
  {n : Nat} {d d' : List Bytes × σ} {pkg : PackageEntry} {pkgs : List PackageEntry}

/-- What a run has done: it has searched the imports, and has declared the
packages in the order in which the search puts them out. -/
def Runs (load : Bytes → Option τ) (imports : τ → List PackageEntry) (declare : σ → PackageEntry → τ → Except δ σ)
    (d : List Bytes × σ) (pkgs : List PackageEntry) (d' : List Bytes × σ) : Prop :=
  ∃ out, Visits PackageEntry.name (next load imports) d.1 pkgs d'.1 out ∧
    out.foldlM (declares load declare) d.2 = .ok d'.2

variable {f : List Bytes × σ → PackageEntry → Except (Halt δ) (List Bytes × σ)}

theorem Runs.loop (hf : ∀ d pkg d', f d pkg = .ok d' → Runs load imports declare d [pkg] d')
    (h : pkgs.foldlM f d = .ok d') : Runs load imports declare d pkgs d' := by
  induction pkgs generalizing d with
  | nil =>
    cases h
    exact ⟨[], .nil _, rfl⟩
  | cons pkg pkgs ih =>
    obtain ⟨d1, hpkg, hrest⟩ := foldlM_cons_ok h
    obtain ⟨out, hvisit, hout⟩ := hf d pkg d1 hpkg
    obtain ⟨out', hvisit', hout'⟩ := ih hrest
    refine ⟨out ++ out', hvisit.append hvisit', ?_⟩
    rw [foldlM_append, hout]
    exact hout'

theorem declaration_runs (h : recursiveTransitiveDeclaration load imports declare n d pkg = .ok d') :
    Runs load imports declare d [pkg] d' := by
  induction n generalizing d pkg d' with
  | zero => cases h
  | succ n ih =>
    rw [recursiveTransitiveDeclaration] at h
    split at h
    · next hmem =>
      cases h
      exact ⟨[], .skip hmem (.nil _), rfl⟩
    · next hmem =>
      split at h
      · cases h
      · next tree hload =>
        obtain ⟨d1, hloop, hlast⟩ := bind_eq_ok h
        split at hlast
        · cases hlast
        · next s hs =>
          cases hlast
          obtain ⟨inner, hvisit, hinner⟩ := Runs.loop (fun d pkg d' => ih) hloop
          have hnext : next load imports pkg.name = imports tree := by rw [next, hload]; rfl
          rw [← hnext] at hvisit
          refine ⟨inner ++ [pkg], .enter hmem hvisit (.nil _), ?_⟩
          have hdeclares : declares load declare d1.2 pkg = .ok s := by simp only [declares, hload, hs]
          rw [foldlM_append, hinner]
          change (declares load declare d1.2 pkg >>= pure) = _
          rw [hdeclares]
          rfl

theorem resolveUserImports_runs {s : σ} (h : resolveUserImports load imports declare n s pkgs = .ok d') :
    Runs load imports declare ([], s) pkgs d' :=
  Runs.loop (fun _ _ _ => declaration_runs) h

variable {nodes : List Bytes}

theorem loop_total {I : List Bytes × σ → Prop} (pkgs : List PackageEntry)
    (hf : ∀ d, I d → ∀ pkg ∈ pkgs, ∃ d', f d pkg = .ok d' ∧ I d') (hd : I d) : ∃ d', pkgs.foldlM f d = .ok d' := by
  induction pkgs generalizing d with
  | nil => exact ⟨d, rfl⟩
  | cons pkg pkgs ih =>
    obtain ⟨d1, h1, hd1⟩ := hf d hd pkg mem_cons_self
    obtain ⟨d2, h2⟩ := ih (fun d hd e he => hf d hd e (mem_cons_of_mem _ he)) hd1
    exact ⟨d2, by rw [foldlM_cons, h1]; exact h2⟩

/-- If all packages can be loaded and declared, the number of the packages
bounds the recursion. -/
theorem declaration_total (hload : ∀ p ∈ nodes, ∃ tree, load p = some tree ∧ ∀ e ∈ imports tree, e.name ∈ nodes)
    (hdeclare : ∀ s pkg tree, ∃ s', declare s pkg tree = .ok s') (hpkg : pkg.name ∈ nodes) (hn : unseen nodes d.1 < n) :
    ∃ d', recursiveTransitiveDeclaration load imports declare n d pkg = .ok d' ∧ unseen nodes d'.1 < n := by
  -- what has been seen only grows
  suffices ∃ d', recursiveTransitiveDeclaration load imports declare n d pkg = .ok d' by
    obtain ⟨d', h⟩ := this
    obtain ⟨out, hvisit, -⟩ := declaration_runs h
    exact ⟨d', h, Nat.lt_of_le_of_lt (unseen_le hvisit.explored.grows) hn⟩
  induction n generalizing d pkg with
  | zero => exact absurd hn (Nat.not_lt_zero _)
  | succ n ih =>
    rw [recursiveTransitiveDeclaration]
    split
    · exact ⟨d, rfl⟩
    · next hmem =>
      obtain ⟨tree, hl, hclosed⟩ := hload _ hpkg
      obtain ⟨d1, h1⟩ := loop_total (imports tree) (d := (pkg.name :: d.1, d.2)) (I := fun d => unseen nodes d.1 < n)
        (fun d hd e he => by
          obtain ⟨d', h⟩ := ih (hclosed e he) hd
          obtain ⟨out, hvisit, -⟩ := declaration_runs h
          exact ⟨d', h, Nat.lt_of_le_of_lt (unseen_le hvisit.explored.grows) hd⟩)
        (Nat.lt_of_lt_of_le (unseen_lt hpkg hmem) (Nat.le_of_lt_succ hn))
      obtain ⟨s, hs⟩ := hdeclare d1.2 pkg tree
      refine ⟨(d1.1, s), ?_⟩
      rw [hl]
      change ((imports tree).foldlM _ _ >>= _) = _
      rw [h1]
      change (match declare d1.2 pkg tree with | .error reason => _ | .ok s => _) = _
      rw [hs]

theorem resolveUserImports_total {s : σ}
    (hload : ∀ p ∈ nodes, ∃ tree, load p = some tree ∧ ∀ e ∈ imports tree, e.name ∈ nodes)
    (hdeclare : ∀ s pkg tree, ∃ s', declare s pkg tree = .ok s') (hpkgs : ∀ e ∈ pkgs, e.name ∈ nodes)
    (hn : nodes.length < n) : ∃ d', resolveUserImports load imports declare n s pkgs = .ok d' :=
  loop_total pkgs (fun _ hd e he => declaration_total hload hdeclare (hpkgs e he) hd)
    (Nat.lt_of_le_of_lt (unseen_le_length nodes []) hn)

end Runs

end Picasso.Declare
