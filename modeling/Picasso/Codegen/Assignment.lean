import Mathlib.Data.List.Nodup
import Mathlib.Logic.Function.Basic

namespace Picasso.Codegen.Assignment

open List Function Option

variable {ν π κ : Type}

section Memory

inductive Val (π : Type)
  | prim (v : π)
  | object (o : Nat)
  | array (a : Nat)
  | null
  deriving DecidableEq

inductive Loc (ν : Type)
  | slot (x : ν)
  | field (o i : Nat)
  | element (a i : Nat)
  deriving DecidableEq

abbrev Mem (ν π : Type) := Loc ν → Val π

/-- What the generator has for an expression: a place that is loaded when the
value is needed, or a value that the code has computed. -/
inductive Var (ν π : Type)
  | stored (l : Loc ν)
  | computed (v : Val π)

def Var.load : Var ν π → Mem ν π → Val π
  | .stored l, m => m l
  | .computed v, _ => v

/-- The casts and the arrays. The pointer of an array variable is known to the
generator; an array keeps its length. -/
structure Machine (ν π κ : Type) where
  implicitTypeCast : κ → Val π → Option (Val π)
  int64 : Val π → Option Int
  pointer : ν → Val π
  length : Nat → Nat

end Memory

section Expressions

/-- Expressions that leave the memory as it is. A field is loaded at once unless
its type is primitive. Operators, and calls that only read, are functions of
their arguments and the memory. -/
inductive Expr (ν π : Type)
  | literal (v : Val π)
  | symbol (x : ν)
  | arraySymbol (x : ν)
  | member (base : Expr ν π) (property : Nat) (primitive : Bool)
  | computed (base : Expr ν π) (indices : List (Expr ν π))
  | apply (f : List (Val π) → Mem ν π → Option (Val π)) (args : List (Expr ν π))

variable (M : Machine ν π κ) (m : Mem ν π)

def fieldPtr : Val π → Nat → Option (Loc ν)
  | .object o, i => some (.field o i)
  | _, _ => none

def elementPtr : Val π → List Int → Option (Loc ν)
  | .array a, i :: is =>
    if 0 ≤ i ∧ i < M.length a then
      if is.isEmpty then some (.element a i.toNat) else elementPtr (m (.element a i.toNat)) is
    else none
  | _, _ => none

mutual

def processExpression : Expr ν π → Option (Var ν π)
  | .literal v => some (.computed v)
  | .symbol x => some (.stored (.slot x))
  | .arraySymbol x => some (.computed (M.pointer x))
  | .member base property primitive => do
    let b ← processExpression base
    let l ← fieldPtr (b.load m) property
    return if primitive then .stored l else .computed (m l)
  | .computed base indices => do
    let b ← processExpression base
    let is ← (← loadAll indices).mapM M.int64
    let l ← elementPtr M m (b.load m) is
    return .computed (m l)
  | .apply f args => do
    let v ← f (← loadAll args) m
    return .computed v

def loadAll : List (Expr ν π) → Option (List (Val π))
  | [] => some []
  | e :: es => do
    let v ← processExpression e
    let vs ← loadAll es
    return v.load m :: vs

end

end Expressions

section Statements

inductive Target (ν π κ : Type)
  | symbol (x : ν) (type : κ)
  | member (base : Expr ν π) (property : Nat) (type : κ)
  | computed (base : Expr ν π) (indices : List (Expr ν π)) (type : κ)

def Target.type : Target ν π κ → κ
  | .symbol _ type => type
  | .member _ _ type => type
  | .computed _ _ type => type

variable (M : Machine ν π κ)

def Target.ptr (m : Mem ν π) : Target ν π κ → Option (Loc ν)
  | .symbol x _ => some (.slot x)
  | .member base property _ => do
    let b ← processExpression M m base
    fieldPtr (b.load m) property
  | .computed base indices _ => do
    let b ← processExpression M m base
    let is ← (← loadAll M m indices).mapM M.int64
    elementPtr M m (b.load m) is

def processRHSValues (m : Mem ν π) (s : List (Target ν π κ × Expr ν π)) : Option (List (Target ν π κ × Var ν π)) :=
  s.mapM fun p => do
    let rhs ← processExpression M m p.2
    return (p.1, rhs)

variable [DecidableEq ν]

/-- The right side is loaded here, and the base and the indices are evaluated. -/
def assignToTarget (m : Mem ν π) (p : Target ν π κ × Var ν π) : Option (Mem ν π) := do
  let l ← p.1.ptr M m
  let casted ← M.implicitTypeCast p.1.type (p.2.load m)
  return update m l casted

def assignVariable (s : List (Target ν π κ × Expr ν π)) (m : Mem ν π) : Option (Mem ν π) := do
  let rhs ← processRHSValues M m s
  rhs.foldlM (assignToTarget M) m

end Statements

section Simultaneous

/-- What a simultaneous assignment does for one target: all of it is found in
the state before the statement. -/
structure Write (ν π κ : Type) where
  target : Target ν π κ
  rhs : Var ν π
  loc : Loc ν
  value : Val π

variable (M : Machine ν π κ) {m m1 m2 : Mem ν π}

/-- If the right side of a later target is loaded from an earlier one, the value
of the latter must be cast to the same. -/
def Undisturbed (w w' : Write ν π κ) : Prop :=
  w'.rhs = .stored w.loc → M.implicitTypeCast w'.target.type w.value = some w'.value

def Write.Valid (m : Mem ν π) (w : Write ν π κ) : Prop :=
  w.target.ptr M m = some w.loc ∧ M.implicitTypeCast w.target.type (w.rhs.load m) = some w.value

variable {s : List (Target ν π κ × Expr ν π)} {before : List (Loc ν)}

variable [DecidableEq ν] {ws : List (Write ν π κ)} {w : Write ν π κ} {v : Mem ν π}

def Agrees (m m' : Mem ν π) (before : List (Loc ν)) : Prop := ∀ l ∉ before, m' l = m l

/-- Every target holds the value that its right side had before, and nothing
else has changed. -/
def Holds (m : Mem ν π) (s : List (Target ν π κ × Expr ν π)) (ws : List (Write ν π κ)) : Prop :=
  ∃ m', assignVariable M s m = some m' ∧ (∀ w ∈ ws, m' w.loc = w.value) ∧ ∀ l ∉ ws.map Write.loc, m' l = m l

variable {M}

theorem Agrees.update {l : Loc ν} {v : Val π} (h : Agrees m m1 before) :
    Agrees m (update m1 l v) (l :: before) := by
  intro l' hl'
  rw [mem_cons, not_or] at hl'
  rw [update_of_ne hl'.1]
  exact h l' hl'.2

end Simultaneous

end Picasso.Codegen.Assignment
