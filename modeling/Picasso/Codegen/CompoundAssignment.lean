import Picasso.Codegen.Assignment
import Picasso.Lib.Stateful
import Picasso.Parsing.Grouping

namespace Picasso.Codegen.CompoundAssignment

open Lexing Parsing Assignment
open Grouping (tok)

variable {μ ν π κ : Type}

/-- The targets and the values of the expressions of the parser. -/
structure Resolver (μ ν π κ : Type) where
  target : Expression μ → Option (Target ν π κ)
  expr : Expression μ → Option (Expr ν π)

def Resolver.pair (R : Resolver μ ν π κ) (assignee value : Expression μ) : Option (Target ν π κ × Expr ν π) := do
  return (← R.target assignee, ← R.expr value)

/-- A node without a list of assignees has a single one. No value is a tuple. -/
def normalize (R : Resolver μ ν π κ) : Expression μ → Option (List (Target ν π κ × Expr ν π))
  | .assignment _ (some assignee) (some assignedValue) [] _ => do return [← R.pair assignee assignedValue]
  | .assignment _ _ _ assignees assignedValues =>
    if assignees.length = assignedValues.length then (assignees.zip assignedValues).mapM fun p => R.pair p.1 p.2 else none
  | _ => none

def run [DecidableEq ν] (M : Machine ν π κ) (R : Resolver μ ν π κ) (st : Expression μ) (m : Mem ν π) :
    Option (Mem ν π) := do assignVariable M (← normalize R st) m

def combined [Add π] [Sub π] : TokenKind → π → π → π
  | .PLUS_EQUALS, old, v => old + v
  | .MINUS_EQUALS, old, v => old - v
  | _, _, v => v

structure Evaluates (M : Machine ν π κ) (R : Resolver μ ν π κ) (m : Mem ν π) (x e : Expression μ)
    (t : Target ν π κ) (l : Loc ν) (a v : π) : Prop where
  target : R.target x = some t
  ptr : t.ptr M m = some l
  old : m l = .prim a
  value : ∃ E r, R.expr e = some E ∧ processExpression M m E = some r ∧ r.load m = .prim v

variable {M : Machine ν π κ} {R : Resolver μ ν π κ} {m : Mem ν π} {c : Calls μ} {x e : Expression μ}
  {x' : Option (Expression μ)} {p p' : Parser} {src : SourceLoc} {bp : BindingPower} {h : LedHandler} {o : Token}
  {t : Target ν π κ} {l : Loc ν} {a v : π} {w : Val π}

/-- The operator is taken and forgotten. -/
theorem parseAssignmentExpr_assignee (h : parseAssignmentExpr c x bp p = .ok (.assignment src x' (some e) [] [], p')) :
    x' = some x := by
  rw [parseAssignmentExpr] at h
  obtain ⟨-, p1, -, h⟩ := Lib.Stateful.run_bind_eq_ok h
  obtain ⟨values, p2, -, h⟩ := Lib.Stateful.run_bind_eq_ok h
  obtain ⟨loc, p3, -, h⟩ := Lib.Stateful.run_bind_eq_ok h
  split at h
  · cases h
    rfl
  · cases h

theorem led_compound (ho : o.kind = .PLUS_EQUALS ∨ o.kind = .MINUS_EQUALS) :
    tables.led o.kind = some .parseAssignmentExpr := by
  rcases ho with ho | ho <;> rw [ho] <;> rfl

theorem run_single [DecidableEq ν] (he : Evaluates M R m x e t l a v) :
    run M R (.assignment src (some x) (some e) [] []) m =
      (M.implicitTypeCast t.type (.prim v)).map (Function.update m l) := by
  obtain ⟨E, r, hE, hr, hload⟩ := he.value
  simp [run, normalize, Resolver.pair, he.target, hE, assignVariable, processRHSValues, hr, assignToTarget, he.ptr, hload,
    Option.map_eq_bind, Function.comp_def]

/-- A compound assignment stores the combined value just when the value of its
right side alone is cast to the same. -/
theorem compound_assignment [Add π] [Sub π] [DecidableEq ν] (ho : o.kind = .PLUS_EQUALS ∨ o.kind = .MINUS_EQUALS)
    (hled : tables.led o.kind = some h) {done ts : List Token}
    (hparse : ledHandler c x bp h (front done (o :: ts)) = .ok (.assignment src x' (some e) [] [], p'))
    (he : Evaluates M R m x e t l a v) (hcast : M.implicitTypeCast t.type (.prim (combined o.kind a v)) = some w) :
    run M R (.assignment src x' (some e) [] []) m = some (Function.update m l w) ↔
      M.implicitTypeCast t.type (.prim v) = M.implicitTypeCast t.type (.prim (combined o.kind a v)) := by
  cases hled.symm.trans (led_compound ho)
  obtain rfl := parseAssignmentExpr_assignee hparse
  rw [run_single he, hcast, Option.map_eq_some_iff]
  constructor
  · rintro ⟨u, hu, hupdate⟩
    rw [hu, Function.update_injective m l hupdate]
  · exact fun hv => ⟨w, hv, rfl⟩

section Cases

def threes : Strconv Int := ⟨fun _ => 3, some⟩

def identity : Machine Bytes Int Unit := ⟨fun _ v => some v, fun _ => none, fun _ => .null, fun _ => 0⟩

def names : Resolver Int Bytes Int Unit where
  target
    | .symbol _ x => some (.symbol x ())
    | _ => none
  expr
    | .number _ v => some (.literal (.prim v))
    | _ => none

theorem compound_assignment_zero : run identity names (.assignment place (some (.symbol place (ascii "x")))
    (some (.number place 3)) [] []) (fun _ => .prim 0) =
      some (Function.update (fun _ => .prim 0) (.slot (ascii "x")) (.prim 3)) := by
  have hparse : ledHandler (calls threes 4) (.symbol place (ascii "x")) 0 .parseAssignmentExpr
      (front [tok .IDENTIFIER "x"] [tok .PLUS_EQUALS "+=", tok .NUMBER "3", tok .SEMI_COLON ";"]) =
        .ok (.assignment place (some (.symbol place (ascii "x"))) (some (.number place 3)) [] [],
          front [tok .IDENTIFIER "x", tok .PLUS_EQUALS "+=", tok .NUMBER "3"] [tok .SEMI_COLON ";"]) := rfl
  have he : Evaluates identity names (fun _ => .prim 0) (.symbol place (ascii "x")) (.number place 3)
      (.symbol (ascii "x") ()) (.slot (ascii "x")) 0 3 := ⟨rfl, rfl, rfl, _, _, rfl, rfl, rfl⟩
  exact (compound_assignment (.inl rfl) rfl hparse he rfl).mpr rfl

/-- With 5 in `x` the statement `x += 3;` stores 3. -/
theorem compound_assignment_overwrites : ∃ src st p' m', parseStmtBody (calls threes 8)
    (front [] [tok .IDENTIFIER "x", tok .PLUS_EQUALS "+=", tok .NUMBER "3", tok .SEMI_COLON ";"]) =
        .ok (.expression src st, p') ∧
      run identity names st (fun _ => .prim 5) = some m' ∧ m' (.slot (ascii "x")) = .prim 3 ∧
        combined .PLUS_EQUALS (5 : Int) 3 = 8 := ⟨_, _, _, _, rfl, rfl, rfl, rfl⟩

end Cases

end Picasso.Codegen.CompoundAssignment
