import Picasso.Lib.ControlFlow

namespace Picasso.Codegen.Blocks

open Lib.ControlFlow

variable {α β ρ σ : Type}

section Syntax

/-- The code of an expression or of a simple statement: instructions, checks
that raise a runtime error if a condition holds, and logical operators whose
right side runs only if the left side is `onTrue`. -/
inductive Code (α β : Type)
  | done
  | inst (a : α) (rest : Code α β)
  | check (overflow : β) (raise : α) (rest : Code α β)
  | logical (left : β) (onTrue : Bool) (rhs rest : Code α β)

mutual

/-- The statements of a block. A declaration, an assignment or a call is its
code; a condition is its code and the value that is tested. -/
inductive Body (α β ρ : Type)
  | nil
  | simple (c : Code α β) (rest : Body α β ρ)
  | atomic (body rest : Body α β ρ)
  | ifElse (c : Code α β) (cond : β) (consequent : Body α β ρ) (alternate : Alternate α β ρ) (rest : Body α β ρ)
  | foreach (bounds : Code α β) (loads : List α) (cond : β) (body : Body α β ρ) (increment : List α)
      (rest : Body α β ρ)
  | whileLoop (c : Code α β) (cond : β) (body rest : Body α β ρ)
  | breakLoop (rest : Body α β ρ)
  | ret (c : Code α β) (value : ρ) (rest : Body α β ρ)

inductive Alternate (α β ρ : Type)
  | none
  | block (body : Body α β ρ)
  | elseIf (c : Code α β) (cond : β) (consequent : Body α β ρ) (alternate : Alternate α β ρ)

end

/-- A constructor, and in the same way the main function, yields the same value
whatever its body says. -/
inductive Kind (ρ : Type)
  | void
  | typed
  | constructor (instanceValue : ρ)

end Syntax

section Emission

def emitCode : Code α β → Nat → Func α β ρ → Nat × Func α β ρ
  | .done, l, F => (l, F)
  | .inst a c, l, F => emitCode c l (F.addInst l a)
  | .check overflow raise c, l, F =>
    let abort := F.size
    let safe := F.size + 1
    let F := (F.newBlocks 2).setTerm l (.condBr overflow abort safe)
    emitCode c safe ((F.addInst abort raise).setTerm abort .unreachable)
  | .logical left onTrue rhs c, l, F =>
    let rhsBlock := F.size
    let endBlock := F.size + 1
    let F := (F.newBlocks 2).setTerm l
      (if onTrue then .condBr left rhsBlock endBlock else .condBr left endBlock rhsBlock)
    let (r, F) := emitCode rhs rhsBlock F
    emitCode c endBlock (F.setTerm r (.br endBlock))

def closeWith (F : Func α β ρ) (l k : Nat) : Func α β ρ :=
  if (F.block l).term.isNone then F.setTerm l (.br k) else F

/-- The part that an `if` and an `else if` share: the latter comes with the end
block of the former. -/
def processIfElseBlock (hasAlternate : Bool) (c : Code α β) (cond : β)
    (consequent : Nat → Func α β ρ → Option (Nat × Func α β ρ))
    (alternate : Nat → Nat → Func α β ρ → Option (Func α β ρ))
    (l ifBlock endBlock : Nat) (F : Func α β ρ) : Option (Func α β ρ) := do
  let (l, F) := emitCode c l F
  let elseBlock := F.size
  let F := if hasAlternate then F.newBlock.setTerm l (.condBr cond ifBlock elseBlock)
    else F.setTerm l (.condBr cond ifBlock endBlock)
  let (b, F) ← consequent ifBlock F
  alternate elseBlock endBlock (closeWith F b endBlock)

/-- The bounds are computed once, in the block before the loop. The body gets
the block after the loop, for a `break`. -/
def processForBlock (bounds : Code α β) (loads : List α) (cond : β)
    (body : Nat → Nat → Func α β ρ → Option (Nat × Func α β ρ)) (increment : List α)
    (l : Nat) (F : Func α β ρ) : Option (Nat × Func α β ρ) := do
  let (l, F) := emitCode bounds l F
  let loopCond := F.size
  let loopBody := F.size + 1
  let loopInc := F.size + 2
  let loopEnd := F.size + 3
  let F := (F.newBlocks 4).setTerm l (.br loopCond)
  let F := (F.addInsts loopCond loads).setTerm loopCond (.condBr cond loopBody loopEnd)
  let (b, F) ← body loopEnd loopBody F
  let F := closeWith F b loopInc
  return (loopEnd, (F.addInsts loopInc increment).setTerm loopInc (.br loopCond))

def processWhileBlock (c : Code α β) (cond : β) (body : Nat → Nat → Func α β ρ → Option (Nat × Func α β ρ))
    (l : Nat) (F : Func α β ρ) : Option (Nat × Func α β ρ) := do
  let condEntry := F.size
  let bodyBlock := F.size + 1
  let endBlock := F.size + 2
  let F := (F.newBlocks 3).setTerm l (.br condEntry)
  let (condBlock, F) := emitCode c condEntry F
  let F := F.setTerm condBlock (.condBr cond bodyBlock endBlock)
  let (b, F) ← body endBlock bodyBlock F
  return (endBlock, closeWith F b condEntry)

def handleBreak (ends : List Nat) (l : Nat) (F : Func α β ρ) : Option (Nat × Func α β ρ) := do
  let loopEnd ← ends.head?
  return (l, F.setTerm l (.br loopEnd))

def Alternate.isSome : Alternate α β ρ → Bool
  | .none => false
  | _ => true

mutual

/-- The statements after a `return` or a `break` are skipped, but not those
after a block that holds one. The holder of the current block is the label
`l`. -/
def processBlock (result : ρ → Option ρ) :
    Body α β ρ → List Nat → Nat → Func α β ρ → Option (Nat × Func α β ρ)
  | .nil, _, l, F => some (l, F)
  | .simple c rest, ends, l, F =>
    let (l, F) := emitCode c l F
    processBlock result rest ends l F
  | .atomic body rest, ends, l, F => do
    let (l, F) ← processBlock result body ends l F
    processBlock result rest ends l F
  | .ifElse c cond consequent alternate rest, ends, l, F => do
    let ifBlock := F.size
    let endBlock := F.size + 1
    let F ← processIfElseBlock alternate.isSome c cond (processBlock result consequent ends)
      (processAlternate result alternate ends) l ifBlock endBlock (F.newBlocks 2)
    processBlock result rest ends endBlock F
  | .foreach bounds loads cond body increment rest, ends, l, F => do
    let (l, F) ← processForBlock bounds loads cond (fun loopEnd => processBlock result body (loopEnd :: ends))
      increment l F
    processBlock result rest ends l F
  | .whileLoop c cond body rest, ends, l, F => do
    let (l, F) ← processWhileBlock c cond (fun endBlock => processBlock result body (endBlock :: ends)) l F
    processBlock result rest ends l F
  | .breakLoop _, ends, l, F => handleBreak ends l F
  | .ret c value _, _, l, F =>
    let (l, F) := emitCode c l F
    some (l, F.setTerm l (.ret (result value)))

def processAlternate (result : ρ → Option ρ) :
    Alternate α β ρ → List Nat → Nat → Nat → Func α β ρ → Option (Func α β ρ)
  | .none, _, _, _, F => some F
  | .block body, ends, elseBlock, endBlock, F => do
    let (e, F) ← processBlock result body ends elseBlock F
    return closeWith F e endBlock
  | .elseIf c cond consequent alternate, ends, elseBlock, endBlock, F =>
    processIfElseBlock alternate.isSome c cond (processBlock result consequent ends)
      (processAlternate result alternate ends) elseBlock F.size endBlock F.newBlock

end

/-- A `return` yields its value only if the function has a return type. -/
def Kind.emitted : Kind ρ → ρ → Option ρ
  | .typed, value => some value
  | _, _ => none

/-- The first block holds the allocations and leads to the second one, where the
parameters are stored and the body begins. The last terminator replaces one
that is there. -/
def defineFunc (kind : Kind ρ) (params : Code α β) (body : Body α β ρ) : Option (Func α β ρ) := do
  let F := Func.empty.newBlocks 2
  let (l, F) := emitCode params 1 F
  let (l, F) ← processBlock kind.emitted body [] l F
  let F := F.setTerm 0 (.br 1)
  match kind with
  | .constructor instanceValue => return F.setTerm l (.ret (some instanceValue))
  | .void => return F.setTerm l (.ret none)
  | .typed => return F

end Emission

section Meaning

variable (S : Semantics α β σ)

def execCode : Code α β → σ → Except σ σ
  | .done, s => .ok s
  | .inst a c, s => execCode c (S.inst a s)
  | .check overflow raise c, s => if S.test overflow s then .error (S.inst raise s) else execCode c s
  | .logical left onTrue rhs c, s =>
    if S.test left s = onTrue then do execCode c (← execCode rhs s) else execCode c s

def execInsts (as : List α) (s : σ) : σ := as.foldl (fun s a => S.inst a s) s

/-- How the statements of a block end; `running` is a loop that has not ended
within the fuel. -/
inductive Outcome (ρ σ : Type)
  | normal (s : σ)
  | broke (s : σ)
  | returned (s : σ) (value : Option ρ)
  | aborted (s : σ)
  | running (s : σ)

def Outcome.ofCode : Except σ σ → Outcome ρ σ
  | .ok s => .normal s
  | .error s => .aborted s

open Outcome

def Outcome.bind : Outcome ρ σ → (σ → Outcome ρ σ) → Outcome ρ σ
  | .normal s, k => k s
  | o, _ => o

def execLoop (test : σ → Except σ σ) (cond : β) (body : σ → Outcome ρ σ) (increment : σ → σ) :
    Nat → σ → Outcome ρ σ
  | 0, s => .running s
  | fuel + 1, s =>
    (ofCode (test s)).bind fun s =>
      if S.test cond s then
        match body s with
        | .normal s => execLoop test cond body increment fuel (increment s)
        | .broke s => .normal s
        | o => o
      else .normal s

mutual

def execBlock (result : ρ → Option ρ) (fuel : Nat) : Body α β ρ → σ → Outcome ρ σ
  | .nil, s => .normal s
  | .simple c rest, s => (ofCode (execCode S c s)).bind (execBlock result fuel rest)
  | .atomic body rest, s => (execBlock result fuel body s).bind (execBlock result fuel rest)
  | .ifElse c cond consequent alternate rest, s =>
    ((ofCode (execCode S c s)).bind fun s =>
      if S.test cond s then execBlock result fuel consequent s else execAlternate result fuel alternate s).bind
        (execBlock result fuel rest)
  | .foreach bounds loads cond body increment rest, s =>
    ((ofCode (execCode S bounds s)).bind
      (execLoop S (fun s => .ok (execInsts S loads s)) cond (execBlock result fuel body) (execInsts S increment)
        fuel)).bind (execBlock result fuel rest)
  | .whileLoop c cond body rest, s =>
    (execLoop S (execCode S c) cond (execBlock result fuel body) id fuel s).bind (execBlock result fuel rest)
  | .breakLoop _, s => .broke s
  | .ret c value _, s => (ofCode (execCode S c s)).bind fun s => .returned s (result value)

def execAlternate (result : ρ → Option ρ) (fuel : Nat) : Alternate α β ρ → σ → Outcome ρ σ
  | .none, s => .normal s
  | .block body, s => execBlock result fuel body s
  | .elseIf c cond consequent alternate, s =>
    (ofCode (execCode S c s)).bind fun s =>
      if S.test cond s then execBlock result fuel consequent s else execAlternate result fuel alternate s

end

def Kind.result : Kind ρ → ρ → Option ρ
  | .void, _ => none
  | .typed, value => some value
  | .constructor instanceValue, _ => some instanceValue

/-- A function without return type, and a constructor, also returns at its end. -/
def Kind.finish : Kind ρ → σ → Outcome ρ σ
  | .void, s => .returned s none
  | .typed, s => .normal s
  | .constructor instanceValue, s => .returned s (some instanceValue)

def execFunc (kind : Kind ρ) (params : Code α β) (body : Body α β ρ) (fuel : Nat) (s : σ) : Outcome ρ σ :=
  (ofCode (execCode S params s)).bind fun s => (execBlock S kind.result fuel body s).bind kind.finish

end Meaning

end Picasso.Codegen.Blocks
