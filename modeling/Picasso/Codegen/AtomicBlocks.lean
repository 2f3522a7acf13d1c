import Picasso.Declare.Runs
import Picasso.Codegen.Yields
import Picasso.Lib.Transition

namespace Picasso.Codegen.Yields

open Lexing Parsing Declare Blocks Lib.ControlFlow Lib.Transition Option

variable {ν : Type}

section Calls

mutual

def calls : Expression ν → Bool
  | .new _ _ arguments => anyCalls arguments
  | .member _ base _ => calls base
  | .computed _ base indices => calls base || anyCalls indices
  | .prefixed _ _ operand => calls operand
  | .binary _ left _ right => calls left || calls right
  | .call .. => true
  | _ => false

def anyCalls : List (Expression ν) → Bool
  | [] => false
  | e :: es => calls e || anyCalls es

end

def statementCalls (e : Expression ν) : Bool :=
  match e with
  | .assignment _ assignee assignedValue assignees assignedValues =>
    if assignees.isEmpty then anyCalls assignedValue.toList || anyCalls assignee.toList
    else anyCalls assignedValues || anyCalls assignees
  | e => calls e

mutual

def callsOutside : Statement ν → Bool
  | .variableDeclaration _ _ assignedValue _ _ _ => anyCalls assignedValue.toList
  | .variableDeclarations _ _ _ assignedValues _ _ => anyCalls assignedValues
  | .expression _ e => statementCalls e
  | .ifStatement _ condition consequent alternate =>
    calls condition || consequentCalls consequent || alternateCalls alternate
  | .foreachStatement _ _ _ iterable body =>
    match iterable with
    | .range _ lower upper => calls lower || calls upper || bodyCalls body
    | _ => false
  | .whileStatement _ condition body => calls condition || bodyCalls body
  | _ => false

def consequentCalls : Statement ν → Bool
  | .block _ body => bodyCalls body
  | _ => false

def alternateCalls : Option (Statement ν) → Bool
  | some (.block _ body) => bodyCalls body
  | some (.ifStatement _ condition consequent alternate) =>
    calls condition || consequentCalls consequent || alternateCalls alternate
  | _ => false

/-- What stands after a `break` or a `return` does not count. -/
def bodyCalls : List (Statement ν) → Bool
  | [] => false
  | .breakStatement _ :: _ => false
  | .returnStatement _ value values _ :: _ => anyCalls (returned value values)
  | st :: sts => callsOutside st || bodyCalls sts

end

def Function.callsOutside (f : Function ν) : Bool := anyCalls f.inits || bodyCalls f.body

end Calls

section Expressions

variable {n : Names} {s : Site} {p : Inst → Prop} {k : Code Inst Unit}

/-- The instructions other than yields, and the yields of the site if something
calls there. -/
structure Allowed (s : Site) (call : Bool) (p : Inst → Prop) : Prop where
  other : ∀ i, i.op ≠ .selfYield → p i
  yields : call = true → s.ac ≤ 0 → p ⟨s.inside, .selfYield⟩

variable {c c' : Bool}

theorem Allowed.mono (h : Allowed s c p) (hc : c' = true → c = true) : Allowed s c' p :=
  ⟨h.other, fun hc' => h.yields (hc hc')⟩

theorem Allowed.left (h : Allowed s (c || c') p) : Allowed s c p := h.mono fun hc => by simp [hc]

theorem Allowed.right (h : Allowed s (c || c') p) : Allowed s c' p := h.mono fun hc => by simp [hc]

theorem Allowed.emit {op : Op} (h : Allowed s c p) (hop : op ≠ .selfYield) (hk : k.All p) : (emit s op k).All p :=
  ⟨h.other _ hop, hk⟩

theorem Allowed.emitOther (h : Allowed s c p) (hk : k.All p) : (Yields.emit s .other k).All p := h.emit (by simp) hk

theorem Allowed.addYield (h : Allowed s true p) (hk : k.All p) : (addYield s k).All p := by
  unfold Yields.addYield
  split_ifs with hac
  · exact hk
  · exact ⟨h.yields rfl (by omega), hk⟩

theorem expressions_all (n : Names) (s : Site) (p : Inst → Prop) :
    (∀ (e : Expression ν) (k : Code Inst Unit), Allowed s (calls e) p → k.All p → (processExpression n s e k).All p) ∧
      ∀ (es : List (Expression ν)) (k : Code Inst Unit), Allowed s (anyCalls es) p → k.All p →
        (passArguments n s es k).All p := by
  apply processExpression.mutual_induct n s
  case case1 | case2 | case3 | case4 =>
    intros
    rw [processExpression]
    exact Allowed.emitOther ‹_› ‹_›
  case case5 =>
    intro loc method arguments k ih h hk
    rw [processExpression]
    exact h.emitOther (ih h (h.emit (by simp) (h.emitOther hk)))
  case case6 =>
    intro loc base property k himp h hk
    rw [processExpression, if_pos himp]
    exact h.emitOther hk
  case case7 =>
    intro loc base property k himp ih h hk
    rw [processExpression, if_neg himp]
    exact ih h (h.emitOther hk)
  case case8 =>
    intro loc base indices k ihs ih h hk
    rw [processExpression]
    exact ih h.left (ihs h.right (h.emitOther hk))
  case case9 =>
    intro loc operator operand k ih h hk
    rw [processExpression]
    exact ih h (h.emitOther hk)
  case case10 =>
    intro loc left operator right k hop ihr ihl h hk
    rw [processExpression, if_pos hop]
    exact ihl h.left (h.emitOther ⟨ihr h.right (h.emitOther trivial), h.emitOther hk⟩)
  case case11 =>
    intro loc left operator right k hop ihr ihl h hk
    rw [processExpression, if_neg hop]
    exact ihl h.left (ihr h.right (h.emitOther hk))
  case case12 =>
    intro loc method arguments k ihargs ih h hk
    -- whatever is called, the yield comes first
    have hany {c : Bool} : Allowed s c p := h.mono fun _ => rfl
    rw [processExpression.eq_def]
    refine h.addYield ?_
    split_ifs
    · exact ihargs hany (h.emitOther hk)
    · cases method with
      | symbol loc name =>
        dsimp only at ih ⊢
        split_ifs
        · cases arguments with
          | nil => exact hk
          | cons e es => exact ih.1 hany (h.emitOther hk)
        · have ih := ih.2
          split
          · exact ih.2 hany (h.emitOther (ih.1 hany (h.emitOther hk)))
          · exact hk
      | member loc base property =>
        exact ih.2 hany (h.emitOther (ih.1 hany (h.emit (by simp) (h.emitOther hk))))
      | _ => exact hk
  case case13 =>
    intro e k _ _ _ _ _ _ _ _ _ _ h hk
    rw [processExpression]
    · exact hk
    all_goals assumption
  case case14 =>
    intro k h hk
    rw [passArguments]
    exact hk
  case case15 =>
    intro e es k ihs ih h hk
    rw [passArguments]
    exact ih h.left (h.emitOther (ihs h.right hk))

variable {e : Expression ν} {es : List (Expression ν)}

theorem processExpression_all (h : Allowed s (calls e) p) (hk : k.All p) :
    (processExpression n s e k).All p := (expressions_all n s p).1 e k h hk

theorem passArguments_all (h : Allowed s (anyCalls es) p) (hk : k.All p) :
    (passArguments n s es k).All p := (expressions_all n s p).2 es k h hk

theorem assignToTarget_all (h : Allowed s (calls e) p) (hk : k.All p) : (assignToTarget n s e k).All p := by
  unfold assignToTarget
  split
  · exact processExpression_all h (h.emitOther hk)
  · exact processExpression_all h.left (passArguments_all h.right (h.emitOther hk))
  · exact h.emitOther hk

theorem assignToTargets_all (h : Allowed s (anyCalls es) p) (hk : k.All p) : (assignToTargets n s es k).All p := by
  induction es with
  | nil => exact hk
  | cons e es ih => exact assignToTarget_all h.left (ih h.right)

theorem assignVariable_all {assignees assignedValues : List (Expression ν)}
    (h : Allowed s (anyCalls assignedValues || anyCalls assignees) p) :
    (assignVariable n s assignees assignedValues).All p :=
  passArguments_all h.left (assignToTargets_all h.right trivial)

theorem declareVariable_all (h : Allowed s (anyCalls es) p) :
    (declareVariable n s es).All p := passArguments_all h (h.emitOther trivial)

theorem processCondition_all (h : Allowed s (calls e) p) : (processCondition n s e).All p :=
  processExpression_all h (h.emitOther trivial)

theorem processExpressionStatement_all (h : Allowed s (statementCalls e) p) :
    (processExpressionStatement n s e).All p := by
  unfold processExpressionStatement
  split
  · rw [statementCalls] at h
    split_ifs at h ⊢
    · exact assignVariable_all h
    · exact assignVariable_all h
  · exact processExpression_all h trivial
  · exact processExpression_all h trivial
  · trivial

end Expressions

section Statements

variable {n : Names} {inside : Bool} {ac : Int} {c c' : Bool} {p : Inst → Prop}

/-- The counter is positive inside of the atomic blocks, and the yields that may
be emitted for calls outside of them are allowed. -/
structure Clear (inside : Bool) (ac : Int) (call : Bool) (p : Inst → Prop) : Prop where
  nonneg : 0 ≤ ac
  pos : inside = true → 0 < ac
  other : ∀ i, i.op ≠ .selfYield → p i
  yields : call = true → inside = false → p ⟨false, .selfYield⟩

theorem Clear.allowed (h : Clear inside ac c p) : Allowed ⟨inside, ac⟩ c p := by
  refine ⟨h.other, fun hc hac => ?_⟩
  cases inside with
  | false => exact h.yields hc rfl
  | true =>
    have := h.pos rfl
    dsimp only at hac
    omega

theorem Clear.mono (h : Clear inside ac c p) (hc : c' = true → c = true) : Clear inside ac c' p :=
  ⟨h.nonneg, h.pos, h.other, fun hc' => h.yields (hc hc')⟩

theorem Clear.left (h : Clear inside ac (c || c') p) : Clear inside ac c p := h.mono fun hc => by simp [hc]

theorem Clear.right (h : Clear inside ac (c || c') p) : Clear inside ac c' p := h.mono fun hc => by simp [hc]

theorem Clear.atomic (h : Clear inside ac c p) : Clear true (ac + 1) c' p where
  nonneg := by have := h.nonneg; omega
  pos _ := by have := h.nonneg; omega
  other := h.other
  yields _ h' := by cases h'

/-- The second branch of a conditional starts with the counter of the first. -/
theorem branches_all {e : Expression ν} {b : Body Inst Unit Unit} {a : Alternate Inst Unit Unit} {ac' ac'' : Int}
    (h : Clear inside ac (calls e || c || c') p) (hb : Clear inside ac c p → ac' = ac ∧ b.All p)
    (ha : Clear inside ac' c' p → ac'' = ac' ∧ a.All p) :
    ac'' = ac ∧ (processCondition n ⟨inside, ac⟩ e).All p ∧ b.All p ∧ a.All p := by
  obtain ⟨rfl, hall⟩ := hb h.left.right
  obtain ⟨rfl, hall'⟩ := ha h.right
  exact ⟨rfl, processCondition_all h.left.left.allowed, hall, hall'⟩

theorem statements_all (n : Names) (p : Inst → Prop) :
    (∀ inside (st : Statement ν) ac, Clear inside ac (callsOutside st) p →
      (processStatement n inside st ac).2 = ac ∧ ∀ rest, rest.All p → ((processStatement n inside st ac).1 rest).All p) ∧
    (∀ inside (st : Option (Statement ν)) ac, Clear inside ac (alternateCalls st) p →
      (processAlternate n inside st ac).2 = ac ∧ (processAlternate n inside st ac).1.All p) ∧
    (∀ inside (st : Statement ν) ac, Clear inside ac (consequentCalls st) p →
      (processConsequent n inside st ac).2 = ac ∧ (processConsequent n inside st ac).1.All p) ∧
    ∀ inside (sts : List (Statement ν)) ac, Clear inside ac (bodyCalls sts) p →
      (processStatements n inside sts ac).2 = ac ∧ (processStatements n inside sts ac).1.All p := by
  apply processStatement.mutual_induct n
  case case1 | case2 =>
    intro inside loc _ _ _ isStatic isInternal ac h
    rw [callsOutside] at h
    rw [processStatement]
    exact ⟨rfl, fun rest hrest => ⟨declareVariable_all h.allowed, hrest⟩⟩
  case case3 =>
    intro inside loc e ac h
    rw [callsOutside] at h
    rw [processStatement]
    exact ⟨rfl, fun rest hrest => ⟨processExpressionStatement_all h.allowed, hrest⟩⟩
  case case4 =>
    intro inside loc body ac b ac' hb ih h
    obtain ⟨hac, hall⟩ := ih h.atomic
    rw [hb] at hac hall
    rw [processStatement, hb]
    dsimp only at hac ⊢
    exact ⟨by omega, fun rest hrest => ⟨hall, hrest⟩⟩
  case case5 =>
    intro inside loc condition consequent alternate ac b ac' hb a ac'' ha ihb iha h
    rw [callsOutside] at h
    rw [hb] at ihb
    rw [ha] at iha
    obtain ⟨hac, hcondition, hall, hall'⟩ := branches_all h ihb iha
    simp only [processStatement, hb, ha]
    exact ⟨hac, fun rest hrest => ⟨hcondition, hall, hall', hrest⟩⟩
  case case6 =>
    intro inside loc value index body ac loc' lower upper b ac' hb ih h
    rw [callsOutside] at h
    obtain ⟨hac, hall⟩ := ih h.right
    rw [processStatement]
    have hother : p ⟨inside, .other⟩ := h.other _ (by simp)
    have hbounds : Allowed ⟨inside, ac⟩ (anyCalls [lower, upper]) p :=
      h.left.allowed.mono (by simp [anyCalls])
    exact ⟨hac, fun rest hrest => ⟨passArguments_all hbounds trivial, by simpa using hother, hall,
      by simpa using hother, hrest⟩⟩
  case case7 =>
    intro inside loc value index iterable body ac hiter h
    rw [processStatement]
    · exact ⟨rfl, fun rest hrest => hrest⟩
    · exact hiter
  case case8 =>
    intro inside loc condition body ac b ac' hb ih h
    rw [callsOutside] at h
    obtain ⟨hac, hall⟩ := ih h.right
    rw [processStatement]
    exact ⟨hac, fun rest hrest => ⟨processCondition_all h.left.allowed, hall, hrest⟩⟩
  case case9 =>
    intro st inside ac _ _ _ _ _ _ _ h
    rw [processStatement]
    · exact ⟨rfl, fun rest hrest => hrest⟩
    all_goals assumption
  case case10 =>
    intro inside loc body ac ih h
    rw [consequentCalls] at h
    rw [processConsequent]
    exact ih h
  case case11 =>
    intro st inside ac hst h
    rw [processConsequent]
    · exact ⟨rfl, trivial⟩
    · exact hst
  case case12 =>
    intro inside ac h
    rw [processStatements]
    exact ⟨rfl, trivial⟩
  case case13 =>
    intro inside loc sts ac h
    rw [processStatements]
    exact ⟨rfl, trivial⟩
  case case14 =>
    intro inside loc value values isVoid sts ac h
    rw [bodyCalls] at h
    rw [processStatements]
    exact ⟨rfl, passArguments_all h.allowed trivial⟩
  case case15 =>
    intro inside st sts ac hbreak hret b ac' hb b' ac'' hb' ihst ih h
    rw [bodyCalls] at h
    · obtain ⟨hac, hall⟩ := ihst h.left
      rw [hb] at hac hall
      dsimp only at hac
      subst hac
      obtain ⟨hac', hall'⟩ := ih h.right
      rw [hb'] at hac' hall'
      rw [processStatements, hb]
      · simp only [hb']
        exact ⟨hac', hall _ hall'⟩
      · exact hbreak
      · exact hret
    · exact hbreak
    · exact hret
  case case16 =>
    intro inside loc body ac b ac' hb ih h
    rw [alternateCalls] at h
    rw [processAlternate]
    exact ih h
  case case17 =>
    intro inside loc condition consequent alternate ac b ac' hb a ac'' ha ihb iha h
    rw [alternateCalls] at h
    rw [hb] at ihb
    rw [ha] at iha
    simp only [processAlternate, hb, ha]
    exact branches_all h ihb iha
  case case18 =>
    intro st inside ac hblock hif h
    rw [processAlternate]
    · exact ⟨rfl, trivial⟩
    · exact hblock
    · exact hif

end Statements

section Functions

variable {n : Names} {p : Inst → Prop} {code : List (Compiled ν)} {c : Compiled ν}

theorem defineFuncs_all {fns : List (Function ν)} (ho : ∀ i, i.op ≠ .selfYield → p i)
    (h : defineFuncs n fns 0 = some code) (hc : c ∈ code)
    (hy : c.fn.callsOutside = true → p ⟨false, .selfYield⟩) : c.graph.All p := by
  induction fns generalizing code with
  | nil =>
    cases h
    cases hc
  | cons fn fns ih =>
    obtain ⟨graph, hg, h⟩ := bind_eq_some_iff.mp h
    obtain ⟨rest, hrest, h⟩ := bind_eq_some_iff.mp h
    cases h
    have hclear (hy : fn.callsOutside = true → p ⟨false, .selfYield⟩) : Clear false 0 fn.callsOutside p :=
      ⟨by omega, by simp, ho, fun hc _ => hy hc⟩
    rcases List.mem_cons.mp hc with rfl | hc
    · have hcl := hclear hy
      exact defineFunc_all (declareVariable_all hcl.left.allowed) ((statements_all n p).2.2.2 _ _ _ hcl.right).2 hg
    · have hac : (processStatements n false fn.body 0).2 = 0 :=
        ((statements_all n fun _ => True).2.2.2 false fn.body 0 ⟨by omega, by simp, by simp, by simp⟩).1
      rw [hac] at hrest
      exact ih hrest hc

theorem link_all {ms : List (Source ν)} (ho : ∀ i, i.op ≠ .selfYield → p i) (h : link ms = some code) (hc : c ∈ code)
    (hy : c.fn.callsOutside = true → p ⟨false, .selfYield⟩) : c.graph.All p := by
  induction ms generalizing code with
  | nil =>
    cases h
    cases hc
  | cons m ms ih =>
    obtain ⟨first, hf, h⟩ := bind_eq_some_iff.mp h
    obtain ⟨rest, hrest, h⟩ := bind_eq_some_iff.mp h
    cases h
    rcases List.mem_append.mp hc with hc | hc
    · exact defineFuncs_all ho hf hc hy
    · exact ih hrest hc

end Functions

section Tasks

structure Frame (ν : Type) where
  fn : Compiled ν
  label : Nat
  index : Nat

def Frame.inst (f : Frame ν) : Option Inst := (f.fn.graph.block f.label).insts[f.index]?

def Frame.next (f : Frame ν) : Frame ν := { f with index := f.index + 1 }

def Frame.goto (f : Frame ν) (label : Nat) : Frame ν := { f with label := label, index := 0 }

abbrev Task (ν : Type) := List (Frame ν)

/-- Data is left open: a branch goes either way, a call runs any function of the
name, and the runtime may stop the program. -/
inductive Act
  | go
  | branch (onTrue : Bool)
  | invoke (k : Nat)
  | stop
deriving DecidableEq

def callee (code : List (Compiled ν)) (name : Bytes) (k : Nat) : Option (Compiled ν) :=
  code[k]?.filter fun c => c.fn.name = name

def stepInst (code : List (Compiled ν)) (f : Frame ν) (task : Task ν) (op : Op) (act : Act) : Option (Task ν) :=
  match op, act with
  | .selfYield, .go | .other, .go => some (f.next :: task)
  | .other, .stop => some []
  | .call name, .invoke k => (callee code name k).map fun c => ⟨c, 0, 0⟩ :: f :: task
  | _, _ => none

def stepTerm (f : Frame ν) (task : Task ν) (term : Terminator Unit Unit) (act : Act) : Option (Task ν) :=
  match term, act with
  | .br target, .go => some (f.goto target :: task)
  | .condBr _ t e, .branch onTrue => some (f.goto (if onTrue then t else e) :: task)
  | .ret _, .go =>
    match task with
    | [] => some []
    | g :: task => some (g.next :: task)
  | _, _ => none

def step (code : List (Compiled ν)) (task : Task ν) (act : Act) : Option (Task ν) :=
  match task with
  | [] => none
  | f :: task =>
    match f.inst with
    | some i => stepInst code f task i.op act
    | none => (f.fn.graph.block f.label).term.bind fun term => stepTerm f task term act

def machine (code : List (Compiled ν)) : Machine (Task ν) Act where
  init task := ∃ c ∈ code, task = [⟨c, 0, 0⟩]
  step := step code

def inAtomic (task : Task ν) : Bool := task.any fun f => f.inst.any Inst.inside

def yields (task : Task ν) : Bool :=
  match task with
  | [] => false
  | f :: _ => f.inst.any fun i => i.op = .selfYield

/-- What is called from an atomic block makes no calls outside of atomic blocks
of its own. -/
def Quiet (code : List (Compiled ν)) (task : Task ν) (act : Act) : Prop :=
  match act with
  | .invoke k => inAtomic task = true → (code[k]?.any fun c => c.fn.callsOutside) = false
  | _ => True

end Tasks

section Safety

variable {code : List (Compiled ν)} {f g : Frame ν} {task task' : Task ν} {act : Act}

/-- Whatever an atomic block has called, however deep, makes no calls outside of
atomic blocks of its own. -/
def Calm (code : List (Compiled ν)) : Task ν → Prop
  | [] => True
  | f :: task => f.fn ∈ code ∧ (inAtomic task = true → f.fn.fn.callsOutside = false) ∧ Calm code task

theorem Calm.moved (h : Calm code (f :: task)) (hg : g.fn = f.fn) : Calm code (g :: task) := by
  rw [Calm, hg]
  exact h

theorem callee_eq_some {name : Bytes} {k : Nat} {c : Compiled ν} (h : callee code name k = some c) : code[k]? = some c :=
  (filter_eq_some_iff.mp h).1

theorem calm_stepInst {i : Inst} (h : Calm code (f :: task)) (hq : Quiet code (f :: task) act)
    (hs : stepInst code f task i.op act = some task') : Calm code task' := by
  unfold stepInst at hs
  split at hs
  · cases hs
    exact h.moved rfl
  · cases hs
    exact h.moved rfl
  · cases hs
    trivial
  · next name k _ =>
    obtain ⟨c, hc, rfl⟩ := map_eq_some_iff.mp hs
    have hk := callee_eq_some hc
    refine ⟨List.mem_of_getElem? hk, fun hin => ?_, h⟩
    have := hq hin
    rwa [hk] at this
  · cases hs

theorem calm_stepTerm {term : Terminator Unit Unit} (h : Calm code (f :: task))
    (hs : stepTerm f task term act = some task') : Calm code task' := by
  unfold stepTerm at hs
  split at hs
  · cases hs
    exact h.moved rfl
  · cases hs
    exact h.moved rfl
  · cases task with
    | nil =>
      cases hs
      trivial
    | cons g task =>
      cases hs
      exact h.2.2.moved rfl
  · cases hs

theorem calm_step (h : Calm code task) (hq : Quiet code task act) (hs : step code task act = some task') :
    Calm code task' := by
  cases task with
  | nil => cases hs
  | cons f task =>
    rw [step] at hs
    split at hs
    · exact calm_stepInst h hq hs
    · obtain ⟨term, -, hs⟩ := bind_eq_some_iff.mp hs
      exact calm_stepTerm h hs

theorem calm_run (hr : Run (machine code) (Quiet code) task) : Calm code task := by
  refine Run.invariant (I := Calm code) ?_ (fun _ _ _ h hq hs => calm_step h hq hs) hr
  rintro _ ⟨c, hc, rfl⟩
  exact ⟨hc, by simp [inAtomic], trivial⟩

/-- A task that calls from its atomic blocks only what calls nothing outside of
atomic blocks does not yield in them. -/
theorem atomic_blocks_keep {ms : List (Source ν)} (hl : link ms = some code)
    (hr : Run (machine code) (Quiet code) task) : yields task = true → inAtomic task = false := by
  intro hy
  cases task with
  | nil => rfl
  | cons f task =>
    obtain ⟨hmem, hquiet, -⟩ := calm_run hr
    obtain ⟨i, hi, hop⟩ : ∃ i, f.inst = some i ∧ i.op = .selfYield := by
      simpa [yields, any_eq_true] using hy
    have hin : i ∈ (f.fn.graph.block f.label).insts := List.mem_of_getElem? hi
    have hout : i.inside = false :=
      link_all (p := fun i => i.op = .selfYield → i.inside = false) (by simp_all) hl hmem (by simp) _ i hin hop
    have hrest : inAtomic task = false := by
      by_contra hne
      have hcalls := hquiet (by simpa using hne)
      exact link_all (p := fun i => i.op ≠ .selfYield) (fun _ h => h) hl hmem (by simp [hcalls]) _ i hin hop
    rw [inAtomic, List.any_cons, hi, any_some, hout, Bool.false_or]
    exact hrest

end Safety

section Worker

def method (name : Bytes) (body : List (Statement Unit)) : Statement Unit :=
  .functionDefinition nowhere [] name body 0 none false false

def callOwn (name : Bytes) : Statement Unit :=
  .expression nowhere (.call nowhere (.member nowhere (.symbol nowhere Access.thisName) name) [])

def noNames : Names := ⟨fun _ _ => false, fun _ _ => false, fun _ => false⟩

def worker (inner : Statement Unit → Statement Unit) : Source Unit where
  name := ascii "start"
  names := noNames
  tree := [.classDeclaration nowhere (ascii "Worker")
    [method (ascii "work") [.atomicBlock nowhere [callOwn (ascii "count")]],
      method (ascii "count") [inner (callOwn (ascii "log"))], method (ascii "log") []] [] false]

def entering : List Act := [.go, .go, .go, .go, .invoke 1, .go, .go]

instance (code : List (Compiled ν)) (task : Task ν) (act : Act) : Decidable (Quiet code task act) := by
  unfold Quiet
  split <;> infer_instance

/-- With an atomic block in the second method as well. -/
theorem atomic_blocks_keep_nested : ∃ code task, link [worker fun st => .atomicBlock nowhere [st]] = some code ∧
    Run (machine code) (Quiet code) task ∧ inAtomic task = true ∧ yields task = false := by
  have hx : (link [worker fun st => .atomicBlock nowhere [st]]).bind (fun code => code[0]?.bind fun c =>
      (exec (machine code) (Quiet code) (entering ++ [.go, .go, .invoke 2]) [⟨c, 0, 0⟩]).map inAtomic) = some true := by
    decide +kernel
  obtain ⟨code, hl, he⟩ := bind_eq_some_iff.mp hx
  obtain ⟨c, hc, he⟩ := bind_eq_some_iff.mp he
  obtain ⟨task, hs, hin⟩ := map_eq_some_iff.mp he
  have hr : Run (machine code) (Quiet code) task := exec_run (.init ⟨c, List.mem_of_getElem? hc, rfl⟩) hs
  refine ⟨code, task, hl, hr, hin, ?_⟩
  by_contra hy
  have := atomic_blocks_keep hl hr (by simpa using hy)
  rw [hin] at this
  cases this

/-- The call in the second method yields, while the first one is in its atomic
block. -/
theorem yield_in_atomic_block : ∃ code task, link [worker id] = some code ∧ Reachable (machine code) task ∧
    yields task = true ∧ inAtomic task = true := by
  have hx : (link [worker id]).bind (fun code => code[0]?.bind fun c =>
      (walk (machine code) entering [⟨c, 0, 0⟩]).map fun task => (yields task, inAtomic task)) =
        some (true, true) := by
    decide +kernel
  obtain ⟨code, hl, he⟩ := bind_eq_some_iff.mp hx
  obtain ⟨c, hc, he⟩ := bind_eq_some_iff.mp he
  obtain ⟨task, hs, he⟩ := map_eq_some_iff.mp he
  rw [Prod.mk.injEq] at he
  exact ⟨code, task, hl, exec_run (.init ⟨c, List.mem_of_getElem? hc, rfl⟩) hs, he⟩

end Worker

end Picasso.Codegen.Yields
