import Picasso.Codegen.Casts
import Picasso.Lib.Rounding

namespace Picasso.Codegen.Arithmetic

open Lib.Rounding NativeType

section Definitions

variable {ι : Type}

/-- The doubles of integer arithmetic: an integer of 53 significant bits, or
`none` for not-a-number. -/
abbrev Double := Option Int

def double (z : Int) : Double := some (round 53 z)

def fneg (a : Double) : Double := a.map Neg.neg

def floatOp (f : Int → Int → Int) : Double → Double → Double
  | some a, some b => double (f a b)
  | _, _ => none

def fadd : Double → Double → Double := floatOp (· + ·)

def fsub : Double → Double → Double := floatOp (· - ·)

def fmul : Double → Double → Double := floatOp (· * ·)

def frem (a b : Double) : Double := if b = some 0 then none else floatOp Int.tmod a b

def sitofp (v : Word .I64) : Double := double v.toInt

def fcmpOGT : Double → Double → Bool
  | some a, some b => b < a
  | _, _ => false

def fcmpOLT : Double → Double → Bool
  | some a, some b => a < b
  | _, _ => false

def floatMax : Double := some ((2 ^ 53 - 1) * 2 ^ 971)

def floatMin : Double := some (-(2 ^ 53 - 1) * 2 ^ 971)

/-- Outside the range of the type the instruction yields a poison value. -/
def fptosi (poison : Word .I64) : Double → Word .I64
  | some a => if intMin .I64 ≤ a ∧ a ≤ intMax .I64 then BitVec.ofInt _ a else poison
  | none => poison

inductive Var
  | int64 (v : Word .I64)
  | float64 (d : Double)
deriving DecidableEq

def catchLossLessIntToFloatDowncast (v : Word .I64) : Emitted Double :=
  if fcmpOGT (sitofp v) floatMax || fcmpOLT (sitofp v) floatMin then
    .error "runtime overflow converting int → float"
  else .ok (sitofp v)

/-- A bound of the integer type is rounded to a double before the comparison. -/
def catchLossLessFloatToIntDownCast (poison : Word .I64) (d : Double) : Emitted (Word .I64) :=
  if fcmpOGT d (double (intMax .I64)) || fcmpOLT d (double (intMin .I64)) || d = none then
    .error "runtime overflow in float → int downcast\n"
  else .ok (fptosi poison d)

def implicitFloatCast : Var → Emitted Double
  | .int64 v => catchLossLessIntToFloatDowncast v
  | .float64 d => .ok d

inductive Operands
  | signedInt (l r : Word .I64)
  | float (l r : Double)

/-- One double among the operands makes doubles of both. -/
def normalizeOperands : Var → Var → Emitted Operands
  | .int64 l, .int64 r => do return .signedInt (← implicitIntCast l .I64) (← implicitIntCast r .I64)
  | lv, rv => do return .float (← implicitFloatCast lv) (← implicitFloatCast rv)

def arithmetic (intOp : Word .I64 → Word .I64 → Word .I64) (doubleOp : Double → Double → Double) (lv rv : Var) :
    Emitted Var := do
  match ← normalizeOperands lv rv with
  | .signedInt l r => return .int64 (intOp l r)
  | .float l r => return .float64 (doubleOp l r)

def add : Var → Var → Emitted Var := arithmetic (· + ·) fadd

def sub : Var → Var → Emitted Var := arithmetic (· - ·) fsub

def mul : Var → Var → Emitted Var := arithmetic (· * ·) fmul

def mod (lv rv : Var) : Emitted Var := do
  match ← normalizeOperands lv rv with
  | .signedInt l r =>
    return .float64 (frem (← catchLossLessIntToFloatDowncast l) (← catchLossLessIntToFloatDowncast r))
  | .float l r => return .float64 (frem l r)

def neg (v : Var) : Emitted Var := do return .float64 (fneg (← implicitFloatCast v))

inductive Operator
  | plus | dash | star | percent
deriving DecidableEq

inductive Expression (ι : Type)
  | symbol (x : ι)
  | number (n : Nat)
  | minus (e : Expression ι)
  | binary (op : Operator) (l r : Expression ι)

def arithmatic : Operator → Var → Var → Emitted Var
  | .plus => add
  | .dash => sub
  | .star => mul
  | .percent => mod

/-- A literal is a double from the start. -/
def processExpression (env : ι → Word .I64) : Expression ι → Emitted Var
  | .symbol x => .ok (.int64 (env x))
  | .number n => .ok (.float64 (double n))
  | .minus e => do neg (← processExpression env e)
  | .binary op l r => do
    let lv ← processExpression env l
    let rv ← processExpression env r
    arithmatic op lv rv

def castToInt (poison : Word .I64) : Var → Emitted (Word .I64)
  | .int64 v => implicitIntCast v .I64
  | .float64 d => catchLossLessFloatToIntDownCast poison d

def assignInt (poison : Word .I64) (env : ι → Word .I64) (e : Expression ι) : Emitted (Word .I64) := do
  castToInt poison (← processExpression env e)

end Definitions

section Exactness

variable {ι : Type} {env : ι → Word .I64} {a b z : Int} {left right : Bool} {e : Expression ι}

def Operator.exact : Operator → Int → Int → Int
  | .plus => (· + ·)
  | .dash => (· - ·)
  | .star => (· * ·)
  | .percent => Int.tmod

def Expression.exact (env : ι → Word .I64) : Expression ι → Int
  | .symbol x => (env x).toInt
  | .number n => n
  | .minus e => -e.exact env
  | .binary op l r => op.exact (l.exact env) (r.exact env)

/-- Every intermediate result is an `int`, and no divisor is zero. -/
def Fits (env : ι → Word .I64) : Expression ι → Prop
  | .symbol _ => True
  | .number n => int64.InRange n
  | .minus e => Fits env e ∧ int64.InRange (-e.exact env)
  | .binary op l r =>
    Fits env l ∧ Fits env r ∧ (op = .percent → r.exact env ≠ 0) ∧
      int64.InRange (op.exact (l.exact env) (r.exact env))

instance decidableFits (env : ι → Word .I64) : (e : Expression ι) → Decidable (Fits env e)
  | .symbol _ => .isTrue trivial
  | .number _ => inferInstanceAs (Decidable (NativeType.InRange _ _))
  | .minus e => @instDecidableAnd _ _ (decidableFits env e) _
  | .binary _ l r => @instDecidableAnd _ _ (decidableFits env l) (@instDecidableAnd _ _ (decidableFits env r) _)

def Expression.isFloat : Expression ι → Bool
  | .symbol _ => false
  | .number _ => true
  | .minus _ => true
  | .binary op l r => op = .percent || l.isFloat || r.isFloat

/-- Whatever is carried as a double has at most 53 significant bits: the
literals, the operands of a double operation and its result. A remainder of two
doubles is one by itself. -/
def Carried (env : ι → Word .I64) : Expression ι → Prop
  | .symbol _ => True
  | .number n => Representable 53 n
  | .minus e => Carried env e ∧ Representable 53 (e.exact env)
  | .binary op l r =>
    Carried env l ∧ Carried env r ∧
      ((Expression.binary op l r).isFloat = true →
        Representable 53 (l.exact env) ∧ Representable 53 (r.exact env) ∧
          (op ≠ .percent → Representable 53 (op.exact (l.exact env) (r.exact env))))

def carry (float : Bool) (z : Int) : Var := if float then .float64 (some z) else .int64 (BitVec.ofInt _ z)

theorem double_of_representable (h : Representable 53 z) : double z = some z := by
  rw [double, round_of_representable h]

theorem floatOp_of_representable {f : Int → Int → Int} (h : Representable 53 (f a b)) :
    floatOp f (some a) (some b) = some (f a b) := double_of_representable h

theorem toInt_of_inRange (h : int64.InRange z) : (BitVec.ofInt IntType.I64.bitSize z).toInt = z := by
  obtain ⟨hl, hu⟩ : intMin .I64 ≤ z ∧ z ≤ intMax .I64 := h
  rw [BitVec.toInt_ofInt_eq_self (by decide)]
  · exact hl
  · simp only [intMax, IntType.bitSize] at hu ⊢
    omega

theorem catchLossLessIntToFloatDowncast_eq (h : int64.InRange z) (hp : Representable 53 z) :
    catchLossLessIntToFloatDowncast (BitVec.ofInt _ z) = .ok (some z) := by
  have hs : sitofp (BitVec.ofInt _ z) = some z := by
    rw [sitofp, toInt_of_inRange h, double_of_representable hp]
  obtain ⟨hl, hu⟩ : intMin .I64 ≤ z ∧ z ≤ intMax .I64 := h
  simp only [intMin, intMax] at hl hu
  rw [catchLossLessIntToFloatDowncast, hs, if_neg]
  simp only [fcmpOGT, fcmpOLT, floatMax, floatMin, Bool.or_eq_true, decide_eq_true_eq]
  omega

theorem implicitFloatCast_carry (h : int64.InRange z) (hp : Representable 53 z) :
    implicitFloatCast (carry left z) = .ok (some z) := by
  cases left with
  | false => exact catchLossLessIntToFloatDowncast_eq h hp
  | true => rfl

theorem implicitIntCast_self (v : Word .I64) : implicitIntCast v .I64 = .ok v := by
  rw [implicitIntCast, if_neg (lt_irrefl _), BitVec.signExtend_eq]

theorem normalizeOperands_int :
    normalizeOperands (carry false a) (carry false b) = .ok (.signedInt (BitVec.ofInt _ a) (BitVec.ofInt _ b)) := by
  simp only [carry, normalizeOperands, implicitIntCast_self, Bool.false_eq_true, if_false]
  rfl

theorem normalizeOperands_float (h : (left || right) = true) (ha : int64.InRange a)
    (hb : int64.InRange b) (hpa : Representable 53 a) (hpb : Representable 53 b) :
    normalizeOperands (carry left a) (carry right b) = .ok (.float (some a) (some b)) := by
  have hl : implicitFloatCast (carry left a) = _ := implicitFloatCast_carry ha hpa
  have hr : implicitFloatCast (carry right b) = _ := implicitFloatCast_carry hb hpb
  have hn : normalizeOperands (carry left a) (carry right b) =
      (do return .float (← implicitFloatCast (carry left a)) (← implicitFloatCast (carry right b))) := by
    cases left <;> cases right <;> first | contradiction | rfl
  rw [hn, hl, hr]
  rfl

theorem arithmetic_carry {intOp : Word .I64 → Word .I64 → Word .I64} {f : Int → Int → Int}
    (hi : intOp (BitVec.ofInt _ a) (BitVec.ofInt _ b) = BitVec.ofInt _ (f a b))
    (ha : int64.InRange a) (hb : int64.InRange b)
    (h : (left || right) = true → Representable 53 a ∧ Representable 53 b ∧ Representable 53 (f a b)) :
    arithmetic intOp (floatOp f) (carry left a) (carry right b) = .ok (carry (left || right) (f a b)) := by
  cases hf : left || right with
  | false =>
    obtain ⟨rfl, rfl⟩ := Bool.or_eq_false_iff.mp hf
    rw [arithmetic, normalizeOperands_int]
    exact congrArg (fun v => Except.ok (Var.int64 v)) hi
  | true =>
    obtain ⟨hpa, hpb, hp⟩ := h hf
    rw [arithmetic, normalizeOperands_float hf ha hb hpa hpb]
    exact congrArg (fun d => Except.ok (Var.float64 d)) (floatOp_of_representable hp)

theorem frem_of_representable (hne : b ≠ 0) (ha : Representable 53 a) (hb : Representable 53 b) :
    frem (some a) (some b) = some (a.tmod b) := by
  rw [frem, if_neg (by simpa using hne), floatOp_of_representable (ha.tmod hb hne)]

theorem mod_carry (hne : b ≠ 0) (ha : int64.InRange a) (hb : int64.InRange b)
    (hpa : Representable 53 a) (hpb : Representable 53 b) :
    mod (carry left a) (carry right b) = .ok (carry true (a.tmod b)) := by
  cases hf : left || right with
  | false =>
    obtain ⟨rfl, rfl⟩ := Bool.or_eq_false_iff.mp hf
    rw [mod, normalizeOperands_int]
    show (do
      return Var.float64 (frem (← catchLossLessIntToFloatDowncast _) (← catchLossLessIntToFloatDowncast _))) = _
    rw [catchLossLessIntToFloatDowncast_eq ha hpa, catchLossLessIntToFloatDowncast_eq hb hpb]
    exact congrArg (fun d => Except.ok (Var.float64 d)) (frem_of_representable hne hpa hpb)
  | true =>
    rw [mod, normalizeOperands_float hf ha hb hpa hpb]
    exact congrArg (fun d => Except.ok (Var.float64 d)) (frem_of_representable hne hpa hpb)

theorem exact_inRange (h : Fits env e) : int64.InRange (e.exact env) := by
  cases e with
  | symbol x => exact inRange_value (b := .int64) (env x)
  | number n => exact h
  | minus e => exact h.2
  | binary op l r => exact h.2.2.2

theorem ofInt_sub (a b : Int) : (BitVec.ofInt 64 (a - b)) = BitVec.ofInt 64 a - BitVec.ofInt 64 b := by
  rw [Int.sub_eq_add_neg, BitVec.ofInt_add, BitVec.ofInt_neg, BitVec.sub_eq_add_neg]

theorem arithmatic_carry {op : Operator} (hne : op = .percent → b ≠ 0) (ha : int64.InRange a)
    (hb : int64.InRange b) (h : (op = .percent || left || right) = true →
      Representable 53 a ∧ Representable 53 b ∧ (op ≠ .percent → Representable 53 (op.exact a b))) :
    arithmatic op (carry left a) (carry right b) = .ok (carry (op = .percent || left || right) (op.exact a b)) := by
  have hrep (hop : op ≠ .percent) (hf : (left || right) = true) :
      Representable 53 a ∧ Representable 53 b ∧ Representable 53 (op.exact a b) := by
    obtain ⟨hpa, hpb, hp⟩ := h (by simp [hop, hf])
    exact ⟨hpa, hpb, hp hop⟩
  cases op with
  | plus => exact arithmetic_carry (BitVec.ofInt_add a b).symm ha hb (hrep (by decide))
  | dash => exact arithmetic_carry (ofInt_sub a b).symm ha hb (hrep (by decide))
  | star => exact arithmetic_carry (BitVec.ofInt_mul a b).symm ha hb (hrep (by decide))
  | percent =>
    obtain ⟨hpa, hpb, -⟩ := h rfl
    exact mod_carry (hne rfl) ha hb hpa hpb

theorem processExpression_carry (hf : Fits env e) (hc : Carried env e) :
    processExpression env e = .ok (carry e.isFloat (e.exact env)) := by
  induction e with
  | symbol x =>
    rw [processExpression, Expression.isFloat, Expression.exact, carry, if_neg (by simp), BitVec.ofInt_toInt]
  | number n =>
    rw [processExpression, double_of_representable hc]
    rfl
  | minus e ih =>
    rw [processExpression, ih hf.1 hc.1]
    show neg _ = _
    rw [neg, implicitFloatCast_carry (exact_inRange hf.1) hc.2]
    rfl
  | binary op l r ihl ihr =>
    obtain ⟨hl, hr, hne, -⟩ := hf
    obtain ⟨hcl, hcr, hrep⟩ := hc
    rw [processExpression, ihl hl hcl, ihr hr hcr]
    exact arithmatic_carry hne (exact_inRange hl) (exact_inRange hr) hrep

theorem castToInt_carry (poison : Word .I64) (h : int64.InRange z) :
    castToInt poison (carry left z) = .ok (BitVec.ofInt _ z) := by
  cases left with
  | false => exact implicitIntCast_self _
  | true =>
    have hmax : double (intMax .I64) = some (2 ^ 63) := by decide +kernel
    have hmin : double (intMin .I64) = some (-2 ^ 63) := by decide +kernel
    have hz : intMin .I64 ≤ z ∧ z ≤ intMax .I64 := h
    show catchLossLessFloatToIntDownCast poison (some z) = _
    rw [catchLossLessFloatToIntDownCast, hmax, hmin, fptosi, if_pos hz, if_neg]
    simp only [fcmpOGT, fcmpOLT, intMin, intMax, Bool.or_eq_true, decide_eq_true_eq, reduceCtorEq, or_false] at hz ⊢
    omega

/-- An `int` variable gets the exact value of the expression. -/
theorem assignInt_exact (poison : Word .I64) {e : Expression ι} (hf : Fits env e) (hc : Carried env e) :
    ∃ w, assignInt poison env e = .ok w ∧ w.toInt = e.exact env := by
  refine ⟨BitVec.ofInt _ (e.exact env), ?_, toInt_of_inRange (exact_inRange hf)⟩
  rw [assignInt, processExpression_carry hf hc]
  exact castToInt_carry poison (exact_inRange hf)

theorem assignInt_exact_remainder : ∃ w, assignInt 0 (fun _ : Unit => 1000003)
        (.binary .percent (.minus (.binary .star (.symbol ()) (.symbol ()))) (.number 12)) = .ok w ∧ w.toInt = -1 := by
  refine assignInt_exact (ι := Unit) 0
    (e := .binary .percent (.minus (.binary .star (.symbol ()) (.symbol ()))) (.number 12)) ?_ ?_
  · decide
  · refine ⟨⟨⟨trivial, trivial, by simp [Expression.isFloat]⟩, 1000006000009, 0, by decide, by decide⟩,
      ⟨12, 0, by decide, by decide⟩, fun _ => ⟨⟨1000006000009, 0, by decide, by decide⟩, ?_, ?_⟩⟩
    · exact ⟨12, 0, by decide, by decide⟩
    · intro h
      contradiction

/-- Adding one to the `int` after `2 ^ 53` takes one away, since the literal
makes a double of the variable. -/
theorem assignInt_rounds :
    let env : Unit → Word .I64 := fun _ => 9007199254740993
    let e : Expression Unit := .binary .plus (.symbol ()) (.number 1)
    Fits env e ∧ e.exact env = 9007199254740994 ∧ assignInt 0 env e = .ok 9007199254740992 := by
  decide +kernel

end Exactness

end Picasso.Codegen.Arithmetic
