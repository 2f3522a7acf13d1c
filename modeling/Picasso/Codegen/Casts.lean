import Mathlib.Algebra.Order.Ring.Int
import Mathlib.Tactic.Zify

namespace Picasso.Codegen

section Definitions

inductive IntType
  | I1 | I8 | I16 | I32 | I64
deriving DecidableEq

def IntType.bitSize : IntType → Nat
  | .I1 => 1
  | .I8 => 8
  | .I16 => 16
  | .I32 => 32
  | .I64 => 64

abbrev Word (t : IntType) := BitVec t.bitSize

def intMax : IntType → Int
  | .I1 => 1
  | .I8 => 127
  | .I16 => 32767
  | .I32 => 2147483647
  | .I64 => 9223372036854775807

def intMin : IntType → Int
  | .I1 => 0
  | .I8 => -128
  | .I16 => -32768
  | .I32 => -2147483648
  | .I64 => -9223372036854775808

def uintMax : IntType → Nat
  | .I1 => 1
  | .I8 => 255
  | .I16 => 65535
  | .I32 => 4294967295
  | .I64 => 18446744073709551615

/-- The integer types of the language; `int` and `uint` are the widest ones. -/
inductive NativeType
  | boolean
  | int8 | int16 | int32 | int64
  | uint8 | uint16 | uint32 | uint64
deriving DecidableEq

def NativeType.llvmType : NativeType → IntType
  | .boolean => .I1
  | .int8 | .uint8 => .I8
  | .int16 | .uint16 => .I16
  | .int32 | .uint32 => .I32
  | .int64 | .uint64 => .I64

def NativeType.isSigned : NativeType → Bool
  | .int8 | .int16 | .int32 | .int64 => true
  | _ => false

def NativeType.isUnsigned : NativeType → Bool
  | .uint8 | .uint16 | .uint32 | .uint64 => true
  | _ => false

variable {src : IntType}

abbrev Emitted (α : Type) := Except String α

def nonZero (v : Word src) : Word .I1 := BitVec.ofBool (v ≠ 0)

/-- The check and the `trunc` of both kinds of downcast, with the bounds as
constants of the source type. -/
def checkedTrunc (message : String) (minVal maxVal v : Word src) (dst : IntType) : Emitted (Word dst) :=
  let overflowMax := maxVal.slt v
  let overflowMin := v.slt minVal
  if overflowMax || overflowMin then .error message else .ok (v.setWidth dst.bitSize)

def catchLossLessIntToIntDownCast (v : Word src) : (dst : IntType) → Emitted (Word dst)
  | .I1 => .ok (nonZero v)
  | dst =>
    checkedTrunc "runtime overflow in int downcast\n" (BitVec.ofInt _ (intMin dst)) (BitVec.ofInt _ (intMax dst))
      v dst

def catchLossLessIntToUnsignedDownCast (v : Word src) : (dst : IntType) → Emitted (Word dst)
  | .I1 => .ok (nonZero v)
  | dst => checkedTrunc "runtime overflow in unsigned int downcast\n" 0 (BitVec.ofNat _ (uintMax dst)) v dst

/-- A value is widened by `sext`, also a boolean; of the same width it stays. -/
def implicitIntCast (v : Word src) (dst : IntType) : Emitted (Word dst) :=
  if dst.bitSize < src.bitSize then catchLossLessIntToIntDownCast v dst else .ok (v.signExtend dst.bitSize)

def implicitUnsignedIntCast (v : Word src) (dst : IntType) : Emitted (Word dst) :=
  if dst.bitSize < src.bitSize then catchLossLessIntToUnsignedDownCast v dst else .ok (v.setWidth dst.bitSize)

/-- Which cast is emitted depends on the target type alone. -/
def implicitTypeCast (v : Word src) (target : NativeType) : Emitted (Word target.llvmType) :=
  if target.isUnsigned then implicitUnsignedIntCast v target.llvmType else implicitIntCast v target.llvmType

end Definitions

section Bounds

variable {src dst : IntType}

theorem IntType.bitSize_pos (t : IntType) : 0 < t.bitSize := by cases t <;> decide

theorem intMax_eq (h : dst ≠ .I1) : intMax dst = 2 ^ (dst.bitSize - 1) - 1 := by
  cases dst <;> first | contradiction | decide

theorem intMin_eq (h : dst ≠ .I1) : intMin dst = -2 ^ (dst.bitSize - 1) := by
  cases dst <;> first | contradiction | decide

theorem uintMax_eq (t : IntType) : (uintMax t : Int) = 2 ^ t.bitSize - 1 := by cases t <;> decide

theorem toInt_bound {n : Int} (h : dst.bitSize < src.bitSize) (hl : intMin dst ≤ n) (hu : n ≤ uintMax dst) :
    (BitVec.ofInt src.bitSize n).toInt = n := by
  revert h hl hu
  cases src <;> cases dst <;> simp only [IntType.bitSize, intMin, uintMax] <;> intro h hl hu <;>
    first
    | omega
    | (apply BitVec.toInt_ofInt_eq_self <;> omega)

theorem checkedTrunc_eq {lo hi : Int} {message : String} {v : Word src}
    (hlo : (BitVec.ofInt src.bitSize lo).toInt = lo) (hhi : (BitVec.ofInt src.bitSize hi).toInt = hi) :
    checkedTrunc message (BitVec.ofInt _ lo) (BitVec.ofInt _ hi) v dst =
      if lo ≤ v.toInt ∧ v.toInt ≤ hi then .ok (v.setWidth dst.bitSize) else .error message := by
  rw [checkedTrunc, BitVec.slt_eq_decide, BitVec.slt_eq_decide, hlo, hhi]
  by_cases hl : lo ≤ v.toInt <;> by_cases hu : v.toInt ≤ hi <;> simp [hl, hu, Int.not_le.mp]

end Bounds

section Casts

variable {src dst : IntType} {v : Word src}

theorem implicitIntCast_narrow (h : dst.bitSize < src.bitSize) (hd : dst ≠ .I1) :
    implicitIntCast v dst =
      if intMin dst ≤ v.toInt ∧ v.toInt ≤ intMax dst then .ok (v.setWidth dst.bitSize)
      else .error "runtime overflow in int downcast\n" := by
  have hle : intMax dst ≤ uintMax dst := by cases dst <;> decide
  have hmm : intMin dst ≤ intMax dst := by cases dst <;> decide
  rw [implicitIntCast, if_pos h, ← checkedTrunc_eq (toInt_bound h le_rfl (hmm.trans hle)) (toInt_bound h hmm hle)]
  cases dst with
  | I1 => contradiction
  | I8 | I16 | I32 | I64 => rfl

theorem implicitUnsignedIntCast_narrow (h : dst.bitSize < src.bitSize) (hd : dst ≠ .I1) :
    implicitUnsignedIntCast v dst =
      if 0 ≤ v.toInt ∧ v.toInt ≤ uintMax dst then .ok (v.setWidth dst.bitSize)
      else .error "runtime overflow in unsigned int downcast\n" := by
  have hl : intMin dst ≤ 0 := by cases dst <;> decide
  have hz : (0 : Int) ≤ uintMax dst := Int.natCast_nonneg _
  rw [implicitUnsignedIntCast, if_pos h, ← checkedTrunc_eq (toInt_bound h hl hz) (toInt_bound h (hl.trans hz) le_rfl)]
  cases dst with
  | I1 => contradiction
  | I8 | I16 | I32 | I64 => rfl

theorem toInt_trunc (h : dst.bitSize < src.bitSize) (hd : dst ≠ .I1) (hl : intMin dst ≤ v.toInt)
    (hu : v.toInt ≤ intMax dst) : (v.setWidth dst.bitSize).toInt = v.toInt := by
  rw [intMin_eq hd] at hl
  rw [intMax_eq hd] at hu
  have hdvd : ((2 ^ dst.bitSize : Nat) : Int) ∣ (2 ^ src.bitSize : Nat) :=
    Int.natCast_dvd_natCast.mpr (Nat.pow_dvd_pow 2 h.le)
  have hmod : Int.bmod v.toInt (2 ^ dst.bitSize) = Int.bmod v.toNat (2 ^ dst.bitSize) := by
    rw [BitVec.toInt_eq_toNat_bmod, Int.bmod_bmod_of_dvd (Int.natCast_dvd_natCast.mp hdvd)]
  have hpow : (2 : Int) ^ dst.bitSize = 2 * 2 ^ (dst.bitSize - 1) := by
    rw [← pow_succ', Nat.sub_add_cancel dst.bitSize_pos]
  rw [BitVec.toInt_setWidth, ← hmod]
  apply Int.bmod_eq_of_le
  · push_cast
    omega
  · push_cast
    omega

theorem toNat_trunc (hl : 0 ≤ v.toInt) (hu : v.toInt ≤ uintMax dst) :
    ((v.setWidth dst.bitSize).toNat : Int) = v.toInt := by
  rw [uintMax_eq] at hu
  have hv : v.toInt = v.toNat := by
    have := v.isLt
    rw [BitVec.toInt_eq_toNat_cond] at hl ⊢
    split at hl <;> omega
  rw [hv] at hu ⊢
  rw [BitVec.toNat_setWidth, Nat.mod_eq_of_lt (Int.ofNat_lt.mp (by push_cast; omega))]

end Casts

section Lossless

open NativeType

variable {a b : NativeType}

def NativeType.value (a : NativeType) (v : Word a.llvmType) : Int := if a.isSigned then v.toInt else v.toNat

def NativeType.InRange (a : NativeType) (n : Int) : Prop :=
  if a.isSigned then intMin a.llvmType ≤ n ∧ n ≤ intMax a.llvmType else 0 ≤ n ∧ n ≤ uintMax a.llvmType

instance (a : NativeType) (n : Int) : Decidable (a.InRange n) := by
  unfold NativeType.InRange
  infer_instance

/-- The casts that narrow an integer, widen it within its signedness, or make
an integer of a boolean. -/
def Implicit (a b : NativeType) : Prop :=
  b ≠ .boolean ∧
    (a = .boolean ∨ b.llvmType.bitSize < a.llvmType.bitSize ∨
      a.llvmType.bitSize < b.llvmType.bitSize ∧ a.isSigned = b.isSigned)

/-- A value that comes out is the integer `n`, and the error is raised exactly
when the type does not have it. -/
def Faithful (b : NativeType) (n : Int) (r : Emitted (Word b.llvmType)) : Prop :=
  (∀ w, r = .ok w → b.value w = n) ∧ ((∃ message, r = .error message) ↔ ¬ b.InRange n)

/-- The values that the emitted code reads as another integer: a boolean that
is widened by its sign, and an unsigned integer so large that it is compared as
a negative one within the bounds. -/
def Misread (a b : NativeType) (v : Word a.llvmType) : Prop :=
  b.isSigned = true ∧
    (a = .boolean ∧ v ≠ 0 ∨
      a.isUnsigned = true ∧ b.llvmType.bitSize < a.llvmType.bitSize ∧
        2 ^ a.llvmType.bitSize ≤ v.toNat + 2 ^ (b.llvmType.bitSize - 1))

theorem NativeType.llvmType_ne (h : b ≠ .boolean) : b.llvmType ≠ .I1 := by
  cases b <;> first | contradiction | decide

theorem NativeType.isSigned_or (h : b ≠ .boolean) :
    b.isSigned = true ∧ b.isUnsigned = false ∨ b.isSigned = false ∧ b.isUnsigned = true := by
  cases b <;> first | contradiction | decide

theorem NativeType.isSigned_of_ne (h : b.isSigned = true) : b ≠ .boolean := by
  rintro rfl
  contradiction

theorem NativeType.inRange_value (w : Word b.llvmType) : b.InRange (b.value w) := by
  unfold InRange value
  split
  · rename_i hs
    have hne := llvmType_ne (isSigned_of_ne hs)
    rw [intMin_eq hne, intMax_eq hne]
    have hl := BitVec.le_toInt w
    have hu := BitVec.toInt_lt (x := w)
    exact ⟨hl, by omega⟩
  · have hw : (w.toNat : Int) < ((2 ^ b.llvmType.bitSize : Nat) : Int) := Int.ofNat_lt.mpr w.isLt
    push_cast at hw
    rw [uintMax_eq]
    omega

theorem faithful_ok {n : Int} {w : Word b.llvmType} : Faithful b n (.ok w) ↔ b.value w = n := by
  constructor
  · intro h
    exact h.1 w rfl
  · rintro rfl
    refine ⟨?_, ?_⟩
    · intro w' h
      cases h
      rfl
    · simp [b.inRange_value w]

/-- A narrowing cast reads its source as a signed integer, whichever type the
source has, and is right about that integer. -/
theorem implicitTypeCast_narrow (hb : b ≠ .boolean) (h : b.llvmType.bitSize < a.llvmType.bitSize)
    (v : Word a.llvmType) :
    ∃ message, implicitTypeCast v b =
        (if b.InRange v.toInt then .ok (v.setWidth b.llvmType.bitSize) else .error message) ∧
      (b.InRange v.toInt → b.value (v.setWidth b.llvmType.bitSize) = v.toInt) := by
  have hne := llvmType_ne hb
  obtain ⟨hs, hu⟩ | ⟨hs, hu⟩ := isSigned_or hb
  · refine ⟨"runtime overflow in int downcast\n", ?_, ?_⟩
    · rw [implicitTypeCast, hu, if_neg (by simp), implicitIntCast_narrow h hne]
      simp only [InRange, hs, if_true]
    · simp only [InRange, value, hs, if_true]
      rintro ⟨hl, hr⟩
      exact toInt_trunc h hne hl hr
  · refine ⟨"runtime overflow in unsigned int downcast\n", ?_, ?_⟩
    · rw [implicitTypeCast, hu, if_pos rfl, implicitUnsignedIntCast_narrow h hne]
      simp only [InRange, hs, Bool.false_eq_true, if_false]
    · simp only [InRange, value, hs, Bool.false_eq_true, if_false]
      rintro ⟨hl, hr⟩
      exact toNat_trunc hl hr

theorem faithful_narrow {n : Int} (hb : b ≠ .boolean) (h : b.llvmType.bitSize < a.llvmType.bitSize)
    (v : Word a.llvmType) : Faithful b n (implicitTypeCast v b) ↔
      (b.InRange v.toInt → v.toInt = n) ∧ (b.InRange n → b.InRange v.toInt) := by
  obtain ⟨message, he, hv⟩ := implicitTypeCast_narrow hb h v
  rw [he]
  by_cases hr : b.InRange v.toInt
  · rw [if_pos hr, faithful_ok, hv hr]
    simp [hr]
  · rw [if_neg hr]
    simp [Faithful, hr]

/-- An unsigned source in the upper half is negative for the check, so that it
is misread exactly if that negative integer is within the bounds. -/
theorem faithful_unsigned (hb : b ≠ .boolean) (h : b.llvmType.bitSize < a.llvmType.bitSize) (v : Word a.llvmType) :
    Faithful b v.toNat (implicitTypeCast v b) ↔
      ¬ (b.isSigned = true ∧ 2 ^ a.llvmType.bitSize ≤ v.toNat + 2 ^ (b.llvmType.bitSize - 1)) := by
  have hv := v.isLt
  have hne := llvmType_ne hb
  have hhalf : 2 * 2 ^ b.llvmType.bitSize ≤ 2 ^ a.llvmType.bitSize := by
    rw [← pow_succ']
    exact Nat.pow_le_pow_right (by decide) h
  have hpow : 2 * 2 ^ (b.llvmType.bitSize - 1) = 2 ^ b.llvmType.bitSize := by
    rw [← pow_succ', Nat.sub_add_cancel b.llvmType.bitSize_pos]
  rw [faithful_narrow hb h, BitVec.toInt_eq_toNat_cond]
  split
  · rename_i hlow
    refine iff_of_true ⟨fun _ => rfl, id⟩ ?_
    rintro ⟨-, hge⟩
    omega
  · rename_i hlow
    obtain ⟨hs, -⟩ | ⟨hs, -⟩ := isSigned_or hb
    · simp only [InRange, hs, if_true, intMin_eq hne, intMax_eq hne, true_and]
      zify at *
      omega
    · simp only [InRange, hs, Bool.false_eq_true, if_false, uintMax_eq, false_and, not_false_iff, iff_true]
      zify at *
      omega

theorem faithful_widen (hb : b ≠ .boolean) (h : a.llvmType.bitSize < b.llvmType.bitSize)
    (hs : a.isSigned = b.isSigned) (v : Word a.llvmType) : Faithful b (a.value v) (implicitTypeCast v b) := by
  obtain ⟨hb', hu⟩ | ⟨hb', hu⟩ := isSigned_or hb
  · rw [implicitTypeCast, hu, if_neg (by simp), implicitIntCast, if_neg h.not_gt, faithful_ok]
    simp only [value, hs, hb', if_true]
    exact BitVec.toInt_signExtend_of_le h.le
  · rw [implicitTypeCast, hu, if_pos rfl, implicitUnsignedIntCast, if_neg h.not_gt, faithful_ok]
    simp only [value, hs, hb', Bool.false_eq_true, if_false]
    rw [BitVec.toNat_setWidth_of_le h.le]

theorem faithful_boolean (hb : b.isSigned = true) (v : Word .I1) :
    Faithful b v.toNat (implicitTypeCast v b) ↔ v = 0 := by
  obtain ⟨-, hu⟩ | ⟨hs, -⟩ := isSigned_or (isSigned_of_ne hb)
  · have hle : ¬ b.llvmType.bitSize < IntType.bitSize .I1 := Nat.not_lt.mpr b.llvmType.bitSize_pos
    rw [implicitTypeCast, hu, if_neg (by simp), implicitIntCast, if_neg hle, faithful_ok]
    simp only [value, hb, if_true]
    have hext : (v.signExtend b.llvmType.bitSize).toInt = v.toInt :=
      BitVec.toInt_signExtend_of_le b.llvmType.bitSize_pos
    rw [hext]
    exact (by decide : ∀ u : Word .I1, u.toInt = u.toNat ↔ u = 0) v
  · rw [hb] at hs
    contradiction

/-- The implicit casts are lossless for all values but the misread ones. -/
theorem implicitTypeCast_faithful (h : Implicit a b) (v : Word a.llvmType) :
    Faithful b (a.value v) (implicitTypeCast v b) ↔ ¬ Misread a b v := by
  obtain ⟨hb, rfl | hn | ⟨hw, hs⟩⟩ := h
  · cases hs : b.isSigned with
    | true =>
      have hm : Misread .boolean b v ↔ v ≠ 0 := by simp [Misread, hs, isUnsigned]
      rw [hm, not_not]
      exact faithful_boolean hs v
    | false =>
      have hm : ¬ Misread .boolean b v := by simp [Misread, hs]
      have hlt : (NativeType.llvmType .boolean).bitSize < b.llvmType.bitSize := by
        cases b <;> first | contradiction | decide
      exact iff_of_true (faithful_widen hb hlt hs.symm v) hm
  · have ha : a ≠ .boolean := by
      rintro rfl
      exact absurd hn (Nat.not_lt.mpr b.llvmType.bitSize_pos)
    obtain ⟨hs, hu⟩ | ⟨hs, hu⟩ := isSigned_or ha
    · have hm : ¬ Misread a b v := by simp [Misread, ha, hu]
      have hf : Faithful b (a.value v) (implicitTypeCast v b) := by
        rw [value, if_pos hs, faithful_narrow hb hn]
        exact ⟨fun _ => rfl, id⟩
      exact iff_of_true hf hm
    · have hm : Misread a b v ↔
          b.isSigned = true ∧ 2 ^ a.llvmType.bitSize ≤ v.toNat + 2 ^ (b.llvmType.bitSize - 1) := by
        simp [Misread, ha, hu, hn]
      rw [hm, value, hs, if_neg (by simp)]
      exact faithful_unsigned hb hn v
  · have hm : ¬ Misread a b v := by
      rintro ⟨hbs, ⟨rfl, -⟩ | ⟨-, hn, -⟩⟩
      · rw [hbs] at hs
        contradiction
      · omega
    exact iff_of_true (faithful_widen hb hw hs v) hm

theorem implicitTypeCast_faithful_uint8 :
    Faithful .uint8 200 (implicitTypeCast (200 : Word NativeType.int64.llvmType) .uint8) := by
  apply (implicitTypeCast_faithful ⟨by decide, .inr (.inl (by decide))⟩ 200).mpr
  rintro ⟨hs, -⟩
  contradiction

/-- The boolean true becomes the `int8` minus one, and so does the largest
`uint64`, without an error. -/
theorem true_becomes_minus_one : implicitTypeCast (1 : Word NativeType.boolean.llvmType) .int8 = .ok (-1) ∧
    ¬ Faithful .int8 (NativeType.value .boolean 1) (implicitTypeCast (1 : Word NativeType.boolean.llvmType) .int8) ∧
    ¬ Faithful .int8 (value .uint64 (-1))
      (implicitTypeCast (-1 : Word NativeType.uint64.llvmType) .int8) := by
  refine ⟨by decide, ?_, ?_⟩
  · intro h
    exact absurd (h.1 (-1) (by decide)) (by decide)
  · intro h
    exact absurd (h.1 (-1) (by decide)) (by decide)

end Lossless

end Picasso.Codegen
