import Picasso.Lexing.Token
import Mathlib.Algebra.GroupWithZero.Nat

namespace Picasso.Strings

open Lexing List Option

variable {δ : Type}

section Numbers

/-- The digits from the last one on; twenty are enough for 64 bits. -/
def decDigits : Nat → Nat → Bytes
  | 0, _ => []
  | n + 1, v => (48 + v % 10).toUInt8 :: if v / 10 = 0 then [] else decDigits n (v / 10)

/-- `tmp` after `j` rounds of the loop that exchanges its ends. -/
def swapped (tmp : Bytes) : Nat → Bytes
  | 0 => tmp
  | j + 1 =>
    let t := swapped tmp j
    (t.set j (t.getD (tmp.length - 1 - j) 0)).set (tmp.length - 1 - j) (t.getD j 0)

/-- The bytes that are written; the result is their number. -/
def u64ToDec (v : BitVec 64) : Bytes :=
  let tmp := decDigits 20 v.toNat
  swapped tmp (tmp.length / 2)

theorem length_swapped (tmp : Bytes) (j : Nat) : (swapped tmp j).length = tmp.length := by
  induction j with
  | zero => rfl
  | succ j ih => simp [swapped, ih]

theorem getD_swapped_succ {tmp : Bytes} {j k : Nat} (hk : k < tmp.length) :
    (swapped tmp (j + 1)).getD k 0 = (swapped tmp j).getD
      (if tmp.length - 1 - j = k then j else if j = k then tmp.length - 1 - j else k) 0 := by
  simp only [swapped, getD_eq_getElem?_getD, getElem?_set, length_set, length_swapped]
  split_ifs
  all_goals first | rfl | omega

theorem getD_swapped {tmp : Bytes} {j k : Nat} (hj : j ≤ tmp.length / 2) (hk : k < tmp.length) :
    (swapped tmp j).getD k 0 = tmp.getD (if k < j ∨ tmp.length ≤ k + j then tmp.length - 1 - k else k) 0 := by
  induction j generalizing k with
  | zero => rw [if_neg (by omega), swapped]
  | succ j ih =>
    rw [getD_swapped_succ hk, ih (by omega) (by split_ifs <;> omega)]
    congr 1
    split_ifs <;> omega

theorem swapped_half (tmp : Bytes) : swapped tmp (tmp.length / 2) = tmp.reverse := by
  refine ext_getElem (by simp [length_swapped]) fun k hk _ => ?_
  rw [length_swapped] at hk
  have h := getD_swapped (Nat.le_refl _) hk
  rw [getD_eq_getElem?_getD, getD_eq_getElem?_getD, getElem?_eq_getElem (by rwa [length_swapped]),
    getElem?_eq_getElem (by split_ifs <;> omega), getD_some, getD_some] at h
  rw [h, getElem_reverse]
  congr 1
  split_ifs <;> omega

theorem u64ToDec_eq (v : BitVec 64) : u64ToDec v = (decDigits 20 v.toNat).reverse := swapped_half _

def readDec (digits : Bytes) : Nat := digits.foldl (fun n d => 10 * n + (d.toNat - 48)) 0

theorem decDigits_value {n v : Nat} (h : v < 10 ^ n) : (decDigits n v).foldr (fun d n => 10 * n + (d.toNat - 48)) 0 = v := by
  induction n generalizing v with
  | zero =>
    rw [decDigits, foldr_nil]
    omega
  | succ n ih =>
    have hd : ((48 + v % 10).toUInt8).toNat - 48 = v % 10 := by
      rw [Nat.toUInt8, UInt8.toNat_ofNat']
      omega
    rw [decDigits, foldr_cons, hd]
    split_ifs with hz
    · rw [foldr_nil]
      omega
    · rw [ih (by omega)]
      omega

theorem readDec_u64ToDec (v : BitVec 64) : readDec (u64ToDec v) = v.toNat := by
  rw [readDec, u64ToDec_eq, foldl_reverse]
  exact decDigits_value (by have := v.isLt; omega)

def i64ToDec (v : BitVec 64) : Bytes := if v.toInt < 0 then 45 :: u64ToDec (-v) else u64ToDec v

theorem decDigits_digit {n v : Nat} : ∀ d ∈ decDigits n v, 48 ≤ d.toNat ∧ d.toNat ≤ 57 := by
  induction n generalizing v with
  | zero => exact fun d hd => absurd hd not_mem_nil
  | succ n ih =>
    rw [decDigits, forall_mem_cons, Nat.toUInt8, UInt8.toNat_ofNat']
    refine ⟨by omega, ?_⟩
    split_ifs
    · exact fun d hd => absurd hd not_mem_nil
    · exact ih

theorem length_decDigits {n v k : Nat} (h : v < 10 ^ (k + 1)) : (decDigits n v).length ≤ k + 1 := by
  induction n generalizing v k with
  | zero => exact Nat.zero_le _
  | succ n ih =>
    rw [decDigits, length_cons]
    split_ifs with hz
    · exact Nat.le_add_left 1 k
    · cases k with
      | zero => omega
      | succ k => exact Nat.succ_le_succ (ih (by omega))

/-- The first digit is a zero for the number zero only. -/
theorem decDigits_last {n v : Nat} (hv : v < 10 ^ n) (h : (decDigits n v).getLast? = some 48) : v = 0 := by
  induction n generalizing v with
  | zero => omega
  | succ n ih =>
    rw [decDigits] at h
    split_ifs at h with hz
    · rw [getLast?_singleton, Option.some.injEq, ← UInt8.toNat_inj, Nat.toUInt8, UInt8.toNat_ofNat'] at h
      have : (48 + v % 10) % 2 ^ 8 = 48 := h
      omega
    · cases n with
      | zero => omega
      | succ n =>
        exact absurd (ih (by omega) ((getLast?_cons_cons ..).symm.trans h)) hz

def readInt : Bytes → Int
  | [] => 0
  | c :: digits => if c = 45 then -readDec digits else readDec (c :: digits)

theorem u64ToDec_digit (v : BitVec 64) : ∀ d ∈ u64ToDec v, 48 ≤ d.toNat ∧ d.toNat ≤ 57 := by
  rw [u64ToDec_eq]
  exact fun d hd => decDigits_digit d (mem_reverse.mp hd)

theorem readInt_u64ToDec (v : BitVec 64) : readInt (u64ToDec v) = v.toNat := by
  rw [← readDec_u64ToDec]
  have hge := u64ToDec_digit v
  cases hv : u64ToDec v with
  | nil => rfl
  | cons c digits =>
    refine if_neg ?_
    rintro rfl
    exact absurd (hge 45 (by simp [hv])).1 (by decide)

theorem readInt_i64ToDec (v : BitVec 64) : readInt (i64ToDec v) = v.toInt := by
  have hlt := v.isLt
  have hint := v.toInt_eq_toNat_cond
  unfold i64ToDec
  split_ifs with hneg
  · rw [readInt, if_pos rfl, readDec_u64ToDec, BitVec.toNat_neg]
    split_ifs at hint <;> omega
  · rw [readInt_u64ToDec]
    split_ifs at hint <;> omega

/-- What `%d` and `%u` write reads back as the number, the least one included. -/
theorem numerals_read_back (v : BitVec 64) : readDec (u64ToDec v) = v.toNat ∧ readInt (i64ToDec v) = v.toInt :=
  ⟨readDec_u64ToDec v, readInt_i64ToDec v⟩

/-- A decimal numeral of `n` digits at most, with no zero in front of another digit. -/
structure Numeral (n : Nat) (ds : Bytes) : Prop where
  digit : ∀ d ∈ ds, 48 ≤ d.toNat ∧ d.toNat ≤ 57
  pos : 0 < ds.length
  length : ds.length ≤ n
  leading : ds.head? = some 48 → ds = [48]

theorem u64ToDec_numeral {v : BitVec 64} {n : Nat} (h : v.toNat < 10 ^ (n + 1)) : Numeral (n + 1) (u64ToDec v) where
  digit := u64ToDec_digit v
  pos := by simp [u64ToDec_eq, decDigits]
  length := by
    rw [u64ToDec_eq, length_reverse]
    exact length_decDigits h
  leading hzero := by
    rw [u64ToDec_eq] at hzero ⊢
    rw [decDigits_last (by have := v.isLt; omega) (head?_reverse.symm.trans hzero)]
    rfl

/-- Both functions write a numeral of the value that has no leading zeros, behind
a minus sign for a negative value, and 20 bytes at most. -/
theorem decimal_canonical (v : BitVec 64) :
    (Numeral 20 (u64ToDec v) ∧ readDec (u64ToDec v) = v.toNat) ∧
      (∃ ds, Numeral 19 ds ∧ i64ToDec v = if v.toInt < 0 then 45 :: ds else ds) ∧ readInt (i64ToDec v) = v.toInt := by
  have hlt := v.isLt
  have hint := v.toInt_eq_toNat_cond
  refine ⟨⟨u64ToDec_numeral (by omega), readDec_u64ToDec v⟩, ?_, readInt_i64ToDec v⟩
  unfold i64ToDec
  split_ifs with hneg
  · refine ⟨_, u64ToDec_numeral ?_, rfl⟩
    rw [BitVec.toNat_neg]
    split_ifs at hint <;> omega
  · refine ⟨_, u64ToDec_numeral ?_, rfl⟩
    split_ifs at hint <;> omega

/-- Zeros are left out until a digit has been written; the last digit is always
written. -/
def hexDigits (v : BitVec 64) : Bool → List Nat → Bytes
  | _, [] => []
  | started, shift :: shifts =>
    let d := v.toNat >>> shift % 16
    if d ≠ 0 ∨ started = true ∨ shift = 0 then
      (if d < 10 then 48 + d else 87 + d).toUInt8 :: hexDigits v true shifts
    else hexDigits v false shifts

def ptrToHex (v : BitVec 64) : Bytes :=
  ascii "0x" ++ hexDigits v false [60, 56, 52, 48, 44, 40, 36, 32, 28, 24, 20, 16, 12, 8, 4, 0]

end Numbers

section Conversions

def PERCENT : UInt8 := 37
def STRING : UInt8 := 115
def SIGNED_INT : UInt8 := 100
def UNSIGNED_INT : UInt8 := 117
def LONG : UInt8 := 108
def POINTER : UInt8 := 112
def FLOAT : UInt8 := 102

inductive Arg (δ : Type)
  | int (v : BitVec 32)
  | long (v : BitVec 64)
  | pointer (v : BitVec 64)
  | double (v : δ)
deriving DecidableEq

/-- The bytes of the strings, if they have any, and how a double is written. -/
structure Memory (δ : Type) where
  strings : BitVec 64 → Option Bytes
  f64ToDec : δ → Bytes

def Memory.load (m : Memory δ) (p : BitVec 64) : Option Bytes := if p = 0 then none else m.strings p

variable (m : Memory δ)

/-- What is written for a conversion without modifier, and the arguments that
are left. An argument that is missing or of another type has no meaning. -/
def convert (spec : UInt8) (args : List (Arg δ)) : Option (Bytes × List (Arg δ)) :=
  if spec = PERCENT then some ([PERCENT], args)
  else if spec = STRING then
    match args with
    | .pointer p :: rest => some ((m.load p).getD [], rest)
    | _ => none
  else if spec = SIGNED_INT then
    match args with
    | .int v :: rest => some (i64ToDec (v.signExtend 64), rest)
    | _ => none
  else if spec = UNSIGNED_INT then
    match args with
    | .int v :: rest => some (u64ToDec (v.zeroExtend 64), rest)
    | _ => none
  else if spec = POINTER then
    match args with
    | .pointer p :: rest => some (ptrToHex p, rest)
    | _ => none
  else if spec = FLOAT then
    match args with
    | .double v :: rest => some (m.f64ToDec v, rest)
    | _ => none
  else some ([PERCENT, spec], args)

def convertLong (toDec : BitVec 64 → Bytes) (args : List (Arg δ)) : Option (Bytes × List (Arg δ)) :=
  match args with
  | .long v :: rest => some (toDec v, rest)
  | _ => none

end Conversions

section Formatters

variable (m : Memory δ)

/-- The loop of the two functions that print. A percent sign at the end of the
format ends it. -/
def printfLoop : Bytes → List (Arg δ) → Bytes → Option (Bytes × List (Arg δ))
  | [], args, out => some (out, args)
  | [c], args, out => some (if c = PERCENT then out else out ++ [c], args)
  | [c, spec], args, out =>
    if c ≠ PERCENT then printfLoop [spec] args (out ++ [c])
    else (if spec = LONG then convertLong i64ToDec args else convert m spec args).map fun r => (out ++ r.1, r.2)
  | c :: spec :: next :: rest, args, out =>
    if c ≠ PERCENT then printfLoop (spec :: next :: rest) args (out ++ [c])
    else if spec ≠ LONG then do
      let (text, args) ← convert m spec args
      printfLoop (next :: rest) args (out ++ text)
    else if next = UNSIGNED_INT then do
      let (text, args) ← convertLong u64ToDec args
      printfLoop rest args (out ++ text)
    else do
      let (text, args) ← convertLong i64ToDec args
      if next = SIGNED_INT then printfLoop rest args (out ++ text) else printfLoop (next :: rest) args (out ++ text)

def printf (fmt : BitVec 64) (args : List (Arg δ)) : Option (Bytes × List (Arg δ)) :=
  match m.load fmt with
  | none => some ([], args)
  | some fmt => printfLoop m fmt args []

def syncioPrintf (fmt : BitVec 64) (args : List (Arg δ)) : Option (Bytes × List (Arg δ)) := printf m fmt args

def asyncioPrintf (fmt : BitVec 64) (args : List (Arg δ)) : Option (Bytes × List (Arg δ)) := printf m fmt args

/-- The loop of `strings.format`. The `d` of a long stays in the format. -/
def formatLoop : Bytes → List (Arg δ) → Bytes → Option (Bytes × List (Arg δ))
  | [], args, out => some (out, args)
  | [c], args, out => some (if c = PERCENT then out else out ++ [c], args)
  | [c, spec], args, out =>
    if c ≠ PERCENT then formatLoop [spec] args (out ++ [c])
    else (if spec = LONG then convertLong i64ToDec args else convert m spec args).map fun r => (out ++ r.1, r.2)
  | c :: spec :: next :: rest, args, out =>
    if c ≠ PERCENT then formatLoop (spec :: next :: rest) args (out ++ [c])
    else if spec ≠ LONG then do
      let (text, args) ← convert m spec args
      formatLoop (next :: rest) args (out ++ text)
    else if next = UNSIGNED_INT then do
      let (text, args) ← convertLong u64ToDec args
      formatLoop rest args (out ++ text)
    else do
      let (text, args) ← convertLong i64ToDec args
      formatLoop (next :: rest) args (out ++ text)

/-- The bytes of the string that is built, or none for a null one. -/
def stringsFormat (fmt : BitVec 64) (args : List (Arg δ)) : Option (Option Bytes × List (Arg δ)) :=
  match m.load fmt with
  | none => some (none, args)
  | some fmt => do
      let (out, args) ← formatLoop m fmt args []
      return (some out, args)

end Formatters

section Agreement

variable {m : Memory δ} {fmt : BitVec 64} {args rest : List (Arg δ)} {out : Bytes}

/-- The format asks for a signed long by `%ld`. -/
def hasLongInt : Bytes → Bool
  | c :: spec :: next :: rest =>
    if c ≠ PERCENT then hasLongInt (spec :: next :: rest)
    else if spec ≠ LONG then hasLongInt (next :: rest)
    else if next = UNSIGNED_INT then hasLongInt rest
    else if next = SIGNED_INT then true
    else hasLongInt (next :: rest)
  | _ => false

theorem formatLoop_literal {c : UInt8} {fmt : Bytes} (hc : c ≠ PERCENT) :
    formatLoop m (c :: fmt) args out = formatLoop m fmt args (out ++ [c]) := by
  match fmt with
  | [] => simp [formatLoop, hc]
  | [_] | _ :: _ :: _ => simp only [formatLoop, if_pos hc]

theorem formatLoop_eq {fmt : Bytes} (h : hasLongInt fmt = false) : formatLoop m fmt args out = printfLoop m fmt args out := by
  fun_induction printfLoop m fmt args out with
  | case1 args out | case2 c args out => rfl
  | case3 c spec args out hc ih =>
    rw [formatLoop, if_pos hc]
    exact ih rfl
  | case4 c spec args out hc => rw [formatLoop, if_neg hc]
  | case5 c spec next rest args out hc ih =>
    rw [hasLongInt, if_pos hc] at h
    rw [formatLoop, if_pos hc]
    exact ih h
  | case6 c spec next rest args out hc hspec ih =>
    rw [hasLongInt, if_neg hc, if_pos hspec] at h
    rw [formatLoop, if_neg hc, if_pos hspec]
    simp only [ih _ _ h]
  | case7 c spec rest args out hc hspec ih =>
    rw [hasLongInt, if_neg hc, if_neg hspec, if_pos rfl] at h
    rw [formatLoop, if_neg hc, if_neg hspec, if_pos rfl]
    simp only [ih _ _ h]
  | case8 c spec next rest args out hc hspec hnext ih2 ih1 =>
    rw [hasLongInt, if_neg hc, if_neg hspec, if_neg hnext] at h
    split_ifs at h with hd
    rw [formatLoop, if_neg hc, if_neg hspec, if_neg hnext]
    simp only [if_neg hd, ih1 _ _ h]

/-- The loop of `strings.format` takes the same arguments and writes as much,
and more if there is a `%ld`. -/
theorem formatLoop_longer {fmt w text : Bytes} (hlen : out.length ≤ w.length)
    (h : printfLoop m fmt args out = some (text, rest)) :
    ∃ text', formatLoop m fmt args w = some (text', rest) ∧ text.length ≤ text'.length ∧
      (out.length < w.length ∨ hasLongInt fmt = true → text.length < text'.length) := by
  fun_induction printfLoop m fmt args out generalizing w with
  | case1 args out =>
    cases h
    exact ⟨w, rfl, hlen, by simp [hasLongInt]⟩
  | case2 c args out =>
    cases h
    refine ⟨_, rfl, ?_⟩
    split_ifs <;> simp [hasLongInt, hlen]
  | case3 c spec args out hc ih =>
    rw [formatLoop, if_pos hc]
    have := ih (w := w ++ [c]) (by simpa using hlen) h
    simpa [hasLongInt] using this
  | case4 c spec args out hc =>
    obtain ⟨⟨t, args'⟩, hconv, h⟩ := map_eq_some_iff.mp h
    cases h
    rw [formatLoop, if_neg hc, hconv]
    exact ⟨_, rfl, by simpa using hlen, by simp [hasLongInt]⟩
  | case5 c spec next rest args out hc ih =>
    rw [formatLoop, hasLongInt, if_pos hc, if_pos hc]
    simpa using ih (w := w ++ [c]) (by simpa using hlen) h
  | case6 c spec next rest args out hc hspec ih =>
    obtain ⟨⟨t, args'⟩, hconv, h⟩ := bind_eq_some_iff.mp h
    rw [formatLoop, hasLongInt, if_neg hc, if_neg hc, if_pos hspec, if_pos hspec, hconv]
    simpa using ih t args' (w := w ++ t) (by simpa using hlen) h
  | case7 c spec rest args out hc hspec ih =>
    obtain ⟨⟨t, args'⟩, hconv, h⟩ := bind_eq_some_iff.mp h
    rw [formatLoop, hasLongInt, if_neg hc, if_neg hc, if_neg hspec, if_neg hspec, if_pos rfl, if_pos rfl, hconv]
    simpa using ih t args' (w := w ++ t) (by simpa using hlen) h
  | case8 c spec next rest args out hc hspec hnext ih2 ih1 =>
    obtain ⟨⟨t, args'⟩, hconv, h⟩ := bind_eq_some_iff.mp h
    rw [formatLoop, hasLongInt, if_neg hc, if_neg hc, if_neg hspec, if_neg hspec, if_neg hnext, if_neg hnext, hconv]
    by_cases hd : next = SIGNED_INT
    · -- the `d` is left, and is written next
      subst hd
      obtain ⟨text', hf, -, hlt⟩ := ih2 t args' (w := w ++ t ++ [SIGNED_INT]) (by simp; omega) (by simpa using h)
      have hlonger := hlt (.inl (by simp; omega))
      refine ⟨text', ?_, by omega, fun _ => hlonger⟩
      exact (formatLoop_literal (by decide)).trans hf
    · simpa [hd] using ih1 t args' (w := w ++ t) (by simpa using hlen) (by simpa [hd] using h)

/-- All three take the same arguments, the printing functions write the same
bytes, and the string that is built has these bytes unless there is a `%ld`. -/
theorem formatters_agree_iff (h : syncioPrintf m fmt args = some (out, rest)) :
    asyncioPrintf m fmt args = some (out, rest) ∧ ∃ built, stringsFormat m fmt args = some (built, rest) ∧
      (built.getD [] = out ↔ ∀ f ∈ m.load fmt, hasLongInt f = false) := by
  refine ⟨h, ?_⟩
  rw [syncioPrintf, printf] at h
  rw [stringsFormat]
  cases hf : m.load fmt with
  | none =>
    rw [hf] at h
    cases h
    exact ⟨none, rfl, by simp⟩
  | some f =>
    rw [hf] at h
    dsimp only at h
    obtain ⟨text, ht, -, hlonger⟩ := formatLoop_longer (w := []) (Nat.le_refl _) h
    refine ⟨some text, by dsimp only; rw [ht]; rfl, ?_⟩
    simp only [Option.getD_some, Option.mem_some_iff, forall_eq']
    constructor
    · rintro rfl
      by_contra hne
      have := hlonger (.inr (by simpa using hne))
      omega
    · intro hno
      rw [formatLoop_eq hno, h] at ht
      cases ht
      rfl

def oneString (p : BitVec 64) (s : String) : Memory Unit := ⟨fun q => if q = p then some (ascii s) else none, fun _ => []⟩

theorem formatters_agree_int : ∃ built, stringsFormat (oneString 16 "%d of %lu%") 16 [.int (-7), .long 9] = some (built, []) ∧
    built.getD [] = ascii "-7 of 9" := by
  have hp : syncioPrintf (oneString 16 "%d of %lu%") 16 [.int (-7), .long 9] = some (ascii "-7 of 9", []) := by
    decide +kernel
  obtain ⟨-, built, hb, hiff⟩ := formatters_agree_iff hp
  exact ⟨built, hb, hiff.mpr (by decide +kernel)⟩

/-- For `%ld` and 7 the one prints `7`, and the other builds `7d`. -/
theorem formatters_differ : syncioPrintf (oneString 16 "%ld") 16 [.long 7] = some (ascii "7", []) ∧
    stringsFormat (oneString 16 "%ld") 16 [.long 7] = some (some (ascii "7d"), []) := by decide +kernel

end Agreement

end Picasso.Strings
