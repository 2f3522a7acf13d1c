import Mathlib.Data.List.Basic
import Mathlib.Order.Nat
import Mathlib.Algebra.GroupWithZero.Nat

namespace Picasso.Disk.FileSystem

open List

abbrev Bytes := List UInt8

section MkdirAll

inductive Outcome
  | created
  | existed
  | failed
  deriving DecidableEq

def pathMax : Nat := 4096

def byte (buf : Bytes) (i : Nat) : UInt8 := buf[i]?.getD 0

/-- What C code reads of a string that is made from the buffer: the bytes in
front of the first NUL, where one stands behind the buffer. -/
def cString (tmp : Bytes) : Bytes := tmp.takeWhile (· ≠ 0)

variable (answer : List Bytes → Outcome)

/-- A call of `mkdir` behind the calls so far; an error ends `mkdirAll` with -1. -/
def mkdir (calls : List Bytes) (path : Bytes) : Except (List Bytes) (List Bytes) :=
  if answer (calls ++ [path]) = .failed then .error (calls ++ [path]) else .ok (calls ++ [path])

def round (path : Bytes) (s : Bytes × List Bytes) (i : Nat) : Except (List Bytes) (Bytes × List Bytes) := do
  let tmp := s.1.set i (byte path i)
  if byte tmp i = 47 ∧ i ≠ 0 then
    let tmp := tmp.set i 0
    let calls ← if ¬ (byte tmp 0 = 0 ∨ (byte tmp 0 = 46 ∧ byte tmp 1 = 0)) then mkdir answer s.2 (cString tmp)
      else .ok s.2
    .ok (tmp.set i 47, calls)
  else .ok (tmp, s.2)

def mkdirAll (path : Bytes) : Int × List Bytes :=
  if path.length ≤ 0 then (-1, [])
  else
    match (List.range path.length).foldlM (round answer path) (List.replicate pathMax 0, []) with
    | .error calls => (-1, calls)
    | .ok (tmp, calls) =>
      match mkdir answer calls (cString tmp) with
      | .error calls => (-1, calls)
      | .ok calls => (0, calls)

/-- The prefix that ends before the byte `i`, if that is a slash behind the
first byte and the prefix is not `.`. -/
def parent (path : Bytes) (i : Nat) : Option Bytes :=
  if byte path i = 47 ∧ i ≠ 0 ∧ path.take i ≠ [46] then some (path.take i) else none

def ancestors (path : Bytes) : List Bytes := (List.range path.length).filterMap (parent path) ++ [path]

def callAll (paths : List Bytes) : Int × List Bytes :=
  match paths.foldlM (mkdir answer) [] with
  | .error calls => (-1, calls)
  | .ok calls => (0, calls)

def filled (path : Bytes) (i : Nat) : Bytes := path.take i ++ List.replicate (pathMax - i) 0

variable {answer} {path : Bytes} {calls : List Bytes} {i : Nat}

theorem byte_eq (hi : i < path.length) : byte path i = path[i] := by simp [byte, hi]

theorem byte_ne_zero (hnul : 0 ∉ path) (hi : i < path.length) : byte path i ≠ 0 := by
  rw [byte_eq hi]
  exact fun h => hnul (h ▸ getElem_mem hi)

theorem cString_filled (hnul : 0 ∉ path) (i : Nat) : cString (filled path i) = path.take i := by
  rw [cString, filled, takeWhile_append_of_pos]
  · cases pathMax - i <;> simp [replicate_succ]
  · intro b hb
    rw [decide_eq_true_eq]
    exact fun h => hnul (h ▸ mem_of_mem_take hb)

theorem set_filled (hi : i < path.length) (hlen : path.length ≤ pathMax) (b : UInt8) :
    (filled path i).set i b = path.take i ++ b :: List.replicate (pathMax - (i + 1)) 0 := by
  have hrep : List.replicate (pathMax - i) (0 : UInt8) = 0 :: List.replicate (pathMax - (i + 1)) 0 := by
    rw [← replicate_succ]
    congr 1
    omega
  rw [filled, hrep, set_append_right _ _ (by rw [length_take]; omega)]
  simp [length_take, Nat.min_eq_left hi.le]

theorem set_filled_next (hi : i < path.length) (hlen : path.length ≤ pathMax) :
    (filled path i).set i (byte path i) = filled path (i + 1) := by
  rw [set_filled hi hlen, filled, byte_eq hi, ← take_append_getElem hi, append_assoc, singleton_append]

theorem set_zero (hi : i < path.length) (hlen : path.length ≤ pathMax) : (filled path (i + 1)).set i 0 = filled path i := by
  rw [← set_filled_next hi hlen, set_set, set_filled hi hlen, filled, ← replicate_succ]
  congr 2
  omega

theorem byte_filled {j : Nat} (hj : j < i) (hi : i ≤ path.length) : byte (filled path i) j = byte path j := by
  rw [byte, filled, getElem?_append_left (by rw [length_take]; omega), getElem?_take_of_lt hj, byte]

theorem byte_filled_self (hi : i ≤ path.length) : byte (filled path i) i = 0 := by
  rw [byte, filled, getElem?_append_right (by rw [length_take]; omega), getElem?_replicate]
  split <;> rfl

theorem skips_iff (hnul : 0 ∉ path) (hi : i < path.length) (hpos : i ≠ 0) :
    (byte (filled path i) 0 = 0 ∨ (byte (filled path i) 0 = 46 ∧ byte (filled path i) 1 = 0)) ↔ path.take i = [46] := by
  rw [byte_filled (by omega) hi.le, or_iff_right (byte_ne_zero hnul (by omega))]
  obtain rfl | hne := eq_or_ne i 1
  · rw [byte_filled_self hi.le, byte_eq (by omega), take_one, head?_eq_getElem?, getElem?_eq_getElem (by omega)]
    simp
  · rw [byte_filled (by omega) hi.le]
    refine iff_of_false (fun h => byte_ne_zero hnul (by omega) h.2) fun h => ?_
    have hlen := congrArg List.length h
    rw [length_take, length_singleton] at hlen
    omega

theorem round_filled (hnul : 0 ∉ path) (hlen : path.length ≤ pathMax) (hi : i < path.length) :
    round answer path (filled path i, calls) i =
      match parent path i with
      | none => .ok (filled path (i + 1), calls)
      | some p => (mkdir answer calls p).map fun calls => (filled path (i + 1), calls) := by
  have hget : byte (filled path (i + 1)) i = byte path i := byte_filled (Nat.lt_succ_self i) hi
  rw [round, parent]
  dsimp only
  rw [set_filled_next hi hlen, hget, set_zero hi hlen]
  by_cases hslash : byte path i = 47
  · obtain rfl | hpos := eq_or_ne i 0
    · simp
    · have hnext : (filled path i).set i 47 = filled path (i + 1) := by rw [← hslash, set_filled_next hi hlen]
      rw [hnext, cString_filled hnul]
      by_cases hdot : path.take i = [46]
      · simp [hslash, hpos, (skips_iff hnul hi hpos).mpr hdot, hdot, bind, Except.bind]
      · have hskip := mt (skips_iff hnul hi hpos).mp hdot
        simp only [hslash, hpos, hdot, hskip, not_false_eq_true, and_self, ne_eq, if_true]
        cases mkdir answer calls (path.take i) <;> rfl
  · simp [hslash]

theorem foldlM_round (hnul : 0 ∉ path) (hlen : path.length ≤ pathMax) (k : Nat) (hk : i + k ≤ path.length) :
    (List.range' i k).foldlM (round answer path) (filled path i, calls) =
      (((List.range' i k).filterMap (parent path)).foldlM (mkdir answer) calls).map fun calls => (filled path (i + k), calls) := by
  induction k generalizing i calls with
  | zero => rfl
  | succ k ih =>
    rw [range'_succ, foldlM_cons, round_filled hnul hlen (by omega), filterMap_cons]
    have hnext : i + (k + 1) = i + 1 + k := by omega
    cases parent path i with
    | none => exact (ih (by omega)).trans (by rw [hnext])
    | some p =>
      rw [foldlM_cons]
      dsimp only
      cases mkdir answer calls p with
      | error calls' => rfl
      | ok calls' => exact (ih (i := i + 1) (by omega)).trans (by rw [hnext]; rfl)

/-- `mkdirAll` calls `mkdir` on the ancestors in their order, and stops with -1
at the first call that fails. -/
theorem mkdirAll_calls (answer : List Bytes → Outcome) (hne : path ≠ []) (hnul : 0 ∉ path) (hlen : path.length ≤ pathMax) :
    mkdirAll answer path = callAll answer (ancestors path) := by
  have hloop : (List.range' 0 path.length).foldlM (round answer path) (filled path 0, []) = _ :=
    foldlM_round hnul hlen path.length (by omega)
  have hstart : filled path 0 = List.replicate pathMax 0 := by simp [filled]
  rw [hstart, ← range_eq_range', Nat.zero_add] at hloop
  rw [mkdirAll, if_neg (by simpa using hne), hloop, callAll, ancestors, foldlM_append]
  cases ((List.range path.length).filterMap (parent path)).foldlM (mkdir answer) [] with
  | error calls => rfl
  | ok calls =>
    have hwhole := cString_filled hnul path.length
    rw [take_length] at hwhole
    simp only [Except.map, hwhole]
    cases hmk : mkdir answer calls path <;> simp [bind, Except.bind, hmk, pure, Except.pure]

/-- `a/./b`, where `a` is there and the rest cannot be made. -/
theorem mkdirAll_dots :
    mkdirAll (fun calls => if calls.length = 1 then .existed else .failed) [97, 47, 46, 47, 98] = (-1, [[97], [97, 47, 46]]) := by
  have h := @mkdirAll_calls [97, 47, 46, 47, 98] (fun calls => if calls.length = 1 then .existed else .failed)
    (by decide) (by decide) (by decide)
  exact h.trans (by decide)

end MkdirAll

section ReadFile

/-- How many bytes `pread` gives: at the end of the file none, and else at least
one and at most what is asked for. -/
def pread (d : Bytes) (want offset short : Nat) : Nat := min (min want (d.length - offset)) (max 1 short)

/-- The loop of `syncio_fread` for `n` bytes, with the bytes that it has and the
number of calls of `pread` so far. The offset is an `int`; at one that has become
negative `pread` fails. -/
def fread (short : Nat → Nat) (d : Bytes) (n offset : Nat) : Nat → Bytes → Nat → Option (Bytes × Nat)
  | 0, got, k => some (got, k)
  | fuel + 1, got, k =>
    if got.length < n then
      if offset + got.length < 2 ^ 31 then
        let r := pread d (n - got.length) (offset + got.length) (short k)
        if r = 0 then some (got, k + 1)
        else fread short d n offset fuel (got ++ (d.drop (offset + got.length)).take r) (k + 1)
      else none
    else some (got, k)

structure Buffer where
  data : Bytes
  length : Nat
  le : length ≤ data.length

def Buffer.elements (a : Buffer) : Bytes := a.data.take a.length

/-- `array.append`: where the capacity does not suffice, the elements are copied
to new data, of which the rest is arbitrary. -/
def Buffer.append (junk : Nat → UInt8) (a : Buffer) (b : UInt8) : Buffer :=
  if h : a.length + 1 ≤ a.data.length then ⟨a.data.set a.length b, a.length + 1, by simpa using h⟩
  else
    let newCap := if 0 < a.data.length then a.data.length * 2 else 1
    ⟨(a.elements ++ (List.range (newCap - a.length)).map junk).set a.length b, a.length + 1, by
      have := a.le
      simp only [Buffer.elements, length_set, length_append, length_take, length_map, length_range, newCap]
      split <;> omega⟩

inductive Reading
  | returned (result : Buffer)
  | null
  | raised
  | aborted
  | running

def chunkSize : Nat := 4096

/-- The rounds of `readFile`. An offset that does not fit in an `int` is not cast
to one. -/
def readChunks (short : Nat → Nat) (junk : Nat → UInt8) (d : Bytes) : Nat → Nat → Nat → Buffer → Reading
  | 0, _, _, _ => .running
  | fuel + 1, k, offset, result =>
    if offset < 2 ^ 31 then
      match fread short d chunkSize offset (chunkSize + 1) [] k with
      | none => .null
      | some (got, k) =>
        if got.length = 0 then .returned result
        else
          let chunk := got ++ List.replicate (chunkSize - got.length) 0
          let result := (chunk.take got.length).foldl (Buffer.append junk) result
          if got.length < chunkSize then .returned result
          else readChunks short junk d fuel k (offset + got.length) result
    else .raised

/-- `readFile` on a file that can be opened. It begins with an array of no
elements, for which `__alloc_array_recursive` has an assertion. -/
def readFile (ndebug : Bool) (short : Nat → Nat) (junk : Nat → UInt8) (d : Bytes) (fuel : Nat) : Reading :=
  if ndebug then readChunks short junk d fuel 0 0 ⟨[], 0, le_rfl⟩ else .aborted

variable {short : Nat → Nat} {junk : Nat → UInt8} {d : Bytes}

theorem elements_append (a : Buffer) (b : UInt8) : (a.append junk b).elements = a.elements ++ [b] := by
  have hle := a.le
  have hset {l : Bytes} (h : a.length < l.length) : (l.set a.length b).take (a.length + 1) = l.take a.length ++ [b] := by
    rw [← take_append_getElem (by simpa using h), take_set_of_le (Nat.le_refl _), getElem_set_self]
  rw [Buffer.append]
  split
  · next h => exact hset h
  · next h =>
    refine (hset ?_).trans ?_
    · simp only [Buffer.elements, length_append, length_take, length_map, length_range]
      split <;> omega
    · rw [take_append_of_le_length (by rw [Buffer.elements, length_take]; omega)]
      simp [Buffer.elements, take_take]

theorem elements_foldl (bs : Bytes) (a : Buffer) : (bs.foldl (Buffer.append junk) a).elements = a.elements ++ bs := by
  induction bs generalizing a with
  | nil => simp
  | cons b bs ih => rw [foldl_cons, ih, elements_append, append_assoc, singleton_append]

variable {offset fuel k : Nat} {result : Buffer}

theorem fread_spec {n : Nat} {got : Bytes} (hgot : got = (d.drop offset).take got.length) (hlen : got.length ≤ n)
    (hoff : offset ≤ d.length) (hfuel : n < fuel + got.length) (hint : offset + n ≤ 2 ^ 31 ∨ d.length < 2 ^ 31) :
    ∃ k', fread short d n offset fuel got k = some ((d.drop offset).take n, k') := by
  have hle : got.length ≤ d.length - offset := by
    have := congrArg List.length hgot
    rw [length_take, length_drop] at this
    omega
  induction fuel generalizing got k with
  | zero => omega
  | succ fuel ih =>
    rw [fread]
    split
    · next hlt =>
      split
      · dsimp only
        split
        · next hr =>
          have hend : d.length ≤ offset + got.length := by
            simp only [pread] at hr
            omega
          refine ⟨k + 1, ?_⟩
          rw [hgot]
          congr 2
          rw [take_of_length_le (by rw [length_drop]; omega), take_of_length_le (by rw [length_drop]; omega)]
        · next hr =>
          have hr' : pread d (n - got.length) (offset + got.length) (short k) ≤
              min (n - got.length) (d.length - (offset + got.length)) := Nat.min_le_left _ _
          have hmore : (got ++ (d.drop (offset + got.length)).take
              (pread d (n - got.length) (offset + got.length) (short k))).length =
              got.length + pread d (n - got.length) (offset + got.length) (short k) := by
            rw [length_append, length_take, length_drop]
            omega
          refine ih ?_ (by omega) (by omega) (by omega)
          rw [hmore, take_add, ← hgot, drop_drop]
      · next hbig =>
        exfalso
        omega
    · next hge =>
      obtain rfl : got.length = n := by omega
      exact ⟨k, by rw [← hgot]⟩

theorem take_chunk (offset : Nat) (d : Bytes) :
    d.take offset ++ (d.drop offset).take chunkSize = d.take (offset + chunkSize) := take_add.symm

theorem readChunks_small (hd : d.length < 2 ^ 31) (hoff : offset ≤ d.length) (hfuel : d.length < fuel + offset)
    (hres : result.elements = d.take offset) :
    ∃ a, readChunks short junk d fuel k offset result = .returned a ∧ a.elements = d := by
  induction fuel generalizing k offset result with
  | zero => omega
  | succ fuel ih =>
    obtain ⟨k', hread⟩ : ∃ k', fread short d chunkSize offset (chunkSize + 1) [] k = some ((d.drop offset).take chunkSize, k') :=
      fread_spec rfl (Nat.zero_le _) hoff (by simp) (.inr hd)
    rw [readChunks, if_pos (by omega), hread]
    have hlen : ((d.drop offset).take chunkSize).length = min chunkSize (d.length - offset) := by
      rw [length_take, length_drop]
    have helements : ((((d.drop offset).take chunkSize ++
        List.replicate (chunkSize - ((d.drop offset).take chunkSize).length) 0).take ((d.drop offset).take chunkSize).length).foldl
          (Buffer.append junk) result).elements = d.take (offset + chunkSize) := by
      rw [elements_foldl, take_left, hres, take_chunk]
    dsimp only
    split
    · next h0 =>
      refine ⟨result, rfl, hres.trans (take_of_length_le ?_)⟩
      have : 0 < chunkSize := by decide
      omega
    · next h0 =>
      split
      · exact ⟨_, rfl, helements.trans (take_of_length_le (by omega))⟩
      · have hfull : ((d.drop offset).take chunkSize).length = chunkSize := by omega
        refine ih (by omega) (by omega) ?_
        rw [helements, hfull]

theorem readChunks_large (hd : 2 ^ 31 ≤ d.length) (hoff : offset ≤ 2 ^ 31) (hmod : chunkSize ∣ offset) :
    readChunks short junk d fuel k offset result = .running ∨
      readChunks short junk d fuel k offset result = .raised := by
  induction fuel generalizing k offset result with
  | zero => exact .inl rfl
  | succ fuel ih =>
    rw [readChunks]
    split
    · next hlt =>
      have hroom : offset + chunkSize ≤ 2 ^ 31 := by
        obtain ⟨c, rfl⟩ := hmod
        simp only [chunkSize] at hlt ⊢
        omega
      obtain ⟨k', hread⟩ : ∃ k', fread short d chunkSize offset (chunkSize + 1) [] k = some ((d.drop offset).take chunkSize, k') :=
        fread_spec rfl (Nat.zero_le _) (by omega) (by simp) (.inl hroom)
      have hfull : ((d.drop offset).take chunkSize).length = chunkSize := by
        rw [length_take, length_drop]
        omega
      rw [hread]
      dsimp only
      rw [hfull, if_neg (by decide), if_neg (lt_irrefl _)]
      exact ih hroom (Nat.dvd_add hmod (Nat.dvd_refl _))
    · exact .inr rfl

/-- `readFile` returns the bytes of the file, whatever the calls of `pread` give,
just when assertions are compiled out and the length of the file is an `int`. -/
theorem readFile_returns_iff (ndebug : Bool) (short : Nat → Nat) (junk : Nat → UInt8) (d : Bytes) :
    (∃ N, ∀ fuel ≥ N, ∃ a, readFile ndebug short junk d fuel = .returned a ∧ a.elements = d) ↔
      ndebug = true ∧ d.length < 2 ^ 31 := by
  constructor
  · rintro ⟨N, h⟩
    obtain ⟨a, ha, -⟩ := h N le_rfl
    rw [readFile] at ha
    split at ha
    · next hn =>
      refine ⟨hn, not_le.mp fun hd => ?_⟩
      have hlarge : readChunks short junk d N 0 0 ⟨[], 0, le_rfl⟩ = .running ∨
          readChunks short junk d N 0 0 ⟨[], 0, le_rfl⟩ = .raised :=
        readChunks_large hd (Nat.zero_le _) (Nat.dvd_zero _)
      rcases hlarge with hr | hr
      · rw [hr] at ha
        cases ha
      · rw [hr] at ha
        cases ha
    · cases ha
  · rintro ⟨rfl, hd⟩
    exact ⟨d.length + 1, fun fuel hfuel => readChunks_small hd (Nat.zero_le _) (by omega) rfl⟩

/-- With assertions, no file is read. -/
theorem readFile_aborts : readFile false (fun _ => 1) (fun _ => 0) [104, 105] 10 = .aborted := rfl

end ReadFile

end Picasso.Disk.FileSystem
