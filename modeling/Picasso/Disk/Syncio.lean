import Picasso.Lib.Lists
import Mathlib.Algebra.GroupWithZero.Nat

namespace Picasso.Disk.Syncio

open Lib.Chunks List Int32

structure File where
  data : List UInt8
  pos : Nat

def File.write (f : File) (bs : List UInt8) : File :=
  if bs = [] then f
  else
    { data := f.data.take f.pos ++ List.replicate (f.pos - f.data.length) 0 ++ bs ++ f.data.drop (f.pos + bs.length)
      pos := f.pos + bs.length }

/-- What a system call returns: a count, or -1 with `EINTR` or another error. -/
inductive Sys
  | count (k : Nat)
  | eintr
  | error (errno : Nat)

/-- The loop of `syncio_fwrite` over what its calls of `write` return; without
a further result it has not returned. -/
def fwriteLoop (buf : Nat → UInt8) (start n : Nat) : List Sys → Nat → File → Option (Int × File)
  | [], total, f => if total < n then none else some (total, f)
  | w :: ws, total, f =>
    if total < n then
      match w with
      | .eintr => fwriteLoop buf start n ws total f
      | .error _ => some (-1, f)
      | .count k =>
        if k ≤ n - total then fwriteLoop buf start n ws (total + k) (f.write (chunk buf (start + total) k)) else none
    else some (total, f)

/-- `write` is used at the position of the file, and the offset is added to
the buffer. -/
def syncioFwrite (f : File) (buf : Nat → UInt8) (n offset : Int32) (ws : List Sys) : Option (Int × File) :=
  if n ≤ 0 ∨ offset < 0 then some (-1, f) else fwriteLoop buf offset.toInt.toNat n.toInt.toNat ws 0 f

/-- Whether `pread` can return `k` bytes of `m`: none at the end of the file
only, and at a negative offset it fails. -/
def preads (d : List UInt8) (offset : Int32) (m k : Nat) : Bool :=
  0 ≤ offset ∧ k ≤ m ∧ k ≤ d.length - offset.toInt.toNat ∧ (k = 0 → d.length ≤ offset.toInt.toNat)

def store (out : Nat → UInt8) (total : Nat) (d : List UInt8) (offset k : Nat) (i : Nat) : UInt8 :=
  if total ≤ i ∧ i < total + k then d.getD (offset + (i - total)) 0 else out i

def freadLoop (d : List UInt8) (n : Nat) : List Sys → Nat → Int32 → (Nat → UInt8) → Option (Int × (Nat → UInt8))
  | [], total, _, out => if total < n then none else some (total, out)
  | r :: rs, total, offset, out =>
    if total < n then
      match r with
      | .eintr => freadLoop d n rs total offset out
      | .error _ => some (-1, out)
      | .count k =>
        if preads d offset (n - total) k then
          if k = 0 then some (total, out)
          else freadLoop d n rs (total + k) (.ofInt (offset.toInt + k)) (store out total d offset.toInt.toNat k)
        else none
    else some (total, out)

def syncioFread (f : File) (out : Nat → UInt8) (n offset : Int32) (rs : List Sys) : Option (Int × (Nat → UInt8)) :=
  if n ≤ 0 ∨ offset < 0 then some (-1, out) else freadLoop f.data n.toInt.toNat rs 0 offset out

/-- What a complete write puts down is read back from the same offset, and the
other bytes of the file are kept. -/
def RoundTrip (f : File) (buf : Nat → UInt8) (n offset : Int32) : Prop :=
  ∀ ws f', syncioFwrite f buf n offset ws = some (n.toInt, f') →
    (∀ out rs res out', syncioFread f' out n offset rs = some (res, out') → res ≠ -1 →
      res = n.toInt ∧ ∀ i < n.toInt.toNat, out' i = buf i) ∧
    (∀ out, ∃ rs out', syncioFread f' out n offset rs = some (n.toInt, out')) ∧
    ∀ i < f.data.length, ¬ (offset.toInt.toNat ≤ i ∧ i < offset.toInt.toNat + n.toInt.toNat) → f'.data[i]? = f.data[i]?

open File

section Write

theorem chunk_ne_nil (buf : Nat → UInt8) (start : Nat) {n : Nat} (hn : 0 < n) : chunk buf start n ≠ [] :=
  length_pos_iff.mp (by rwa [length_chunk])

theorem getElem?_write (f : File) {bs : List UInt8} (hbs : bs ≠ []) (i : Nat) :
    (f.write bs).data[i]? =
      if i < f.pos then (if i < f.data.length then f.data[i]? else some 0)
      else if i < f.pos + bs.length then bs[i - f.pos]? else f.data[i]? := by
  have hfront : (f.data.take f.pos ++ List.replicate (f.pos - f.data.length) 0).length = f.pos := by
    simp only [length_append, length_take, length_replicate]
    omega
  rw [write, if_neg hbs]
  dsimp only
  rw [getElem?_append, getElem?_append, length_append, hfront]
  by_cases hi : i < f.pos
  · simp only [hi, if_true, show i < f.pos + bs.length by omega]
    by_cases hlen : i < f.data.length
    · rw [getElem?_append_left (by simp; omega), getElem?_take_of_lt hi, if_pos hlen]
    · rw [getElem?_append_right (by simp; omega), if_neg hlen, getElem?_replicate_of_lt]
      simp only [length_take]
      omega
  · by_cases hj : i < f.pos + bs.length
    · simp only [hi, hj, if_true, if_false]
    · simp only [hi, hj, if_false]
      rw [getElem?_drop]
      congr 1
      omega

theorem getElem?_write_chunk (data : List UInt8) (pos : Nat) (buf : Nat → UInt8) (start : Nat) {n : Nat} (hn : 0 < n)
    (i : Nat) :
    (write ⟨data, pos⟩ (chunk buf start n)).data[i]? =
      if i < pos then (if i < data.length then data[i]? else some 0)
      else if i < pos + n then some (buf (start + (i - pos))) else data[i]? := by
  rw [getElem?_write _ (chunk_ne_nil buf start hn), length_chunk]
  dsimp only
  by_cases h1 : i < pos
  · rw [if_pos h1, if_pos h1]
  · by_cases h2 : i < pos + n
    · rw [if_neg h1, if_neg h1, if_pos h2, if_pos h2, getElem?_chunk buf start (by omega)]
    · rw [if_neg h1, if_neg h1, if_neg h2, if_neg h2]

theorem write_pos (f : File) (bs : List UInt8) : (f.write bs).pos = f.pos + bs.length := by
  rw [write]
  split
  · next h => simp [h]
  · rfl

theorem length_write (f : File) {bs : List UInt8} (hbs : bs ≠ []) :
    (f.write bs).data.length = max f.data.length (f.pos + bs.length) := by
  rw [write, if_neg hbs]
  simp only [length_append, length_take, length_replicate, length_drop]
  omega

theorem write_write (f : File) (a b : List UInt8) : (f.write a).write b = f.write (a ++ b) := by
  by_cases ha : a = []
  · simp [ha, write]
  by_cases hb : b = []
  · simp [hb, write]
  have hab : a ++ b ≠ [] := by simp [ha]
  have hpos : ((f.write a).write b).pos = (f.write (a ++ b)).pos := by
    rw [write_pos, write_pos, write_pos, length_append, Nat.add_assoc]
  have hdata : ((f.write a).write b).data = (f.write (a ++ b)).data := by
    have hlena := length_pos_iff.mpr ha
    apply ext_getElem?
    intro i
    rw [getElem?_write _ hb, getElem?_write _ hab, getElem?_write _ ha, write_pos, length_write _ ha, length_append]
    by_cases h1 : i < f.pos
    · simp only [h1, if_true, show i < f.pos + a.length by omega, show i < max f.data.length (f.pos + a.length) by omega]
    · by_cases h2 : i < f.pos + a.length
      · simp only [h1, h2, if_true, if_false, show i < max f.data.length (f.pos + a.length) by omega,
          show i < f.pos + (a.length + b.length) by omega]
        rw [getElem?_append_left (by omega)]
      · simp only [h1, h2, if_false]
        by_cases h3 : i < f.pos + a.length + b.length
        · simp only [h3, if_true, show i < f.pos + (a.length + b.length) by omega]
          rw [getElem?_append_right (by omega)]
          congr 1
          omega
        · simp only [h3, if_false, show ¬ i < f.pos + (a.length + b.length) by omega]
  cases h : (f.write a).write b
  cases h' : f.write (a ++ b)
  rw [h, h'] at hpos hdata
  simp_all

theorem fwriteLoop_spec {buf : Nat → UInt8} {start n : Nat} {ws : List Sys} {total : Nat} {f f' : File} {res : Int}
    (h : fwriteLoop buf start n ws total f = some (res, f')) (hres : res ≠ -1) (hle : total ≤ n) :
    res = n ∧ f' = f.write (chunk buf (start + total) (n - total)) := by
  induction ws generalizing total f with
  | nil =>
    rw [fwriteLoop] at h
    split at h <;> cases h
    have heq : total = n := by omega
    simp [heq, chunk, write]
  | cons w ws ih =>
    by_cases hlt : total < n
    · cases w with
      | eintr =>
        rw [fwriteLoop, if_pos hlt] at h
        exact ih h hle
      | error e =>
        rw [fwriteLoop, if_pos hlt] at h
        cases h
        exact absurd rfl hres
      | count k =>
        rw [fwriteLoop, if_pos hlt] at h
        split at h
        · next hk =>
          obtain ⟨hr, hf⟩ := ih h (by omega)
          have hn : n - total = k + (n - (total + k)) := by omega
          rw [hn, chunk_add, ← write_write, Nat.add_assoc]
          exact ⟨hr, hf⟩
        · cases h
    · have heq : total = n := by omega
      have hdone : fwriteLoop buf start n (w :: ws) total f = some ((total : Int), f) := by
        cases w <;> rw [fwriteLoop, if_neg hlt]
      rw [hdone] at h
      cases h
      simp [heq, chunk, write]

theorem fwriteLoop_once (buf : Nat → UInt8) (start : Nat) {n : Nat} (hn : 0 < n) (f : File) :
    fwriteLoop buf start n [.count n] 0 f = some ((n : Int), f.write (chunk buf start n)) := by
  simp [fwriteLoop, hn]

end Write

section Read

variable {d : List UInt8} {n : Nat} {out : Nat → UInt8}

theorem freadLoop_spec (start : Nat) {rs : List Sys} {total : Nat} {offset : Int32} {out' : Nat → UInt8} {res : Int}
    (h : freadLoop d n rs total offset out = some (res, out')) (hres : res ≠ -1) (hle : total ≤ n)
    (hoff : offset.toInt = start + total) (hlen : start + n ≤ d.length) (hint : start + n < 2 ^ 31)
    (hout : ∀ i < total, out i = d.getD (start + i) 0) : res = n ∧ ∀ i < n, out' i = d.getD (start + i) 0 := by
  induction rs generalizing total offset out with
  | nil =>
    rw [freadLoop] at h
    split at h <;> cases h
    obtain rfl : total = n := by omega
    exact ⟨rfl, hout⟩
  | cons r rs ih =>
    by_cases hlt : total < n
    · cases r with
      | eintr =>
        rw [freadLoop, if_pos hlt] at h
        exact ih h hle hoff hout
      | error e =>
        rw [freadLoop, if_pos hlt] at h
        cases h
        exact absurd rfl hres
      | count k =>
        rw [freadLoop, if_pos hlt] at h
        split at h
        · next hp =>
          obtain ⟨-, hk, -, hend⟩ := of_decide_eq_true hp
          have hoffN : offset.toInt.toNat = start + total := by omega
          have hk0 : k ≠ 0 := fun e => by
            have := hend e
            omega
          rw [if_neg hk0] at h
          refine ih h (by omega) ?_ ?_
          · rw [toInt_ofInt_of_le (by omega) (by omega), hoff]
            omega
          · intro i hi
            rw [store, hoffN]
            split
            · next hin =>
              congr 1
              omega
            · exact hout i (by omega)
        · cases h
    · have hdone : freadLoop d n (r :: rs) total offset out = some ((total : Int), out) := by
        cases r <;> rw [freadLoop, if_neg hlt]
      rw [hdone] at h
      cases h
      obtain rfl : total = n := by omega
      exact ⟨rfl, hout⟩

theorem freadLoop_once (out : Nat → UInt8) {offset : Int32} (hn : 0 < n) (hoff : 0 ≤ offset)
    (hlen : offset.toInt.toNat + n ≤ d.length) :
    freadLoop d n [.count n] 0 offset out = some ((n : Int), store out 0 d offset.toInt.toNat n) := by
  have hp : preads d offset n n = true := by
    simp only [preads, Bool.decide_and, Bool.and_eq_true, decide_eq_true_eq]
    exact ⟨hoff, le_refl n, by omega, fun e => by omega⟩
  simp [freadLoop, hn, hp, Nat.pos_iff_ne_zero.mp hn]

end Read

section RoundTrip

variable {n offset : Int32} {buf : Nat → UInt8}

theorem toNat_pos (hn : 0 < n) : 0 < n.toInt.toNat ∧ (n.toInt.toNat : Int) = n.toInt := by
  rw [lt_iff_toInt_lt, toInt_zero] at hn
  omega

theorem valid (hn : 0 < n) (hoff : 0 ≤ offset) : ¬ (n ≤ 0 ∨ offset < 0) := by
  rintro (h | h)
  · exact absurd hn (Int32.not_lt.mpr h)
  · exact absurd hoff (Int32.not_le.mpr h)

theorem eq_write_of_syncioFwrite {f f' : File} {ws : List Sys} (hn : 0 < n) (hoff : 0 ≤ offset)
    (h : syncioFwrite f buf n offset ws = some (n.toInt, f')) :
    f' = f.write (chunk buf offset.toInt.toNat n.toInt.toNat) := by
  obtain ⟨hpos, hcast⟩ := toNat_pos hn
  rw [syncioFwrite, if_neg (valid hn hoff)] at h
  exact (fwriteLoop_spec h (by omega) (Nat.zero_le _)).2

theorem roundTrip_zero (hn : 0 < n) (data : List UInt8) (buf : Nat → UInt8) : RoundTrip ⟨data, 0⟩ buf n 0 := by
  intro ws f' hw
  obtain ⟨hpos, hcast⟩ := toNat_pos hn
  have hmax : n.toInt < 2 ^ 31 := toInt_lt n
  have hzero : (0 : Int32).toInt.toNat = 0 := rfl
  obtain rfl := eq_write_of_syncioFwrite hn (Int32.le_refl 0) hw
  rw [hzero]
  have hlen : n.toInt.toNat ≤ (write ⟨data, 0⟩ (chunk buf 0 n.toInt.toNat)).data.length := by
    rw [length_write _ (chunk_ne_nil buf 0 hpos), length_chunk]
    omega
  refine ⟨fun out rs res out' hr hres => ?_, fun out => ⟨[.count n.toInt.toNat], ?_⟩, fun i _ hi => ?_⟩
  · rw [syncioFread, if_neg (valid hn (Int32.le_refl 0))] at hr
    obtain ⟨hres', hout⟩ := freadLoop_spec 0 hr hres (Nat.zero_le _) rfl (by omega) (by omega)
      (fun i hi => absurd hi (Nat.not_lt_zero i))
    refine ⟨by rw [hres', hcast], fun i hi => ?_⟩
    rw [hout i hi, getD_eq_getElem?_getD, getElem?_write_chunk _ _ _ _ hpos, if_neg (Nat.not_lt_zero _), if_pos (by omega)]
    simp
  · have hr := freadLoop_once out hpos (Int32.le_refl 0) (by rwa [hzero, Nat.zero_add])
    rw [hcast] at hr
    exact ⟨_, by rw [syncioFread, if_neg (valid hn (Int32.le_refl 0)), hr]⟩
  · rw [getElem?_write_chunk _ _ _ _ hpos, if_neg (Nat.not_lt_zero _), if_neg (by omega)]

theorem RoundTrip.readBack {data : List UInt8} {pos : Nat} (h : RoundTrip ⟨data, pos⟩ buf n offset) (hn : 0 < n)
    (hoff : 0 ≤ offset) (hlen : offset.toInt.toNat + n.toInt.toNat ≤ max data.length (pos + n.toInt.toNat)) {i : Nat}
    (hi : i < n.toInt.toNat) :
    (write ⟨data, pos⟩ (chunk buf offset.toInt.toNat n.toInt.toNat)).data.getD (offset.toInt.toNat + i) 0 = buf i := by
  obtain ⟨hpos, hcast⟩ := toNat_pos hn
  have hw : syncioFwrite ⟨data, pos⟩ buf n offset [.count n.toInt.toNat] =
      some (n.toInt, write ⟨data, pos⟩ (chunk buf offset.toInt.toNat n.toInt.toNat)) := by
    rw [syncioFwrite, if_neg (valid hn hoff), fwriteLoop_once buf _ hpos, hcast]
  have hfar : offset.toInt.toNat + n.toInt.toNat ≤
      (write ⟨data, pos⟩ (chunk buf offset.toInt.toNat n.toInt.toNat)).data.length := by
    rwa [length_write _ (chunk_ne_nil buf _ hpos), length_chunk]
  have hr := freadLoop_once buf hpos hoff hfar
  obtain ⟨-, hread⟩ := (h _ _ hw).1 buf [.count n.toInt.toNat] _ _ (by rw [syncioFread, if_neg (valid hn hoff), hr]) (by omega)
  rw [← hread i hi, store, if_pos (by omega), Nat.sub_zero]

end RoundTrip

/-- A write is read back from every file and buffer exactly when the offset is
zero and the file stands at its beginning. -/
theorem round_trip_iff (n offset : Int32) (pos : Nat) (hn : 0 < n) (hoff : 0 ≤ offset) :
    (∀ data buf, RoundTrip ⟨data, pos⟩ buf n offset) ↔ offset = 0 ∧ pos = 0 := by
  obtain ⟨hN, -⟩ := toNat_pos hn
  constructor
  · intro h
    rcases Nat.lt_trichotomy pos offset.toInt.toNat with hlt | heq | hgt
    · -- the last byte read lies behind all that was written
      have hback := (h (List.replicate (offset.toInt.toNat + n.toInt.toNat) 0) fun _ => 1).readBack hn hoff
        (by rw [length_replicate]; omega) (i := n.toInt.toNat - 1) (by omega)
      rw [getD_eq_getElem?_getD, getElem?_write_chunk _ _ _ _ hN, if_neg (by omega), if_neg (by omega),
        getElem?_replicate_of_lt (by omega)] at hback
      exact absurd hback (by decide)
    · by_cases hzero : pos = 0
      · refine ⟨Int32.toInt_inj.mp ?_, hzero⟩
        rw [Int32.le_iff_toInt_le, Int32.toInt_zero] at hoff
        rw [Int32.toInt_zero]
        omega
      · -- the first byte written is not the first one of the buffer
        have hback := (h [] fun i => if i = 0 then 1 else 0).readBack hn hoff (by simp [heq]) hN
        rw [getD_eq_getElem?_getD, getElem?_write_chunk _ _ _ _ hN, if_neg (by omega), if_pos (by omega), Option.getD_some,
          if_neg (by omega), if_pos rfl] at hback
        exact absurd hback (by decide)
    · -- the first byte read lies before all that was written
      have hback := (h (List.replicate (offset.toInt.toNat + n.toInt.toNat) 0) fun _ => 1).readBack hn hoff
        (by rw [length_replicate]; omega) hN
      rw [getD_eq_getElem?_getD, getElem?_write_chunk _ _ _ _ hN, if_pos (by omega),
        if_pos (by rw [length_replicate]; omega), getElem?_replicate_of_lt (by omega)] at hback
      exact absurd hback (by decide)
  · rintro ⟨rfl, rfl⟩ data buf
    exact roundTrip_zero hn data buf

theorem round_trip_iff_beginning : (0 : Int32) < 3 ∧ (0 : Int32) ≤ 0 ∧ ∀ data buf, RoundTrip ⟨data, 0⟩ buf 3 0 :=
  ⟨by decide, by decide, (round_trip_iff 3 0 0 (by decide) (by decide)).mpr ⟨rfl, rfl⟩⟩

def hello (i : Nat) : UInt8 := [104, 101, 108, 108, 111].getD i 0

/-- Two bytes for offset 2 of an empty file: the third and fourth one of the
buffer go to its beginning, and at the offset there is nothing to read. -/
theorem hello_not_read_back : ¬ RoundTrip ⟨[], 0⟩ hello 2 2 := by
  intro h
  have hw : syncioFwrite ⟨[], 0⟩ hello 2 2 [.count 2] = some ((2 : Int32).toInt, ⟨[108, 108], 2⟩) := rfl
  have hr : syncioFread ⟨[108, 108], 2⟩ (fun _ => 0) 2 2 [.count 0] = some (0, fun _ => 0) := rfl
  have hres := ((h _ _ hw).1 _ _ _ _ hr (by decide)).1
  exact absurd hres (by decide)

end Picasso.Disk.Syncio
