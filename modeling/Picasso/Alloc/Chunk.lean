import Mathlib.Logic.Basic

namespace Picasso.Alloc.Chunk

/-- The word at each address that is a multiple of 8. Every access of the
allocator is to such a word. -/
abbrev Mem := Nat → Nat

def Mem.set (m : Mem) (a v : Nat) : Mem := fun x => if x = a then v else m x

def HEADER_SIZE : Nat := 16

def PREV_IN_USE : Nat := 1

def GC_MARK : Nat := 2

def MMAP_ALLOCATED : Nat := 2

def CURR_IN_USE : Nat := 4

-- `w & b` for a single flag bit, `w | b`, `w & ~b`, `w & 7` and `w & ~7`
def hasFlag (w b : Nat) : Bool := w / b % 2 = 1

def withFlag (w b : Nat) : Nat := if hasFlag w b then w else w + b

def withoutFlag (w b : Nat) : Nat := if hasFlag w b then w - b else w

def flagBits (w : Nat) : Nat := w % 8

def sizeBits (w : Nat) : Nat := w / 8 * 8

section Flags

variable (w : Nat)

theorem hasFlag_congr {w w' b : Nat} (h : w / b % 2 = w' / b % 2) : hasFlag w b = hasFlag w' b := by
  unfold hasFlag
  rw [h]

theorem withFlag_eq (b : Nat) : withFlag w b = w + (1 - w / b % 2) * b := by
  unfold withFlag hasFlag
  by_cases h : w / b % 2 = 1
  · simp [h]
  · have : w / b % 2 = 0 := by omega
    simp [this]

theorem withoutFlag_eq (b : Nat) : withoutFlag w b = w - w / b % 2 * b := by
  unfold withoutFlag hasFlag
  by_cases h : w / b % 2 = 1
  · simp [h]
  · have : w / b % 2 = 0 := by omega
    simp [this]

@[simp] theorem sizeBits_withFlag_prev : sizeBits (withFlag w PREV_IN_USE) = sizeBits w := by
  simp only [sizeBits, withFlag_eq, PREV_IN_USE]
  omega

@[simp] theorem sizeBits_withoutFlag_prev : sizeBits (withoutFlag w PREV_IN_USE) = sizeBits w := by
  simp only [sizeBits, withoutFlag_eq, PREV_IN_USE]
  omega

@[simp] theorem sizeBits_withFlag_curr : sizeBits (withFlag w CURR_IN_USE) = sizeBits w := by
  simp only [sizeBits, withFlag_eq, CURR_IN_USE]
  omega

@[simp] theorem sizeBits_withoutFlag_curr : sizeBits (withoutFlag w CURR_IN_USE) = sizeBits w := by
  simp only [sizeBits, withoutFlag_eq, CURR_IN_USE]
  omega

@[simp] theorem sizeBits_withFlag_mark : sizeBits (withFlag w GC_MARK) = sizeBits w := by
  simp only [sizeBits, withFlag_eq, GC_MARK]
  omega

@[simp] theorem sizeBits_withoutFlag_mark : sizeBits (withoutFlag w GC_MARK) = sizeBits w := by
  simp only [sizeBits, withoutFlag_eq, GC_MARK]
  omega

@[simp] theorem mark_withFlag_mark : hasFlag (withFlag w GC_MARK) GC_MARK = true := by
  simp only [withFlag_eq, hasFlag, GC_MARK, decide_eq_true_eq]
  omega

@[simp] theorem mark_withoutFlag_mark : hasFlag (withoutFlag w GC_MARK) GC_MARK = false := by
  simp only [withoutFlag_eq, hasFlag, GC_MARK, decide_eq_false_iff_not]
  omega

@[simp] theorem prev_withFlag_prev : hasFlag (withFlag w PREV_IN_USE) PREV_IN_USE = true := by
  simp only [withFlag_eq, hasFlag, PREV_IN_USE, decide_eq_true_eq]
  omega

@[simp] theorem prev_withoutFlag_prev : hasFlag (withoutFlag w PREV_IN_USE) PREV_IN_USE = false := by
  simp only [withoutFlag_eq, hasFlag, PREV_IN_USE, decide_eq_false_iff_not]
  omega

@[simp] theorem curr_withFlag_curr : hasFlag (withFlag w CURR_IN_USE) CURR_IN_USE = true := by
  simp only [withFlag_eq, hasFlag, CURR_IN_USE, decide_eq_true_eq]
  omega

@[simp] theorem curr_withoutFlag_curr : hasFlag (withoutFlag w CURR_IN_USE) CURR_IN_USE = false := by
  simp only [withoutFlag_eq, hasFlag, CURR_IN_USE, decide_eq_false_iff_not]
  omega

@[simp] theorem curr_withFlag_prev : hasFlag (withFlag w PREV_IN_USE) CURR_IN_USE = hasFlag w CURR_IN_USE := by
  apply hasFlag_congr
  simp only [withFlag_eq, PREV_IN_USE, CURR_IN_USE]
  omega

@[simp] theorem curr_withoutFlag_prev : hasFlag (withoutFlag w PREV_IN_USE) CURR_IN_USE = hasFlag w CURR_IN_USE := by
  apply hasFlag_congr
  simp only [withoutFlag_eq, PREV_IN_USE, CURR_IN_USE]
  omega

@[simp] theorem prev_withFlag_curr : hasFlag (withFlag w CURR_IN_USE) PREV_IN_USE = hasFlag w PREV_IN_USE := by
  apply hasFlag_congr
  simp only [withFlag_eq, PREV_IN_USE, CURR_IN_USE]
  omega

@[simp] theorem prev_withoutFlag_curr : hasFlag (withoutFlag w CURR_IN_USE) PREV_IN_USE = hasFlag w PREV_IN_USE := by
  apply hasFlag_congr
  simp only [withoutFlag_eq, PREV_IN_USE, CURR_IN_USE]
  omega

variable {z : Nat}

theorem sizeBits_add_flagBits (hz : z % 16 = 0) : sizeBits (z + flagBits w) = z := by
  simp only [sizeBits, flagBits]
  omega

theorem prev_add_flagBits (hz : z % 16 = 0) : hasFlag (z + flagBits w) PREV_IN_USE = hasFlag w PREV_IN_USE := by
  apply hasFlag_congr
  simp only [flagBits, PREV_IN_USE]
  omega

theorem curr_add_flagBits (hz : z % 16 = 0) : hasFlag (z + flagBits w) CURR_IN_USE = hasFlag w CURR_IN_USE := by
  apply hasFlag_congr
  simp only [flagBits, CURR_IN_USE]
  omega

theorem mark_add_flagBits (hz : z % 16 = 0) : hasFlag (z + flagBits w) GC_MARK = hasFlag w GC_MARK := by
  apply hasFlag_congr
  simp only [flagBits, GC_MARK]
  omega

theorem hasFlag_iff (w b : Nat) : hasFlag w b = true ↔ w / b % 2 = 1 := by
  simp [hasFlag]

theorem sizeBits_add_prev (hz : z % 16 = 0) : sizeBits (z + PREV_IN_USE) = z := by
  simp only [sizeBits, PREV_IN_USE]
  omega

theorem prev_add_prev (hz : z % 16 = 0) : hasFlag (z + PREV_IN_USE) PREV_IN_USE = true := by
  rw [hasFlag_iff]
  simp only [PREV_IN_USE]
  omega

theorem curr_add_prev (hz : z % 16 = 0) : hasFlag (z + PREV_IN_USE) CURR_IN_USE = false := by
  rw [← Bool.not_eq_true, hasFlag_iff]
  simp only [PREV_IN_USE, CURR_IN_USE]
  omega

end Flags

-- the fields of `free_chunk_t`
def prevSize (m : Mem) (fc : Nat) : Nat := m fc

def size (m : Mem) (fc : Nat) : Nat := m (fc + 8)

def fd (m : Mem) (fc : Nat) : Nat := m (fc + 16)

def bk (m : Mem) (fc : Nat) : Nat := m (fc + 24)

def nextSizeptr (m : Mem) (fc : Nat) : Nat := m (fc + 32)

def prevSizeptr (m : Mem) (fc : Nat) : Nat := m (fc + 40)

def isPrevInuse (m : Mem) (fc : Nat) : Bool := hasFlag (size m fc) PREV_IN_USE

def setPrevInuse (m : Mem) (fc : Nat) : Mem := m.set (fc + 8) (withFlag (size m fc) PREV_IN_USE)

def unsetPrevInuse (m : Mem) (fc : Nat) : Mem := m.set (fc + 8) (withoutFlag (size m fc) PREV_IN_USE)

def isCurrInuse (m : Mem) (fc : Nat) : Bool := hasFlag (size m fc) CURR_IN_USE

def setCurrInuse (m : Mem) (fc : Nat) : Mem := m.set (fc + 8) (withFlag (size m fc) CURR_IN_USE)

def unsetCurrInuse (m : Mem) (fc : Nat) : Mem := m.set (fc + 8) (withoutFlag (size m fc) CURR_IN_USE)

def unsetMmapFlag (m : Mem) (fc : Nat) : Mem := m.set (fc + 8) (withoutFlag (size m fc) MMAP_ALLOCATED)

def getSize (m : Mem) (fc : Nat) : Nat := sizeBits (size m fc)

def getPrevSize (m : Mem) (fc : Nat) : Nat := sizeBits (prevSize m fc)

def getSizeFlags (m : Mem) (fc : Nat) : Nat := flagBits (size m fc)

def getPrevSizeFlags (m : Mem) (fc : Nat) : Nat := flagBits (prevSize m fc)

-- sizes are multiples of 16, so the flags are added by `|`
def setSize (m : Mem) (fc size flags : Nat) : Mem := m.set (fc + 8) (size + flags)

/-- The assertion that the size is not 0 stops the program. -/
def setPrevSize (m : Mem) (fc size flags : Nat) : Option Mem :=
  if size = 0 then none else some (m.set fc (size + flags))

def nextChunk (m : Mem) (fc : Nat) : Nat := fc + HEADER_SIZE + getSize m fc

def prevChunk (m : Mem) (fc : Nat) : Nat := fc - HEADER_SIZE - getPrevSize m fc

def setFdbkTo (m : Mem) (fc v : Nat) : Mem := (m.set (fc + 24) v).set (fc + 16) v

def setNextprevSizeptrTo (m : Mem) (fc v : Nat) : Mem := (m.set (fc + 40) v).set (fc + 32) v

def unlinkChunkFromFdlist (m : Mem) (p : Nat) : Mem :=
  if bk m p = 0 ∨ fd m p = 0 then m
  else
    let m := m.set (fd m p + 24) (bk m p)
    let m := m.set (bk m p + 16) (fd m p)
    setFdbkTo m p 0

def unlinkChunkFromSortedlist (m : Mem) (p : Nat) : Mem :=
  if prevSizeptr m p = 0 ∨ nextSizeptr m p = 0 then m
  else
    let m := m.set (prevSizeptr m p + 32) (nextSizeptr m p)
    let m := m.set (nextSizeptr m p + 40) (prevSizeptr m p)
    setNextprevSizeptrTo m p 0

def insertIntoFdlist (m : Mem) (head p : Nat) : Mem :=
  let m := m.set (p + 16) (fd m head)
  let m := m.set (p + 24) head
  let m := m.set (fd m head + 24) p
  m.set (head + 16) p

end Picasso.Alloc.Chunk
