import Mathlib.Data.List.Pairwise
import Mathlib.Data.Nat.Basic
import Mathlib.Algebra.GroupWithZero.Nat
import Mathlib.Algebra.Group.Int.Defs

namespace Picasso.Lib.Memory

open List

section Overlays

variable {α : Type} {m m' m'' : Nat → α} {a b n k : Nat}

def Agree (m m' : Nat → α) (a n : Nat) : Prop := ∀ i < n, m (a + i) = m' (a + i)

theorem Agree.refl (m : Nat → α) (a n : Nat) : Agree m m a n := fun _ _ => rfl

theorem Agree.symm (h : Agree m m' a n) : Agree m' m a n := fun i hi => (h i hi).symm

theorem Agree.trans (h : Agree m m' a n) (h' : Agree m' m'' a n) : Agree m m'' a n :=
  fun i hi => (h i hi).trans (h' i hi)

theorem Agree.mono (h : Agree m m' a n) (ha : a ≤ b) (hb : b + k ≤ a + n) : Agree m m' b k := by
  intro i hi
  have := h (b - a + i) (by omega)
  rwa [show a + (b - a + i) = b + i by omega] at this

def overlay (m : Nat → α) (a n : Nat) (v : Nat → α) (x : Nat) : α := if a ≤ x ∧ x < a + n then v (x - a) else m x

theorem overlay_at (m : Nat → α) (a : Nat) (v : Nat → α) {i : Nat} (hi : i < n) : overlay m a n v (a + i) = v i := by
  rw [overlay, if_pos (by omega), Nat.add_sub_cancel_left]

theorem agree_overlay (m : Nat → α) (v : Nat → α) (h : a + n ≤ b ∨ b + k ≤ a) : Agree (overlay m a n v) m b k := by
  intro i hi
  rw [overlay, if_neg (by omega)]

def copy (m : Nat → α) (dst src n : Nat) : Nat → α := overlay m dst n fun i => m (src + i)

def fill (m : Nat → α) (dst : Nat) (v : α) (n : Nat) : Nat → α := overlay m dst n fun _ => v

end Overlays

section Words

variable {m m' : Nat → UInt8} {a b w : Nat}

/-- The word of `w` bytes at an address, the least byte first. -/
def load (m : Nat → UInt8) : Nat → Nat → Nat
  | 0, _ => 0
  | w + 1, a => (m a).toNat + 256 * load m w (a + 1)

def store (m : Nat → UInt8) (w a v : Nat) : Nat → UInt8 := overlay m a w fun i => .ofNat (v / 256 ^ i)

theorem agree_store {v n : Nat} (h : a + w ≤ b ∨ b + n ≤ a) : Agree (store m w a v) m b n :=
  agree_overlay m _ h

theorem load_congr (h : Agree m m' a w) : load m w a = load m' w a := by
  induction w generalizing a with
  | zero => rfl
  | succ w ih =>
    have hhead := h 0 (by omega)
    rw [load, load, ih (h.mono (by omega) (by omega))]
    simp only [Nat.add_zero] at hhead
    rw [hhead]

theorem load_digits {v : Nat} (h : ∀ i < w, m (a + i) = .ofNat (v / 256 ^ i)) : load m w a = v % 256 ^ w := by
  induction w generalizing a v with
  | zero => simp [load, Nat.mod_one]
  | succ w ih =>
    have hhead : m a = .ofNat v := by simpa using h 0 (by omega)
    have htail : ∀ i < w, m (a + 1 + i) = .ofNat (v / 256 / 256 ^ i) := by
      intro i hi
      rw [Nat.add_assoc, Nat.add_comm 1 i, h (i + 1) (by omega), Nat.pow_succ', Nat.div_div_eq_div_mul]
    rw [load, ih htail, hhead, Nat.pow_succ', Nat.mod_mul]
    simp

theorem load_store_self {v : Nat} (hv : v < 256 ^ w) : load (store m w a v) w a = v := by
  have hdigits : ∀ i < w, store m w a v (a + i) = .ofNat (v / 256 ^ i) := fun i hi => overlay_at m a _ hi
  rw [load_digits hdigits, Nat.mod_eq_of_lt hv]

theorem load_store_apart {v k : Nat} (h : a + k ≤ b ∨ b + w ≤ a) :
    load (store m k a v) w b = load m w b :=
  load_congr (agree_overlay m _ h)

theorem load_fill_apart {v : UInt8} {n : Nat} (h : a + n ≤ b ∨ b + w ≤ a) :
    load (fill m a v n) w b = load m w b :=
  load_congr (agree_overlay m _ h)

theorem load_copy_apart {src n : Nat} (h : a + n ≤ b ∨ b + w ≤ a) :
    load (copy m a src n) w b = load m w b :=
  load_congr (agree_overlay m _ h)

theorem load_copy (m : Nat → UInt8) (dst src : Nat) {i n : Nat} (h : i + w ≤ n) :
    load (copy m dst src n) w (dst + i) = load m w (src + i) := by
  induction w generalizing i with
  | zero => rfl
  | succ w ih =>
    have hhead : copy m dst src n (dst + i) = m (src + i) := overlay_at m dst _ (by omega)
    have htail := ih (i := i + 1) (by omega)
    rw [load, load, hhead, Nat.add_assoc, htail, Nat.add_assoc]

theorem load_eq_zero : load m w a = 0 ↔ ∀ i < w, m (a + i) = 0 := by
  induction w generalizing a with
  | zero => simp [load]
  | succ w ih =>
    rw [load, Nat.add_eq_zero_iff, Nat.mul_eq_zero, or_iff_right (by decide), ih]
    constructor
    · rintro ⟨hhead, htail⟩ i hi
      cases i with
      | zero => exact UInt8.toNat_inj.mp hhead
      | succ i =>
        rw [show a + (i + 1) = a + 1 + i by omega]
        exact htail i (by omega)
    · intro h
      refine ⟨congrArg UInt8.toNat (h 0 (by omega)), fun i hi => ?_⟩
      rw [show a + 1 + i = a + (i + 1) by omega]
      exact h (i + 1) (by omega)

def cells (m : Nat → UInt8) (w a n : Nat) : List Nat := (List.range n).map fun i => load m w (a + w * i)

@[simp] theorem length_cells (m : Nat → UInt8) (w a n : Nat) : (cells m w a n).length = n := by simp [cells]

theorem cells_congr {n : Nat} (h : Agree m m' a (w * n)) : cells m' w a n = cells m w a n := by
  apply map_congr_left
  intro i hi
  have hle : w * i + w ≤ w * n := by
    rw [← Nat.mul_succ]
    exact Nat.mul_le_mul_left w (List.mem_range.mp hi)
  exact (load_congr (h.mono (by omega) (by omega))).symm

theorem cells_succ (m : Nat → UInt8) (w a n : Nat) : cells m w a (n + 1) = cells m w a n ++ [load m w (a + w * n)] := by
  simp [cells, range_succ]

theorem cells_cons (m : Nat → UInt8) (w a n : Nat) : cells m w a (n + 1) = load m w a :: cells m w (a + w) n := by
  simp only [cells, range_succ_eq_map, map_cons, map_map, Nat.mul_zero, Nat.add_zero]
  refine congrArg _ (map_congr_left fun i _ => ?_)
  rw [Function.comp_apply, Nat.succ_eq_add_one, Nat.mul_add, Nat.mul_one, Nat.add_comm (w * i), Nat.add_assoc]

theorem cells_copy (m : Nat → UInt8) (w dst src n : Nat) : cells (copy m dst src (n * w)) w dst n = cells m w src n := by
  apply map_congr_left
  intro i hi
  have hle : w * i + w ≤ n * w := by
    rw [← Nat.mul_succ, Nat.mul_comm n]
    exact Nat.mul_le_mul_left w (List.mem_range.mp hi)
  exact load_copy m dst src hle

/-- A word from its bytes read as a signed number. -/
def signed (w n : Nat) : Int := (n : Int).bmod (2 ^ (8 * w))

def word (w : Nat) (i : Int) : Nat := (i % 2 ^ (8 * w)).toNat

theorem word_natCast {v : Nat} (hv : v < 2 ^ (8 * w)) : word w v = v := by
  rw [word]
  have : ((v : Int) % 2 ^ (8 * w)) = v := Int.emod_eq_of_lt (by omega) (by exact_mod_cast hv)
  rw [this, Int.toNat_natCast]

theorem signed_natCast {v : Nat} (hw : 0 < w) (hv : v < 2 ^ (8 * w - 1)) : signed w v = v := by
  rw [signed]
  have hp : 2 ^ (8 * w) = 2 * 2 ^ (8 * w - 1) := by
    rw [← Nat.pow_succ']
    congr 1
    omega
  apply Int.bmod_eq_of_le_mul_two
  · omega
  · rw [hp]
    omega

end Words

section Blocks

structure Block where
  addr : Nat
  size : Nat
deriving DecidableEq

def Apart (b c : Block) : Prop := b.addr + b.size ≤ c.addr ∨ c.addr + c.size ≤ b.addr

instance : Std.Symm Apart := ⟨fun _ _ => Or.symm⟩

theorem Apart.ne {b c : Block} (h : Apart b c) (hb : 0 < b.size) : b ≠ c := by
  rintro rfl
  rcases h with h | h <;> omega

end Blocks

end Picasso.Lib.Memory
