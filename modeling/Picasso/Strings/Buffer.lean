import Picasso.Arrays.Heap
import Mathlib.Data.List.GetD

namespace Picasso.Strings.Buffer

open Lib.Memory Lib.Stateful Arrays.Heap List

/-- The variables that a caller of `buf_append` keeps. -/
structure Buf where
  buf : Nat
  cap : Nat
  len : Nat

/-- The loop that doubles `newcap`. Without fuel it counts as one that goes on. -/
def enlarge (need : Nat) : Nat → Nat → Op Nat
  | 0, _ => runtimeError "no end"
  | fuel + 1, newcap => if newcap < need then enlarge need fuel (newcap * 2 % 2 ^ 64) else return newcap

/-- `memcpy` of bytes that have been read elsewhere. -/
def writeBytes (dst : Nat) (src : List UInt8) : Op Unit := fun s =>
  if src.length = 0 ∨ s.holds dst src.length then
    .ok ((), s.put (overlay s.mem dst src.length fun i => src.getD i 0))
  else .error .fault

def reserve (A : Allocator) (fuel : Nat) (b : Buf) (need : Nat) : Op Buf :=
  if b.cap < need then do
    let newcap ← enlarge need fuel (if b.cap = 0 then 64 else b.cap * 2 % 2 ^ 64)
    let nb ← allocate A newcap
    if b.buf ≠ 0 then memcpy nb b.buf b.len
    return ⟨nb, newcap, b.len⟩
  else return b

def bufAppend (A : Allocator) (fuel : Nat) (b : Buf) (src : List UInt8) : Op Buf := do
  let b ← reserve A fuel b ((b.len + src.length) % 2 ^ 64)
  writeBytes (b.buf + b.len) src
  return { b with len := (b.len + src.length) % 2 ^ 64 }

/-- The buffer has no block yet, or one that has been allocated since `s₀`, and
holds `xs`. -/
structure Holds (s₀ s : State) (b : Buf) (xs : List UInt8) : Prop where
  block : ∃ new, Grows s₀ s new ∧ (b.buf = 0 ∧ b.cap = 0 ∨ ∃ k, ⟨b.buf, k⟩ ∈ new ∧ b.cap ≤ k)
  len : b.len = xs.length
  le : b.len ≤ b.cap
  bytes : ∀ i < b.len, s.mem (b.buf + i) = xs.getD i 0

variable {A : Allocator} {s₀ s : State} {b : Buf} {xs src : List UInt8} {need fuel c a n p : Nat} {new : List Block}

theorem enlarge_eq (hc : c ≤ 2 ^ 63) (hneed : need < 2 ^ 62) (hf : need ≤ c * 2 ^ fuel) :
    ∃ newcap, enlarge need (fuel + 1) c s = .ok (newcap, s) ∧ need ≤ newcap ∧ newcap ≤ 2 ^ 63 := by
  induction fuel generalizing c with
  | zero => exact ⟨c, by rw [enlarge, if_neg (by omega)]; rfl, by omega, hc⟩
  | succ fuel ih =>
    rw [enlarge]
    split
    · rw [Nat.mod_eq_of_lt (by omega)]
      exact ih (by omega) (by rwa [Nat.mul_assoc, ← Nat.pow_succ'])
    · exact ⟨c, rfl, by omega, hc⟩

theorem grows_overlay (h : Grows s₀ s new) (hin : n = 0 ∨ ∃ k, ⟨p, k⟩ ∈ new ∧ p ≤ a ∧ a + n ≤ p + k)
    (v : Nat → UInt8) : Grows s₀ (s.put (overlay s.mem a n v)) new := by
  refine h.put fun d hd i hi => ?_
  rcases hin with rfl | ⟨k, hk, hle, hn⟩
  · rw [overlay, if_neg (by omega)]
  · have hapart : p + k ≤ d.addr ∨ d.addr + d.size ≤ p := h.apart hd hk
    rw [overlay, if_neg (by omega)]

section Steps

variable (h : Holds s₀ s b xs)

include h

theorem Holds.cap_le : b.cap ≤ 2 ^ 47 := by
  obtain ⟨new, hg, ⟨-, hzero⟩ | ⟨k, hk, hle⟩⟩ := h.block
  · omega
  · have : b.buf + k ≤ 2 ^ 47 := (hg.valid.bounds _ (hg.mem_new hk)).2.2
    omega

theorem reserve_ends (hneed : need < 2 ^ 62) :
    Ends exhausted (fun b' t => need ≤ b'.cap ∧ Holds s₀ t b' xs) (reserve A (fuel + 64) b need s) := by
  have hcap := h.cap_le
  have hlen := h.le
  obtain ⟨new, hg, hblock⟩ := h.block
  rw [reserve]
  split
  · obtain ⟨newcap, he, hn, hle⟩ : ∃ newcap, enlarge need (fuel + 64) (if b.cap = 0 then 64 else b.cap * 2 % 2 ^ 64) s =
        .ok (newcap, s) ∧ need ≤ newcap ∧ newcap ≤ 2 ^ 63 := by
      -- 64 doublings reach any length that the sum may have, and none of them wraps
      have hfuel : 2 ^ 63 ≤ 2 ^ (fuel + 63) := Nat.pow_le_pow_right (by omega) (by omega)
      refine enlarge_eq (by split <;> omega) hneed (le_trans (by omega) (Nat.mul_le_mul (?_ : 1 ≤ _) hfuel))
      split <;> omega
    rw [run_bind_ok he]
    apply ends_bind
    refine (allocate_ends hg.valid (by omega)).mono ?_
    intro nb t ht
    have hsize := le_payloadSize (n := newcap) (by omega)
    generalize Alloc.Allocator.payloadSize newcap = z at ht hsize
    have hgrow := hg.trans ht
    have hnb : (⟨nb, z⟩ : Block) ∈ [⟨nb, z⟩] ++ new := by simp
    rcases hblock with ⟨hbuf, hzero⟩ | ⟨k, hk, hcapk⟩
    · -- without a block there is nothing to copy
      rw [if_neg (by omega)]
      exact .ok ⟨hn, ⟨_, hgrow, .inr ⟨_, hnb, hsize⟩⟩, h.len, by dsimp only; omega, fun i hi => by dsimp only at hi; omega⟩
    · have hpos : 0 < b.buf := (hg.valid.bounds _ (hg.mem_new hk)).1
      have hold : s.holds b.buf b.len := holds_of_mem (hg.mem_new hk) (le_refl _) (by dsimp only; omega)
      have hdst : t.holds nb b.len := holds_of_mem (hgrow.mem_new hnb) (le_refl _) (by dsimp only; omega)
      have hcopy : memcpy nb b.buf b.len t = .ok ((), t.put (copy t.mem nb b.buf b.len)) :=
        memcpy_put hdst (ht.holds hold) t.mem
      rw [if_pos (by omega), run_bind_ok hcopy]
      refine .ok ⟨hn, ⟨_, grows_overlay hgrow (.inr ⟨_, hnb, le_refl _, by omega⟩) _, .inr ⟨_, hnb, hsize⟩⟩, h.len,
        by dsimp only; omega, fun i hi => ?_⟩
      rw [mem_put, copy, overlay_at _ _ _ hi, ← h.bytes i hi, ht.agree hold i hi]
  · exact .ok ⟨by omega, h⟩

theorem bufAppend_ends (hsum : (xs ++ src).length < 2 ^ 62) :
    Ends exhausted (fun b' t => Holds s₀ t b' (xs ++ src)) (bufAppend A (fuel + 64) b src s) := by
  rw [length_append, ← h.len] at hsum
  rw [bufAppend, Nat.mod_eq_of_lt (by omega)]
  apply ends_bind
  refine (reserve_ends h (by omega)).mono ?_
  rintro b' t ⟨hcap, hb⟩
  rw [h.len, ← hb.len] at hcap hsum
  obtain ⟨new, hg, hblock⟩ := hb.block
  have hroom : src.length = 0 ∨ ∃ k, ⟨b'.buf, k⟩ ∈ new ∧ b'.buf ≤ b'.buf + b'.len ∧
      b'.buf + b'.len + src.length ≤ b'.buf + k := by
    rcases hblock with ⟨-, hzero⟩ | ⟨k, hk, hle⟩
    · exact .inl (by omega)
    · exact .inr ⟨k, hk, by omega, by omega⟩
  have hwrite : writeBytes (b'.buf + b'.len) src t =
      .ok ((), t.put (overlay t.mem (b'.buf + b'.len) src.length fun i => src.getD i 0)) :=
    if_pos (hroom.imp_right fun ⟨k, hk, hle⟩ => holds_of_mem (hg.mem_new hk) hle.1 hle.2)
  rw [run_bind_ok hwrite, Nat.mod_eq_of_lt (by omega)]
  refine .ok ⟨⟨new, grows_overlay hg hroom _, hblock⟩, by simp [hb.len], hcap, fun i hi => ?_⟩
  dsimp only [mem_put] at hi ⊢
  -- what stood before is below the write, and what is new is what it wrote
  by_cases hold : i < b'.len
  · rw [overlay, if_neg (by omega), hb.bytes i hold, getD_append _ _ _ _ (hb.len ▸ hold)]
  · obtain ⟨j, rfl⟩ := Nat.exists_eq_add_of_le (Nat.le_of_not_lt hold)
    rw [← Nat.add_assoc, overlay_at _ _ _ (by omega), hb.len, getD_append_right _ _ _ _ (by omega),
      Nat.add_sub_cancel_left]

theorem appendAll_ends {pieces : List (List UInt8)} (hsum : (xs ++ pieces.flatten).length < 2 ^ 62) :
    Ends exhausted (fun b' t => Holds s₀ t b' (xs ++ pieces.flatten)) (pieces.foldlM (bufAppend A (fuel + 64)) b s) := by
  induction pieces generalizing s b xs with
  | nil => exact .ok (by simpa using h)
  | cons src pieces ih =>
    rw [flatten_cons, ← append_assoc] at hsum ⊢
    apply ends_bind
    refine (bufAppend_ends h (Nat.lt_of_le_of_lt (by simp) hsum)).mono ?_
    intro b' t hb
    exact ih hb hsum

end Steps

/-- Whatever the allocator gives, the appends return with all pieces in a block
of their own, or they end for want of memory. -/
theorem buf_append (hs : s.Valid) (pieces : List (List UInt8)) (hsum : pieces.flatten.length < 2 ^ 62) (fuel : Nat) :
    Ends exhausted (fun b t => b.len = pieces.flatten.length ∧ b.len ≤ b.cap ∧
        (∀ i < b.len, t.mem (b.buf + i) = pieces.flatten.getD i 0) ∧
        (b.cap = 0 ∨ ∃ k, ⟨b.buf, k⟩ ∈ t.live ∧ b.cap ≤ k) ∧
        ∀ c ∈ s.live, c ∈ t.live ∧ Agree s.mem t.mem c.addr c.size)
      (pieces.foldlM (bufAppend A (fuel + 64)) ⟨0, 0, 0⟩ s) := by
  have hstart : Holds s s ⟨0, 0, 0⟩ [] := ⟨⟨[], .refl hs, .inl ⟨rfl, rfl⟩⟩, rfl, le_refl _, fun i hi => by cases hi⟩
  refine (appendAll_ends hstart hsum).mono fun b t hb => ?_
  obtain ⟨new, hg, hblock⟩ := hb.block
  refine ⟨hb.len, hb.le, hb.bytes, ?_, fun c hc => ⟨hg.mem hc, hg.kept c hc⟩⟩
  exact hblock.imp And.right fun ⟨k, hk, hle⟩ => ⟨k, hg.mem_new hk, hle⟩

/-- Two pieces, for the second of which the buffer grows. -/
theorem buf_append_grown : ∃ b t, [[1, 2], List.replicate 70 3].foldlM (bufAppend bump 64) ⟨0, 0, 0⟩ start = .ok (b, t) ∧
    b.len = 72 ∧ t.mem (b.buf + 71) = 3 := by
  refine ⟨_, _, rfl, rfl, ?_⟩
  have h := buf_append (A := bump) start_valid [[1, 2], List.replicate 70 3] (by decide) 0
  exact h.of_ok.2.2.1 71 (by decide)

end Picasso.Strings.Buffer
