import Picasso.Lexing.Scan

namespace Picasso.Lexing

open List Option Pattern

variable {b c : Bytes} {p : Pattern} {n : Nat} {q : UInt8 → Bool}

theorem count_le (q : UInt8 → Bool) (b : Bytes) : count q b ≤ b.length := (takeWhile_sublist q).length_le

theorem count_append_of_lt (h : count q b < b.length) (c : Bytes) : count q (b ++ c) = count q b := by
  induction b with
  | nil => cases h
  | cons x b ih =>
    by_cases hx : q x = true
    · simp only [count, takeWhile_cons_of_pos hx, length_cons, cons_append] at h ih ⊢
      rw [ih (by omega)]
    · simp [count, hx]

theorem count_append_of_eq (h : count q b = b.length) (c : Bytes) :
    count q (b ++ c) = b.length + count q c := by
  induction b with
  | nil => simp
  | cons x b ih =>
    by_cases hx : q x = true
    · simp only [count, takeWhile_cons_of_pos hx, length_cons, cons_append] at h ih ⊢
      rw [ih (by omega)]
      omega
    · simp [count, hx] at h

theorem count_mono (q : UInt8 → Bool) (b c : Bytes) : count q b ≤ count q (b ++ c) := by
  rcases Nat.lt_or_eq_of_le (count_le q b) with h | h
  · exact Nat.le_of_eq (count_append_of_lt h c).symm
  · rw [count_append_of_eq h]
    omega

theorem count_of_le (c : Bytes) (h : count q (b ++ c) ≤ b.length) : count q b = count q (b ++ c) := by
  rcases Nat.lt_or_eq_of_le (count_le q b) with hlt | heq
  · exact (count_append_of_lt hlt c).symm
  · rw [count_append_of_eq heq] at h ⊢
    omega

theorem stringEnd_quote (bs : Bytes) : stringEnd (34 :: bs) = some 1 := by
  rw [stringEnd.eq_def]
  rfl

theorem stringEnd_escape (e : UInt8) (bs : Bytes) :
    stringEnd (92 :: e :: bs) = if e = 10 then none else (stringEnd bs).map (· + 2) := by
  rw [stringEnd.eq_def]
  rfl

theorem stringEnd_other {x : UInt8} (hq : x ≠ 34) (hb : x ≠ 92) (bs : Bytes) :
    stringEnd (x :: bs) = (stringEnd bs).map (· + 1) := by
  rw [stringEnd.eq_def]
  simp only [if_neg hq, if_neg hb]

theorem stringEnd_le (h : stringEnd b = some n) : 0 < n ∧ n ≤ b.length := by
  fun_induction stringEnd b generalizing n with
  | case1 => cases h
  | case2 bs =>
    cases h
    simp
  | case3 => cases h
  | case4 => cases h
  | case5 e bs he hq ih | case6 x bs hq hb ih =>
    obtain ⟨k, hk, rfl⟩ := map_eq_some_iff.mp h
    have := ih hk
    simp only [length_cons]
    omega

theorem stringEnd_append (h : stringEnd b = some n) (c : Bytes) : stringEnd (b ++ c) = some n := by
  fun_induction stringEnd b generalizing n with
  | case1 => cases h
  | case2 bs => rw [cons_append, stringEnd_quote, h]
  | case3 => cases h
  | case4 => cases h
  | case5 e bs he hq ih =>
    obtain ⟨k, hk, rfl⟩ := map_eq_some_iff.mp h
    rw [cons_append, cons_append, stringEnd_escape, if_neg he, ih hk, map_some]
  | case6 x bs hq hb ih =>
    obtain ⟨k, hk, rfl⟩ := map_eq_some_iff.mp h
    rw [cons_append, stringEnd_other hq hb, ih hk, map_some]

theorem stringEnd_of_le (h : stringEnd (b ++ c) = some n) (hn : n ≤ b.length) : stringEnd b = some n := by
  fun_induction stringEnd b generalizing n with
  | case1 =>
    have := stringEnd_le h
    simp only [length_nil] at hn
    omega
  | case2 bs => rwa [cons_append, stringEnd_quote] at h
  | case3 hq =>
    -- the byte after the backslash is not in the buffer
    cases c with
    | nil => exact h
    | cons e c =>
      rw [singleton_append, stringEnd_escape] at h
      split at h
      · cases h
      · obtain ⟨k, hk, rfl⟩ := map_eq_some_iff.mp h
        simp only [length_singleton] at hn
        omega
  | case4 bs hq => rwa [cons_append, cons_append, stringEnd_escape, if_pos rfl] at h
  | case5 e bs he hq ih =>
    rw [cons_append, cons_append, stringEnd_escape, if_neg he] at h
    obtain ⟨k, hk, rfl⟩ := map_eq_some_iff.mp h
    simp only [length_cons] at hn
    rw [ih hk (by omega), map_some]
  | case6 x bs hq hb ih =>
    rw [cons_append, stringEnd_other hq hb] at h
    obtain ⟨k, hk, rfl⟩ := map_eq_some_iff.mp h
    simp only [length_cons] at hn
    rw [ih hk (by omega), map_some]

theorem nonzero_eq_some {m n : Nat} : nonzero m = some n ↔ m = n ∧ n ≠ 0 := by
  rw [nonzero]
  split
  · simp; omega
  · simp; omega

theorem fraction_le (b : Bytes) : fraction b ≤ b.length := by
  cases b with
  | nil => exact Nat.le_refl _
  | cons x bs =>
    have := count_le isDigit bs
    simp only [fraction, length_cons]
    split <;> omega

theorem fraction_of_le (c : Bytes) (h : fraction (b ++ c) ≤ b.length) : fraction b = fraction (b ++ c) := by
  cases b with
  | nil => exact (Nat.le_zero.mp h).symm
  | cons x bs =>
    simp only [cons_append, fraction, length_cons] at h ⊢
    by_cases hx : x = 46 ∧ count isDigit (bs ++ c) ≠ 0
    · rw [if_pos hx] at h ⊢
      have hc := count_of_le (q := isDigit) (b := bs) c (by omega)
      rw [hc, if_pos hx]
    · have := count_mono isDigit bs c
      rw [if_neg hx, if_neg]
      rintro ⟨rfl, hne⟩
      exact hx ⟨rfl, by omega⟩

def Pattern.sized : Pattern → Bool
  | .fixed _ value => value ≠ []
  | _ => true

theorem patterns_sized : ∀ p ∈ patterns, p.sized = true := by
  decide +kernel

theorem find_le (hp : p.sized = true) (h : p.find b = some n) : 0 < n ∧ n ≤ b.length := by
  cases p with
  | space =>
    have := nonzero_eq_some.mp h
    have := count_le isSpace b
    omega
  | comment =>
    simp only [find] at h
    split at h
    · rename_i hb
      cases h
      have := hb.length_le
      have := count_le (· ≠ 10) (b.drop 2)
      simp only [length_drop] at this
      simp only [show (ascii "//").length = 2 from rfl] at *
      omega
    · cases h
  | string =>
    simp only [find] at h
    split at h
    · obtain ⟨k, hk, rfl⟩ := map_eq_some_iff.mp h
      have := stringEnd_le hk
      simp only [length_tail] at this
      omega
    · cases h
  | number =>
    obtain ⟨k, hk, rfl⟩ := map_eq_some_iff.mp h
    have := nonzero_eq_some.mp hk
    have := fraction_le (b.drop k)
    have := count_le isDigit b
    simp only [length_drop] at *
    omega
  | symbol =>
    simp only [find] at h
    split at h
    · cases h
      cases b with
      | nil => simp at *
      | cons x bs =>
        have := count_le (fun c => isLetter c || isDigit c) bs
        simp only [tail_cons, length_cons]
        omega
    · cases h
  | fixed kind value =>
    simp only [find] at h
    split at h
    · rename_i hb
      cases h
      simp only [sized, decide_eq_true_eq] at hp
      exact ⟨length_pos_iff.mpr hp, hb.length_le⟩
    · cases h

theorem find_append (h : p.find b = some n) (c : Bytes) : ∃ m, p.find (b ++ c) = some m := by
  cases p with
  | space =>
    have := nonzero_eq_some.mp h
    have := count_mono isSpace b c
    exact ⟨_, nonzero_eq_some.mpr ⟨rfl, by omega⟩⟩
  | comment | fixed kind value =>
    simp only [find] at h ⊢
    split at h
    · rename_i hb
      exact ⟨_, if_pos (hb.trans (prefix_append b c))⟩
    · cases h
  | string =>
    simp only [find] at h ⊢
    split at h
    · rename_i hb
      obtain ⟨k, hk, rfl⟩ := map_eq_some_iff.mp h
      cases b with
      | nil => cases hb
      | cons x bs =>
        rw [tail_cons] at hk
        refine ⟨k + 1, ?_⟩
        rw [cons_append, if_pos (by simpa using hb), tail_cons, stringEnd_append hk, map_some]
    · cases h
  | number =>
    obtain ⟨k, hk, rfl⟩ := map_eq_some_iff.mp h
    have := nonzero_eq_some.mp hk
    have := count_mono isDigit b c
    exact ⟨_, map_eq_some_iff.mpr ⟨_, nonzero_eq_some.mpr ⟨rfl, by omega⟩, rfl⟩⟩
  | symbol =>
    simp only [find] at h ⊢
    split at h
    · rename_i hb
      cases b with
      | nil => cases hb
      | cons x bs => exact ⟨_, if_pos hb⟩
    · cases h

theorem find_of_le (h : p.find (b ++ c) = some n) (hn : n ≤ b.length) : p.find b = some n := by
  cases p with
  | space =>
    obtain ⟨hc, h0⟩ := nonzero_eq_some.mp h
    rw [find, count_of_le c (by omega)]
    exact nonzero_eq_some.mpr ⟨hc, h0⟩
  | comment =>
    simp only [find] at h ⊢
    split at h
    · rename_i hb
      cases h
      have hlen : 2 ≤ b.length := by omega
      rw [drop_append_of_le_length hlen] at hn ⊢
      rw [if_pos (prefix_of_prefix_length_le hb (prefix_append b c) hlen),
        count_of_le c (by rw [length_drop]; omega)]
    · cases h
  | string =>
    simp only [find] at h ⊢
    split at h
    · rename_i hb
      obtain ⟨k, hk, rfl⟩ := map_eq_some_iff.mp h
      cases b with
      | nil => simp at hn
      | cons x bs =>
        rw [cons_append, tail_cons] at hk
        rw [if_pos (by simpa using hb), tail_cons, stringEnd_of_le hk (by simpa using hn)]
        rfl
    · cases h
  | number =>
    obtain ⟨k, hk, rfl⟩ := map_eq_some_iff.mp h
    obtain ⟨hc, h0⟩ := nonzero_eq_some.mp hk
    have hlen : k ≤ b.length := by omega
    rw [drop_append_of_le_length hlen] at hn ⊢
    rw [find, count_of_le c (by omega), hk, map_some,
      fraction_of_le c (by rw [length_drop]; omega)]
  | symbol =>
    simp only [find] at h ⊢
    split at h
    · rename_i hb
      cases h
      cases b with
      | nil => simp at hn
      | cons x bs =>
        simp only [cons_append, tail_cons, length_cons] at hn ⊢
        rw [if_pos (by simpa using hb), count_of_le c (by omega)]
    · cases h
  | fixed kind value =>
    simp only [find] at h ⊢
    split at h
    · rename_i hb
      cases h
      rw [if_pos (prefix_of_prefix_length_le hb (prefix_append b c) hn)]
    · cases h

theorem firstMatch_mem (h : firstMatch b = some (p, n)) : p ∈ patterns ∧ p.find b = some n := by
  obtain ⟨q, hq, hf⟩ := exists_of_findSome?_eq_some h
  obtain ⟨k, hk, he⟩ := map_eq_some_iff.mp hf
  cases he
  exact ⟨hq, hk⟩

theorem firstMatch_le (h : firstMatch b = some (p, n)) : 0 < n ∧ n ≤ b.length := by
  obtain ⟨hp, hf⟩ := firstMatch_mem h
  exact find_le (patterns_sized p hp) hf

theorem firstMatch_of_le (h : firstMatch (b ++ c) = some (p, n)) (hn : n ≤ b.length) : firstMatch b = some (p, n) := by
  obtain ⟨qs, q, rs, hsplit, hq, hnone⟩ := findSome?_eq_some_iff.mp h
  obtain ⟨k, hk, he⟩ := map_eq_some_iff.mp hq
  cases he
  refine findSome?_eq_some_iff.mpr ⟨qs, p, rs, hsplit, by rw [find_of_le hk hn]; rfl, fun x hx => ?_⟩
  cases hf : x.find b with
  | none => rfl
  | some m =>
    obtain ⟨m', hm'⟩ := find_append hf c
    have := hnone x hx
    simp [hm'] at this

theorem firstMatch_none (h : firstMatch (b ++ c) = none) : firstMatch b = none := by
  cases hf : firstMatch b with
  | none => rfl
  | some r =>
    obtain ⟨hp, hr⟩ := firstMatch_mem (p := r.1) (n := r.2) hf
    obtain ⟨m, hm⟩ := find_append hr c
    have := findSome?_eq_none_iff.mp h r.1 hp
    simp [hm] at this

theorem firstMatch_nil : firstMatch [] = none := by decide +kernel

theorem firstMatch_space_iff (b : Bytes) : firstMatch b = some (.space, count isSpace b) ↔ count isSpace b ≠ 0 := by
  constructor
  · intro h
    exact (nonzero_eq_some.mp (firstMatch_mem h).2).2
  · intro h
    exact findSome?_eq_some_iff.mpr ⟨[], .space, _, rfl, by rw [find, nonzero, if_neg h]; rfl, by simp⟩

end Picasso.Lexing
