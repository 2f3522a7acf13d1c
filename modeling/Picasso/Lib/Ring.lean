import Mathlib.Data.List.Nodup
import Mathlib.Logic.Function.Basic
import Mathlib.Tactic.Tauto

namespace Picasso.Lib.Ring

open List Function

variable {α : Type}

/-- From `x` the `next` links run through `l` and end at `y`, and the `prev`
links run back the same way. A circular list with head `h` is a path from
`h` to `h`. -/
def Path (next prev : α → α) : α → List α → α → Prop
  | x, [], y => next x = y ∧ prev y = x
  | x, z :: l, y => next x = z ∧ prev z = x ∧ Path next prev z l y

variable {x y : α} {next prev next' prev' : α → α} {l l₁ l₂ : List α}

theorem path_append {z : α} :
    Path next prev x (l₁ ++ z :: l₂) y ↔ Path next prev x l₁ z ∧ Path next prev z l₂ y := by
  induction l₁ generalizing x with
  | nil => simp [Path, and_assoc]
  | cons a l₁ ih => simp [Path, ih, and_assoc]

theorem Path.congr (h : Path next prev x l y)
    (hn : ∀ a ∈ x :: l, next' a = next a) (hp : ∀ a ∈ l ++ [y], prev' a = prev a) : Path next' prev' x l y := by
  induction l generalizing x with
  | nil =>
    obtain ⟨h1, h2⟩ := h
    exact ⟨(hn x (by simp)).trans h1, (hp y (by simp)).trans h2⟩
  | cons z l ih =>
    obtain ⟨h1, h2, h3⟩ := h
    refine ⟨(hn x (by simp)).trans h1, (hp z (by simp)).trans h2, ?_⟩
    refine ih h3 (fun a ha => hn a ?_) (fun a ha => hp a ?_)
    · exact mem_cons_of_mem x ha
    · exact mem_cons_of_mem z ha

theorem Path.congr_ring (h : Path next prev x l x)
    (hl : ∀ a, a = x ∨ a ∈ l → next' a = next a ∧ prev' a = prev a) : Path next' prev' x l x := by
  apply h.congr
  · intro a ha
    exact (hl a (by simpa using ha)).1
  · intro a ha
    exact (hl a (by simpa [or_comm] using ha)).2

/-- The node that follows `l₁` on a path through `l₁ ++ l₂` to `y`. -/
def first (l : List α) (y : α) : α := l.head?.getD y

theorem Path.next_eq (h : Path next prev x l y) : next x = first l y := by
  cases l with
  | nil => exact h.1
  | cons z l => exact h.1

theorem Path.prev_first (h : Path next prev x l y) : prev (first l y) = x := by
  cases l with
  | nil => exact h.2
  | cons z l => exact h.2.1

theorem first_mem (l : List α) (y : α) : first l y ∈ l ++ [y] := by
  cases l with
  | nil => simp [first]
  | cons z l => simp [first]

theorem Path.prev_mem {l₁ k : List α} (h : Path next prev x (l₁ ++ k) y) :
    prev (first k y) ∈ x :: l₁ := by
  induction l₁ generalizing x with
  | nil =>
    rw [nil_append] at h
    simp [h.prev_first]
  | cons a l₁ ih => exact mem_cons_of_mem x (ih h.2.2)

theorem Path.link_mem {h z : α} (hp : Path next prev h (l₁ ++ z :: l₂) h) :
    prev z ∈ h :: (l₁ ++ z :: l₂) ∧ next z ∈ h :: (l₁ ++ z :: l₂) := by
  constructor
  · have := Path.prev_mem (k := z :: l₂) hp
    simp only [first, head?_cons, Option.getD_some, mem_cons, mem_append] at this ⊢
    tauto
  · have := first_mem l₂ h
    rw [(path_append.mp hp).2.next_eq]
    simp only [mem_append, mem_cons, not_mem_nil] at this ⊢
    tauto

theorem Path.rotate {z : α} (h : Path next prev x (l₁ ++ z :: l₂) x) :
    Path next prev z (l₂ ++ x :: l₁) z := by
  obtain ⟨h1, h2⟩ := path_append.mp h
  exact path_append.mpr ⟨h2, h1⟩

section Update

variable [DecidableEq α]

theorem Path.unlink {z : α}
    (h : Path next prev x (l₁ ++ z :: l₂) y) (hn : (x :: (l₁ ++ z :: l₂)).Nodup) (hy : y ∉ l₁ ++ z :: l₂) :
    Path (update next (prev z) (next z)) (update prev (next z) (prev z)) x (l₁ ++ l₂) y := by
  induction l₁ generalizing x with
  | nil =>
    obtain ⟨h1, h2, h3⟩ := h
    rw [h2, h3.next_eq]
    simp only [nil_append] at hn hy ⊢
    cases l₂ with
    | nil => exact ⟨by simp [first], by simp [first]⟩
    | cons w l₂ =>
      refine ⟨by simp [first], by simp [first], ?_⟩
      refine h3.2.2.congr (fun a ha => ?_) (fun a ha => ?_)
      · refine update_of_ne ?_ _ _
        rintro rfl
        exact (nodup_cons.mp hn).1 (mem_cons_of_mem z ha)
      · refine update_of_ne ?_ _ _
        rintro rfl
        rcases mem_append.mp ha with ha | ha
        · exact (nodup_cons.mp (nodup_cons.mp (nodup_cons.mp hn).2).2).1 ha
        · exact hy (by simp [← mem_singleton.mp ha])
  | cons a l₁ ih =>
    obtain ⟨h1, h2, h3⟩ := h
    have hz := path_append.mp h3
    have hrec := ih h3 (List.Nodup.of_cons hn) (fun hm => hy (mem_cons_of_mem a hm))
    have hlast : prev z ∈ a :: l₁ := Path.prev_mem (k := z :: l₂) h3
    have hx : prev z ≠ x := by
      rintro rfl
      simp only [cons_append, nodup_cons, mem_cons] at hn
      apply hn.1
      rcases mem_cons.mp hlast with h | h
      · exact .inl h
      · exact .inr (mem_append_left _ h)
    have ha : next z ≠ a := by
      have hm := first_mem l₂ y
      rw [hz.2.next_eq]
      rintro rfl
      rcases mem_append.mp hm with hm | hm
      · simp [hm] at hn
      · simp only [mem_singleton] at hm
        simp [hm] at hy
    refine ⟨?_, ?_, hrec⟩
    · rw [update_of_ne hx.symm]
      exact h1
    · rw [update_of_ne ha.symm]
      exact h2

theorem Path.insert {p : α} (h : Path next prev x (l₁ ++ l₂) y)
    (hn : (x :: (l₁ ++ l₂)).Nodup) (hy : y ∉ l₁ ++ l₂) (hp : p ∉ x :: (l₁ ++ l₂)) (hpy : p ≠ y) :
    Path (update (update next p (first l₂ y)) (prev (first l₂ y)) p)
      (update (update prev p (prev (first l₂ y))) (first l₂ y) p) x (l₁ ++ p :: l₂) y := by
  induction l₁ generalizing x with
  | nil =>
    simp only [nil_append] at h hn hy hp ⊢
    have hpx : p ≠ x := fun e => hp (by simp [e])
    have hpf : p ≠ first l₂ y := by
      intro e
      rcases mem_append.mp (e ▸ first_mem l₂ y) with hm | hm
      · exact hp (mem_cons_of_mem x hm)
      · exact hpy (by simpa using hm)
    rw [h.prev_first]
    refine ⟨by simp, by simp [hpf], ?_⟩
    cases l₂ with
    | nil => exact ⟨by simp [first, hpx], by simp [first]⟩
    | cons w l₂ =>
      refine ⟨by simp [first, hpx], by simp [first], ?_⟩
      refine h.2.2.congr (fun a ha => ?_) (fun a ha => ?_)
      · have hax : a ≠ x := by
          rintro rfl
          exact (nodup_cons.mp hn).1 ha
        have hap : a ≠ p := by
          rintro rfl
          exact hp (mem_cons_of_mem x ha)
        simp [hax, hap]
      · have haw : a ≠ w := by
          rintro rfl
          rcases mem_append.mp ha with ha | ha
          · exact (nodup_cons.mp (nodup_cons.mp hn).2).1 ha
          · exact hy (by simp [mem_singleton.mp ha])
        have hap : a ≠ p := by
          rintro rfl
          rcases mem_append.mp ha with ha | ha
          · exact hp (by simp [ha])
          · exact hpy (mem_singleton.mp ha)
        simp [first, haw, hap]
  | cons a l₁ ih =>
    obtain ⟨h1, h2, h3⟩ := h
    have hrec := ih h3 (List.Nodup.of_cons hn) (fun hm => hy (mem_cons_of_mem a hm))
      (fun hm => hp (mem_cons_of_mem x hm))
    have hlast : prev (first l₂ y) ∈ a :: l₁ := Path.prev_mem h3
    have hx : prev (first l₂ y) ≠ x := by
      rintro rfl
      apply (nodup_cons.mp hn).1
      rcases mem_cons.mp hlast with h | h
      · simp [← h]
      · exact mem_cons_of_mem _ (mem_append_left _ h)
    have ha : first l₂ y ≠ a := by
      rintro rfl
      rcases mem_append.mp (first_mem l₂ y) with hm | hm
      · apply (nodup_cons.mp (nodup_cons.mp hn).2).1
        exact mem_append_right _ hm
      · exact hy (mem_cons.mpr (.inl (mem_singleton.mp hm).symm))
    have hpx : p ≠ x := fun e => hp (by simp [e])
    have hpa : p ≠ a := fun e => hp (by simp [e])
    refine ⟨?_, ?_, hrec⟩
    · simp [hx.symm, hpx.symm, h1]
    · simp [ha.symm, hpa.symm, h2]

end Update

section Circle

variable {h p z : α}

def Circle (next prev : α → α) : List α → Prop
  | [] => True
  | h :: l => (h :: l).Nodup ∧ Path next prev h l h

theorem Circle.nodup (hc : Circle next prev l) : l.Nodup := by
  cases l with
  | nil => exact nodup_nil
  | cons h l => exact hc.1

theorem Circle.congr (hc : Circle next prev l) (hn : ∀ a ∈ l, next' a = next a) (hp : ∀ a ∈ l, prev' a = prev a) :
    Circle next' prev' l := by
  cases l with
  | nil => trivial
  | cons h l =>
    refine ⟨hc.1, hc.2.congr hn fun a ha => hp a ?_⟩
    rcases mem_append.mp ha with ha | ha
    · exact mem_cons_of_mem h ha
    · simp [mem_singleton.mp ha]

theorem Circle.rotate (hc : Circle next prev (l₁ ++ l₂)) : Circle next prev (l₂ ++ l₁) := by
  cases l₁ with
  | nil => simpa using hc
  | cons h l₁ =>
    cases l₂ with
    | nil => simpa using hc
    | cons z l₂ =>
      obtain ⟨hnodup, hpath⟩ := hc
      have hperm : (h :: l₁ ++ z :: l₂).Perm (z :: l₂ ++ h :: l₁) := perm_append_comm
      exact ⟨hperm.nodup hnodup, hpath.rotate⟩

theorem Circle.neighbours_ne (hc : Circle next prev l) (hz : z ∈ l) (hlen : 2 ≤ l.length) : next z ≠ z ∧ prev z ≠ z := by
  obtain ⟨l₁, l₂, rfl⟩ := append_of_mem hz
  have hr : Circle next prev (z :: (l₂ ++ l₁)) := by simpa using hc.rotate
  cases hl : l₂ ++ l₁ with
  | nil =>
    simp only [append_eq_nil_iff] at hl
    simp [hl] at hlen
  | cons a l =>
    rw [hl] at hr
    obtain ⟨hnodup, hpath⟩ := hr
    have hza := (nodup_cons.mp hnodup).1
    have hback : Path next prev a (l ++ []) z := by simpa using hpath.2.2
    refine ⟨?_, fun he => hza ?_⟩
    · rw [hpath.1]
      rintro rfl
      exact hza mem_cons_self
    · have := hback.prev_mem
      rwa [show first [] z = z from rfl, he] at this

variable [DecidableEq α]

theorem Circle.push (hc : Circle next prev (h :: l)) (hp : p ∉ h :: l) :
    Circle (update (update next p h) (prev h) p)
      (update (update prev p (prev h)) h p) (p :: h :: l) := by
  obtain ⟨hnodup, hpath⟩ := hc
  rw [← append_nil l] at hpath
  have hins := hpath.insert (p := p) (by simpa using hnodup) (by simpa using (nodup_cons.mp hnodup).1)
    (by simpa using hp) (fun e => hp (by simp [e]))
  refine ⟨nodup_cons.mpr ⟨hp, hnodup⟩, ?_⟩
  simpa [first] using hins.rotate

theorem Circle.unlink (hc : Circle next prev (l₁ ++ z :: l₂)) (hlen : l₁ ++ l₂ ≠ []) :
    Circle (update next (prev z) (next z)) (update prev (next z) (prev z)) (l₁ ++ l₂) := by
  cases l₁ with
  | cons h l₁ =>
    obtain ⟨hnodup, hpath⟩ := hc
    refine ⟨hnodup.sublist (by simp), hpath.unlink hnodup ?_⟩
    exact (nodup_cons.mp hnodup).1
  | nil =>
    cases l₂ with
    | nil => exact absurd rfl hlen
    | cons a l₂ =>
      -- the ring is read from the second node on
      have hr : Circle next prev ([z] ++ a :: l₂) := hc
      obtain ⟨hnodup, hpath⟩ : Circle next prev (a :: (l₂ ++ [z])) := hr.rotate
      refine ⟨hnodup.sublist (by simp), ?_⟩
      simpa using hpath.unlink hnodup (nodup_cons.mp hnodup).1

end Circle

/-- The elements from `p` on that `next` leads through before `stop`. -/
def follow [DecidableEq α] (next : α → α) (stop : α) : Nat → α → Option (List α)
  | 0, _ => none
  | n + 1, p => if p = stop then some [] else (follow next stop n (next p)).map (p :: ·)

theorem follow_cons [DecidableEq α] {next : α → α} {stop p : α} {n : Nat} {l : List α} (hp : p ≠ stop)
    (h : follow next stop n (next p) = some l) : follow next stop (n + 1) p = some (p :: l) := by
  rw [follow, if_neg hp, h]
  rfl

theorem Path.follow [DecidableEq α] {n : Nat} (h : Path next prev x l y) (hy : y ∉ l)
    (hn : l.length < n) : follow next y n (next x) = some l := by
  induction l generalizing x n with
  | nil =>
    cases n with
    | zero => cases hn
    | succ n => rw [Ring.follow, if_pos h.1]
  | cons z l ih =>
    cases n with
    | zero => cases hn
    | succ n =>
      simp only [mem_cons, not_or] at hy
      rw [h.1]
      exact follow_cons (Ne.symm hy.1) (ih h.2.2 hy.2 (by simpa using hn))

end Picasso.Lib.Ring
