import Mathlib.Data.List.Pairwise
import Mathlib.Logic.Function.Basic
import Mathlib.Order.Basic

namespace Picasso.Alloc.Layout

open Function

/-- The pieces that the memory of an arena consists of: the chunks of a heap
and the boundary behind them, the heads of the bins, and the blocks that
`mmap` serves directly. -/
inductive Cell
  | chunk (size : Nat)
  | bound
  | sentinel
  | block (size : Nat)
  deriving DecidableEq

namespace Cell

def extent : Cell → Nat
  | .chunk z | .block z => 16 + z
  | .bound => 32
  | .sentinel => 48

def inHeap : Cell → Bool
  | .chunk _ | .bound => true
  | _ => false

@[simp] theorem extent_chunk (z : Nat) : (chunk z).extent = 16 + z := rfl

theorem lt_chunk {o z : Nat} (h : o < 16 + z) : o < (chunk z).extent := h

@[simp] theorem extent_block (z : Nat) : (block z).extent = 16 + z := rfl

@[simp] theorem extent_bound : bound.extent = 32 := rfl

@[simp] theorem extent_sentinel : sentinel.extent = 48 := rfl

@[simp] theorem inHeap_chunk (z : Nat) : (chunk z).inHeap = true := rfl

@[simp] theorem inHeap_bound : bound.inHeap = true := rfl

@[simp] theorem inHeap_block (z : Nat) : (block z).inHeap = false := rfl

@[simp] theorem inHeap_sentinel : sentinel.inHeap = false := rfl

end Cell

open Cell

/-- No two cells overlap, and the chunks of every heap follow each other
without a gap from its start to the boundary at its end. -/
structure Tiled (cell : Nat → Option Cell) (heaps : List (Nat × Nat)) : Prop where
  pos : ∀ c x, cell c = some x → 0 < c
  chunk : ∀ c z, cell c = some (.chunk z) → c % 16 = 0 ∧ z % 16 = 0 ∧ 32 ≤ z
  block : ∀ c z, cell c = some (.block z) → c % 16 = 0 ∧ z % 16 = 0 ∧ 32 ≤ z
  apart : ∀ c d x y, cell c = some x → cell d = some y → c < d → c + x.extent ≤ d
  next : ∀ c z, cell c = some (.chunk z) → ∃ y, cell (c + 16 + z) = some y ∧ y.inHeap = true
  pred : ∀ c y, cell c = some y → y.inHeap = true →
    (∃ e, (c, e) ∈ heaps) ∨ ∃ p z, cell p = some (.chunk z) ∧ p + 16 + z = c
  heap : ∀ s e, (s, e) ∈ heaps → s < e ∧ cell e = some .bound ∧ ∃ z, cell s = some (.chunk z)
  inside : ∀ c z, cell c = some (.chunk z) → ∃ s e, (s, e) ∈ heaps ∧ s ≤ c ∧ c + 16 + z ≤ e
  fence : ∀ c, cell c = some .bound → ∃ s, (s, c) ∈ heaps
  disjoint : heaps.Pairwise fun h h' => h.2 + 32 ≤ h'.1 ∨ h'.2 + 32 ≤ h.1

namespace Tiled

variable {cell : Nat → Option Cell} {heaps : List (Nat × Nat)}

variable {c d a s e p z q : Nat} {x y : Cell}

section Cells

variable (h : Tiled cell heaps)

include h

theorem extent_ge (hc : cell c = some x) : 32 ≤ x.extent := by
  cases x with
  | chunk z =>
    have := (h.chunk c z hc).2.2
    simp only [extent]
    omega
  | bound | sentinel => simp
  | block z =>
    have := (h.block c z hc).2.2
    simp only [extent]
    omega

theorem apart_of_ne (hc : cell c = some x) (hd : cell d = some y) (hne : c ≠ d) :
    c + x.extent ≤ d ∨ d + y.extent ≤ c := by
  rcases Nat.lt_or_gt_of_ne hne with hlt | hgt
  · exact .inl (h.apart c d x y hc hd hlt)
  · exact .inr (h.apart d c y x hd hc hgt)

theorem sep {o u : Nat} (hc : cell c = some x) (hd : cell d = some y) (ho : o < x.extent)
    (hu : u < y.extent) (he : c + o = d + u) : c = d ∧ o = u := by
  by_cases hne : c = d
  · subst hne
    exact ⟨rfl, by omega⟩
  · rcases h.apart_of_ne hc hd hne with hlt | hlt <;> omega

theorem interior (hc : cell c = some x) (hlt : c < a) (hgt : a < c + x.extent) : cell a = none := by
  cases ha : cell a with
  | none => rfl
  | some y =>
    have := h.apart c a x y hc ha hlt
    omega

theorem heap_unique {s' e' : Nat} (hh : (s, e) ∈ heaps) (hh' : (s', e') ∈ heaps)
    (ha : s ≤ a ∧ a ≤ e) (ha' : s' ≤ a ∧ a ≤ e') : (s, e) = (s', e') := by
  have hR : Std.Symm fun h h' : Nat × Nat => h.2 + 32 ≤ h'.1 ∨ h'.2 + 32 ≤ h.1 := ⟨fun _ _ => Or.symm⟩
  by_contra hne
  have := h.disjoint.forall hh hh' hne
  omega

theorem start_no_pred (hh : (s, e) ∈ heaps) (hp : cell p = some (.chunk z)) : p + 16 + z ≠ s := by
  intro he
  obtain ⟨s', e', hh', hs', he'⟩ := h.inside p z hp
  have hse := (h.heap s e hh).1
  have := h.heap_unique hh hh' (a := s) ⟨by omega, by omega⟩ ⟨by omega, by omega⟩
  simp only [Prod.mk.injEq] at this
  omega

theorem pred_unique {y : Nat} (hp : cell p = some (.chunk z)) (hq : cell q = some (.chunk y))
    (he : p + 16 + z = q + 16 + y) : p = q := by
  by_contra hne
  rcases h.apart_of_ne hp hq hne with hlt | hlt <;> simp only [extent] at hlt <;> omega

theorem split {r : Nat} (hc : cell c = some (.chunk (r + 16 + q))) (hr : r % 16 = 0 ∧ 32 ≤ r)
    (hq : q % 16 = 0 ∧ 32 ≤ q) :
    Tiled (update (update cell c (some (.chunk r))) (c + 16 + r) (some (.chunk q))) heaps := by
  have hnone : cell (c + 16 + r) = none := h.interior hc (by omega) (by simp only [extent]; omega)
  have hlook : ∀ d x, update (update cell c (some (.chunk r))) (c + 16 + r) (some (.chunk q)) d =
      some x ↔ (d = c ∧ x = .chunk r) ∨ (d = c + 16 + r ∧ x = .chunk q) ∨ (d ≠ c ∧ cell d = some x) := by
    intro d x
    simp only [update_apply]
    grind
  have hal := h.chunk c _ hc
  constructor
  · intro d x hd
    rcases (hlook d x).mp hd with ⟨rfl, -⟩ | ⟨rfl, -⟩ | ⟨-, hd⟩
    · exact h.pos d _ hc
    · omega
    · exact h.pos d x hd
  · intro d z hd
    rcases (hlook d _).mp hd with ⟨rfl, he⟩ | ⟨rfl, he⟩ | ⟨-, hd⟩
    · cases he
      omega
    · cases he
      omega
    · exact h.chunk d z hd
  · intro d z hd
    rcases (hlook d _).mp hd with ⟨-, he⟩ | ⟨-, he⟩ | ⟨-, hd⟩
    · cases he
    · cases he
    · exact h.block d z hd
  · intro a d x y ha hd hlt
    have hout : ∀ {d y}, d ≠ c → cell d = some y → c + 16 + (r + 16 + q) ≤ d ∨ d + y.extent ≤ c := by
      intro d y hne hd
      have := h.apart_of_ne hc hd hne.symm
      simp only [extent_chunk] at this
      omega
    rcases (hlook a x).mp ha with ⟨rfl, rfl⟩ | ⟨rfl, rfl⟩ | ⟨hac, ha⟩ <;>
      rcases (hlook d y).mp hd with ⟨rfl, rfl⟩ | ⟨rfl, rfl⟩ | ⟨hdc, hd⟩
    case inr.inr.inr.inr => exact h.apart a d x y ha hd hlt
    all_goals grind [extent_chunk]
  · intro d z hd
    rcases (hlook d _).mp hd with ⟨rfl, he⟩ | ⟨rfl, he⟩ | ⟨hne, hd⟩
    · cases he
      exact ⟨_, (hlook _ _).mpr (.inr (.inl ⟨rfl, rfl⟩)), rfl⟩
    · cases he
      obtain ⟨y, hy, hin⟩ := h.next c _ hc
      exact ⟨y, (hlook _ _).mpr (.inr (.inr ⟨by omega, by rw [← hy]; congr 1; omega⟩)), hin⟩
    · obtain ⟨y, hy, hin⟩ := h.next d z hd
      by_cases hy' : d + 16 + z = c
      · exact ⟨.chunk r, (hlook _ _).mpr (.inl ⟨hy', rfl⟩), rfl⟩
      · exact ⟨y, (hlook _ _).mpr (.inr (.inr ⟨hy', hy⟩)), hin⟩
  · intro d y hd hin
    rcases (hlook d y).mp hd with ⟨rfl, -⟩ | ⟨rfl, -⟩ | ⟨hne, hd⟩
    · rcases h.pred d _ hc rfl with hs | ⟨p, z, hp, he⟩
      · exact .inl hs
      · exact .inr ⟨p, z, (hlook _ _).mpr (.inr (.inr ⟨by omega, hp⟩)), he⟩
    · exact .inr ⟨c, r, (hlook _ _).mpr (.inl ⟨rfl, rfl⟩), rfl⟩
    · rcases h.pred d y hd hin with hs | ⟨p, z, hp, he⟩
      · exact .inl hs
      · by_cases hpc : p = c
        · subst hpc
          rw [hc] at hp
          cases hp
          exact .inr ⟨_, q, (hlook _ _).mpr (.inr (.inl ⟨rfl, rfl⟩)), by omega⟩
        · exact .inr ⟨p, z, (hlook _ _).mpr (.inr (.inr ⟨hpc, hp⟩)), he⟩
  · intro s e hh
    obtain ⟨hse, he, z, hs⟩ := h.heap s e hh
    have hec : e ≠ c := by
      rintro rfl
      simp [hc] at he
    refine ⟨hse, (hlook _ _).mpr (.inr (.inr ⟨hec, he⟩)), ?_⟩
    by_cases hsc : s = c
    · exact ⟨r, (hlook _ _).mpr (.inl ⟨hsc, rfl⟩)⟩
    · exact ⟨z, (hlook _ _).mpr (.inr (.inr ⟨hsc, hs⟩))⟩
  · intro d z hd
    obtain ⟨s, e, hh, hs, he⟩ := h.inside c _ hc
    rcases (hlook d _).mp hd with ⟨rfl, hx⟩ | ⟨rfl, hx⟩ | ⟨-, hd⟩
    · cases hx
      exact ⟨s, e, hh, hs, by omega⟩
    · cases hx
      exact ⟨s, e, hh, by omega, by omega⟩
    · exact h.inside d z hd
  · intro d hd
    rcases (hlook d _).mp hd with ⟨-, hx⟩ | ⟨-, hx⟩ | ⟨-, hd⟩
    · cases hx
    · cases hx
    · exact h.fence d hd
  · exact h.disjoint

theorem merge {y : Nat} (hc : cell c = some (.chunk z)) (hn : cell (c + 16 + z) = some (.chunk y)) :
    Tiled (update (update cell (c + 16 + z) none) c (some (.chunk (z + 16 + y)))) heaps := by
  have hlook : ∀ d x, update (update cell (c + 16 + z) none) c (some (.chunk (z + 16 + y))) d =
      some x ↔ (d = c ∧ x = .chunk (z + 16 + y)) ∨ (d ≠ c ∧ d ≠ c + 16 + z ∧ cell d = some x) := by
    intro d x
    simp only [update_apply]
    grind
  have hal := h.chunk c _ hc
  have hal' := h.chunk _ _ hn
  constructor
  · intro d x hd
    rcases (hlook d x).mp hd with ⟨rfl, -⟩ | ⟨-, -, hd⟩
    · exact h.pos d _ hc
    · exact h.pos d x hd
  · intro d w hd
    rcases (hlook d _).mp hd with ⟨rfl, he⟩ | ⟨-, -, hd⟩
    · cases he
      omega
    · exact h.chunk d w hd
  · intro d w hd
    rcases (hlook d _).mp hd with ⟨-, he⟩ | ⟨-, -, hd⟩
    · cases he
    · exact h.block d w hd
  · intro a d x w ha hd hlt
    rcases (hlook a x).mp ha with ⟨rfl, rfl⟩ | ⟨hac, han, ha'⟩ <;>
      rcases (hlook d w).mp hd with ⟨rfl, rfl⟩ | ⟨hdc, hdn, hd'⟩
    · omega
    · have := h.apart a d _ w hc hd' hlt
      have := h.apart_of_ne hn hd' hdn.symm
      simp only [extent_chunk] at *
      omega
    · exact h.apart a d x _ ha' hc hlt
    · exact h.apart a d x w ha' hd' hlt
  · intro d w hd
    rcases (hlook d _).mp hd with ⟨rfl, he⟩ | ⟨hne, hdn, hd⟩
    · cases he
      obtain ⟨x, hx, hin⟩ := h.next _ _ hn
      exact ⟨x, (hlook _ _).mpr (.inr ⟨by omega, by omega, by rw [← hx]; congr 1; omega⟩), hin⟩
    · obtain ⟨x, hx, hin⟩ := h.next d w hd
      have hxn : d + 16 + w ≠ c + 16 + z := fun he => hne (h.pred_unique hd hc he)
      by_cases hxc : d + 16 + w = c
      · exact ⟨_, (hlook _ _).mpr (.inl ⟨hxc, rfl⟩), rfl⟩
      · exact ⟨x, (hlook _ _).mpr (.inr ⟨hxc, hxn, hx⟩), hin⟩
  · intro d x hd hin
    rcases (hlook d x).mp hd with ⟨rfl, -⟩ | ⟨hne, hdn, hd⟩
    · rcases h.pred d _ hc rfl with hs | ⟨p, w, hp, he⟩
      · exact .inl hs
      · exact .inr ⟨p, w, (hlook _ _).mpr (.inr ⟨by omega, by omega, hp⟩), he⟩
    · rcases h.pred d x hd hin with hs | ⟨p, w, hp, he⟩
      · exact .inl hs
      · by_cases hpn : p = c + 16 + z
        · subst hpn
          rw [hn] at hp
          cases hp
          exact .inr ⟨c, _, (hlook _ _).mpr (.inl ⟨rfl, rfl⟩), by omega⟩
        · refine .inr ⟨p, w, (hlook _ _).mpr (.inr ⟨?_, hpn, hp⟩), he⟩
          rintro rfl
          rw [hc] at hp
          cases hp
          exact hdn he.symm
  · intro s e hh
    obtain ⟨hse, he, w, hs⟩ := h.heap s e hh
    have hec : e ≠ c := by
      rintro rfl
      simp [hc] at he
    have hen : e ≠ c + 16 + z := by
      rintro rfl
      simp [hn] at he
    refine ⟨hse, (hlook _ _).mpr (.inr ⟨hec, hen, he⟩), ?_⟩
    by_cases hsc : s = c
    · exact ⟨_, (hlook _ _).mpr (.inl ⟨hsc, rfl⟩)⟩
    · exact ⟨w, (hlook _ _).mpr (.inr ⟨hsc, (h.start_no_pred hh hc).symm, hs⟩)⟩
  · intro d w hd
    rcases (hlook d _).mp hd with ⟨rfl, hx⟩ | ⟨-, -, hd⟩
    · cases hx
      obtain ⟨s, e, hh, hs, he⟩ := h.inside d _ hc
      obtain ⟨s', e', hh', hs', he'⟩ := h.inside _ _ hn
      have heq := h.heap_unique hh hh' (a := d + 16 + z) ⟨by omega, by omega⟩ ⟨by omega, by omega⟩
      cases heq
      exact ⟨s, e, hh, hs, by omega⟩
    · exact h.inside d w hd
  · intro d hd
    rcases (hlook d _).mp hd with ⟨-, hx⟩ | ⟨-, -, hd⟩
    · cases hx
    · exact h.fence d hd
  · exact h.disjoint

theorem grow (hs : s % 16 = 0 ∧ 0 < s) (hz : z % 16 = 0 ∧ 32 ≤ z)
    (hfree : ∀ d y, cell d = some y → d + y.extent ≤ s ∨ s + (z + 48) ≤ d)
    (hheaps : ∀ h ∈ heaps, h.2 + 32 ≤ s ∨ s + (z + 48) ≤ h.1) :
    Tiled (update (update cell s (some (.chunk z))) (s + 16 + z) (some .bound))
      (heaps ++ [(s, s + 16 + z)]) := by
  have hnone : cell s = none := by
    cases hc : cell s with
    | none => rfl
    | some y =>
      have := hfree s y hc
      have := h.extent_ge hc
      omega
  have hlook : ∀ d x, update (update cell s (some (.chunk z))) (s + 16 + z) (some .bound) d =
      some x ↔ (d = s ∧ x = .chunk z) ∨ (d = s + 16 + z ∧ x = .bound) ∨ (d ≠ s ∧ d ≠ s + 16 + z ∧ cell d = some x) := by
    intro d x
    simp only [update_apply]
    grind
  have hout : ∀ d y, cell d = some y → d ≠ s ∧ d ≠ s + 16 + z := by
    intro d y hd
    have := hfree d y hd
    have := h.extent_ge hd
    omega
  constructor
  · intro d x hd
    rcases (hlook d x).mp hd with ⟨rfl, -⟩ | ⟨rfl, -⟩ | ⟨-, -, hd⟩
    · exact hs.2
    · omega
    · exact h.pos d x hd
  · intro d w hd
    rcases (hlook d _).mp hd with ⟨rfl, he⟩ | ⟨-, he⟩ | ⟨-, -, hd⟩
    · cases he
      exact ⟨hs.1, hz⟩
    · cases he
    · exact h.chunk d w hd
  · intro d w hd
    rcases (hlook d _).mp hd with ⟨-, he⟩ | ⟨-, he⟩ | ⟨-, -, hd⟩
    · cases he
    · cases he
    · exact h.block d w hd
  · intro a d x y ha hd hlt
    rcases (hlook a x).mp ha with ⟨rfl, rfl⟩ | ⟨rfl, rfl⟩ | ⟨hac, hab, ha'⟩ <;>
      rcases (hlook d y).mp hd with ⟨rfl, rfl⟩ | ⟨rfl, rfl⟩ | ⟨hdc, hdb, hd'⟩
    case inr.inr.inr.inr => exact h.apart a d x y ha' hd' hlt
    case inl.inr.inr | inr.inl.inr.inr =>
      have := hfree d y hd'
      have := h.extent_ge hd'
      simp only [extent_chunk, extent_bound]
      omega
    case inr.inr.inl | inr.inr.inr.inl =>
      have := hfree a x ha'
      omega
    all_goals (simp only [extent_chunk, extent_bound]; omega)
  · intro d w hd
    rcases (hlook d _).mp hd with ⟨rfl, he⟩ | ⟨-, he⟩ | ⟨-, -, hd⟩
    · cases he
      exact ⟨_, (hlook _ _).mpr (.inr (.inl ⟨rfl, rfl⟩)), rfl⟩
    · cases he
    · obtain ⟨y, hy, hin⟩ := h.next d w hd
      exact ⟨y, (hlook _ _).mpr (.inr (.inr ⟨(hout _ _ hy).1, (hout _ _ hy).2, hy⟩)), hin⟩
  · intro d y hd hin
    rcases (hlook d y).mp hd with ⟨rfl, -⟩ | ⟨rfl, -⟩ | ⟨-, -, hd⟩
    · exact .inl ⟨d + 16 + z, by simp⟩
    · exact .inr ⟨s, z, (hlook _ _).mpr (.inl ⟨rfl, rfl⟩), rfl⟩
    · rcases h.pred d y hd hin with ⟨e, he⟩ | ⟨p, w, hp, he⟩
      · exact .inl ⟨e, by simp [he]⟩
      · exact .inr ⟨p, w, (hlook _ _).mpr (.inr (.inr ⟨(hout _ _ hp).1, (hout _ _ hp).2, hp⟩)), he⟩
  · intro s' e hh
    rcases List.mem_append.mp hh with hh | hh
    · obtain ⟨hse, he, w, hw⟩ := h.heap s' e hh
      refine ⟨hse, (hlook _ _).mpr (.inr (.inr ⟨(hout _ _ he).1, (hout _ _ he).2, he⟩)), w, ?_⟩
      exact (hlook _ _).mpr (.inr (.inr ⟨(hout _ _ hw).1, (hout _ _ hw).2, hw⟩))
    · obtain ⟨rfl, rfl⟩ : s' = s ∧ e = s + 16 + z := by simpa using hh
      exact ⟨by omega, (hlook _ _).mpr (.inr (.inl ⟨rfl, rfl⟩)), z, (hlook _ _).mpr (.inl ⟨rfl, rfl⟩)⟩
  · intro d w hd
    rcases (hlook d _).mp hd with ⟨rfl, he⟩ | ⟨-, he⟩ | ⟨-, -, hd⟩
    · cases he
      exact ⟨d, d + 16 + z, by simp, by omega, by omega⟩
    · cases he
    · obtain ⟨s', e, hh, hs', he⟩ := h.inside d w hd
      exact ⟨s', e, by simp [hh], hs', he⟩
  · intro d hd
    rcases (hlook d _).mp hd with ⟨-, hx⟩ | ⟨rfl, -⟩ | ⟨-, -, hd⟩
    · cases hx
    · exact ⟨s, by simp⟩
    · obtain ⟨s', hh⟩ := h.fence d hd
      exact ⟨s', by simp [hh]⟩
  · refine List.pairwise_append.mpr ⟨h.disjoint, by simp, ?_⟩
    rintro ⟨s', e⟩ hh _ hmem
    obtain rfl := List.mem_singleton.mp hmem
    have := hheaps _ hh
    dsimp only at this ⊢
    omega

theorem congr_blocks {cell' : Nat → Option Cell}
    (hsame : ∀ d x, (∀ z, x ≠ .block z) → (cell' d = some x ↔ cell d = some x))
    (hpos : ∀ d z, cell' d = some (.block z) → 0 < d ∧ d % 16 = 0 ∧ z % 16 = 0 ∧ 32 ≤ z)
    (hapart : ∀ c d x y, cell' c = some x → cell' d = some y → c < d → c + x.extent ≤ d) : Tiled cell' heaps := by
  have hchunk : ∀ d z, cell' d = some (.chunk z) ↔ cell d = some (.chunk z) := fun d z => hsame d _ (by simp)
  have hbound : ∀ d, cell' d = some .bound ↔ cell d = some .bound := fun d => hsame d _ (by simp)
  have hheap : ∀ d x, x.inHeap = true → (cell' d = some x ↔ cell d = some x) := by
    intro d x hx
    apply hsame d x
    rintro z rfl
    simp at hx
  constructor
  · intro d x hd
    by_cases hx : ∃ z, x = .block z
    · obtain ⟨z, rfl⟩ := hx
      exact (hpos d z hd).1
    · exact h.pos d x ((hsame d x (by simpa using hx)).mp hd)
  · intro d z hd
    exact h.chunk d z ((hchunk d z).mp hd)
  · intro d z hd
    exact (hpos d z hd).2
  · exact hapart
  · intro d z hd
    obtain ⟨y, hy, hin⟩ := h.next d z ((hchunk d z).mp hd)
    exact ⟨y, (hheap _ y hin).mpr hy, hin⟩
  · intro d y hd hin
    rcases h.pred d y ((hheap d y hin).mp hd) hin with hs | ⟨p, w, hp, he⟩
    · exact .inl hs
    · exact .inr ⟨p, w, (hchunk p w).mpr hp, he⟩
  · intro s e hh
    obtain ⟨hse, he, w, hw⟩ := h.heap s e hh
    exact ⟨hse, (hbound e).mpr he, w, (hchunk s w).mpr hw⟩
  · intro d z hd
    exact h.inside d z ((hchunk d z).mp hd)
  · intro d hd
    exact h.fence d ((hbound d).mp hd)
  · exact h.disjoint

theorem map (hc : c % 16 = 0 ∧ 0 < c) (hz : z % 16 = 0 ∧ 32 ≤ z)
    (hfree : ∀ d y, cell d = some y → d + y.extent ≤ c ∨ c + (16 + z) ≤ d) :
    Tiled (update cell c (some (.block z))) heaps := by
  have hout : ∀ d y, cell d = some y → d ≠ c := by
    intro d y hd
    have := hfree d y hd
    have := h.extent_ge hd
    omega
  have hlook : ∀ d x, update cell c (some (.block z)) d = some x ↔
      (d = c ∧ x = .block z) ∨ cell d = some x := by
    intro d x
    simp only [update_apply]
    grind
  apply h.congr_blocks
  · intro d x hx
    simp [hlook, hx]
  · intro d w hd
    rcases (hlook d _).mp hd with ⟨rfl, he⟩ | hd
    · cases he
      exact ⟨hc.2, hc.1, hz⟩
    · exact ⟨h.pos d _ hd, h.block d w hd⟩
  · intro a d x y ha hd hlt
    rcases (hlook a x).mp ha with ⟨rfl, rfl⟩ | ha' <;> rcases (hlook d y).mp hd with ⟨rfl, rfl⟩ | hd'
    · omega
    · have := hfree d y hd'
      have := h.extent_ge hd'
      simp only [extent_block]
      omega
    · have := hfree a x ha'
      omega
    · exact h.apart a d x y ha' hd' hlt

theorem unmap (hc : cell c = some (.block z)) : Tiled (update cell c none) heaps := by
  have hlook : ∀ d x, update cell c none d = some x ↔ d ≠ c ∧ cell d = some x := by
    intro d x
    simp only [update_apply]
    grind
  apply h.congr_blocks
  · intro d x hx
    rw [hlook]
    refine ⟨And.right, fun hd => ⟨?_, hd⟩⟩
    rintro rfl
    rw [hc] at hd
    cases hd
    exact hx z rfl
  · intro d w hd
    have hd := ((hlook d _).mp hd).2
    exact ⟨h.pos d _ hd, h.block d w hd⟩
  · intro a d x y ha hd hlt
    exact h.apart a d x y ((hlook a x).mp ha).2 ((hlook d y).mp hd).2 hlt

end Cells

end Tiled

end Picasso.Alloc.Layout
