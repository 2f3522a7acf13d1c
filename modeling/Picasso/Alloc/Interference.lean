import Picasso.Alloc.Runs

namespace Picasso.Alloc.Interference

open Chunk Layout Arenas Custody Lib.Transition Function
open Invariant hiding Inv

variable {strict : Bool} {w w' : World} {G G' : Nat → Ghost} {h : Holding} {i : Nat}

def Undisturbed (w w' : World) (i : Nat) (b : Block) : Prop :=
  ∃ h, w'.arenas[i]? = some h ∧ b ∈ h.live ∧ b.size w'.mem = b.size w.mem ∧
    ∀ a, b.ptr ≤ a → a < b.ptr + b.size w.mem → w'.mem a = w.mem a

theorem Undisturbed.refl {b : Block} (hi : w.arenas[i]? = some h) (hb : b ∈ h.live) : Undisturbed w w i b :=
  ⟨h, hi, hb, rfl, fun _ _ _ => rfl⟩

theorem Undisturbed.trans {w'' : World} {b : Block} (hb : Undisturbed w w' i b) (hb' : Undisturbed w' w'' i b) :
    Undisturbed w w'' i b := by
  obtain ⟨-, -, -, hsize, hmem⟩ := hb
  obtain ⟨h, hi, hl, hsize', hmem'⟩ := hb'
  refine ⟨h, hi, hl, hsize'.trans hsize, fun a hle hlt => ?_⟩
  rw [hmem' a hle (by omega), hmem a hle hlt]

def Act.isStore : Act → Bool
  | .store .. => true
  | _ => false

theorem block_size {c : Nat} {d : Bool} (m : Mem) : (⟨c + 16, d⟩ : Block).size m = getSize m c := rfl

theorem spared {a : Act} (hw : Sound strict w G) (ht : Turn w G a w' G') (hi : w.arenas[i]? = some h) {c : Nat} {d : Bool}
    (hd : Handed (G i) c d) (hrel : a ≠ .release i ⟨c + 16, d⟩) (hst : Act.isStore a = false) :
    Handed (G' i) c d ∧ (G' i).cell c = (G i).cell c ∧ ∀ x, Payload (G i) c x → w'.mem x = w.mem x := by
  have hlt := lt_of_arena hi
  cases ht with
  | store => cases hst
  | refuse => exact ⟨hd, rfl, fun _ _ => rfl⟩
  | create idle none mem =>
    rw [update_of_ne (by omega)]
    exact ⟨hd, rfl, fun x hx => mem i hlt x hx.owned⟩
  | @gain k n page e h' s g' arena gained size mem =>
    by_cases hik : i = k
    · subst hik
      have hec : c ≠ e := by
        rintro rfl
        exact gained.idle d hd
      rw [update_self]
      refine ⟨(gained.toAside.handed hec d).mpr hd, gained.toAside.cell hec hd, fun x hx => mem x (.inr ⟨c, ?_, hx⟩)⟩
      obtain ⟨y, hy, -⟩ := hx
      have := (hw.kempt i h hi).inv.tiled.pos c y hy
      omega
    · rw [update_of_ne hik]
      exact ⟨hd, rfl, fun x hx => mem x (.inl ⟨i, hik, hlt, hx.owned⟩)⟩
  | @lose k e d' h' s g' arena handed lost mem =>
    by_cases hik : i = k
    · subst hik
      have hec : c ≠ e := by
        rintro rfl
        rw [handed_unique (hw.kempt i h hi).inv hd handed] at hrel
        exact hrel rfl
      rw [update_self]
      exact ⟨(lost.toAside.handed hec d).mpr hd, lost.toAside.cell hec hd, fun x hx => mem x (.inr ⟨c, hec, hx⟩)⟩
    · rw [update_of_ne hik]
      exact ⟨hd, rfl, fun x hx => mem x (.inl ⟨i, hik, hlt, hx.owned⟩)⟩

theorem arenas_length_le {a : Act} (ht : Turn w G a w' G') : w.arenas.length ≤ w'.arenas.length := by
  cases ht <;> simp [World.put]

theorem undisturbed_of_handed {strict' : Bool} {c : Nat} {d : Bool} (hw : Upkeep strict w G) (hw' : Upkeep strict' w' G')
    (hlen : w.arenas.length ≤ w'.arenas.length) (hi : w.arenas[i]? = some h) (hd : Handed (G i) c d)
    (hd' : Handed (G' i) c d) (hcell : (G' i).cell c = (G i).cell c) (hmem : ∀ x, Payload (G i) c x → w'.mem x = w.mem x) :
    Undisturbed w w' i ⟨c + 16, d⟩ := by
  have hi' := List.getElem?_eq_getElem (Nat.lt_of_lt_of_le (lt_of_arena hi) hlen)
  have hk := hw.kempt i h hi
  have hk' := hw'.kempt i _ hi'
  obtain ⟨x, hx, -, hext, -, -⟩ := hk.handed_cell hd
  obtain ⟨x', hx', -, hext', -, -⟩ := hk'.handed_cell hd'
  cases (hcell.symm.trans hx').symm.trans hx
  refine ⟨_, hi', (hk'.live _).mpr ⟨c, rfl, hd'⟩, ?_, ?_⟩
  · simp only [block_size]
    omega
  · intro a hle hlt
    rw [block_size] at hlt
    exact hmem a (hk.payload hd hle hlt)

end Picasso.Alloc.Interference
