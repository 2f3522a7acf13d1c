import Picasso.Alloc.Interference
import Picasso.Gc.Marks
import Picasso.Gc.Survive

namespace Picasso.Gc.Reach

open Alloc.Chunk Alloc.Layout Alloc.Arenas Alloc.Custody Alloc.Interference Collector Marks Survive
open Lib.Transition
open Alloc.Invariant hiding Inv

variable {strict : Bool} {w w' : World} {G G' : Nat → Ghost} {h : Holding} {i : Nat} {m : Mem} {tasks : List Task}

def Inside (m : Mem) (b : Block) (v : Nat) : Prop :=
  v % GC_PTR_ALIGNMENT = 0 ∧ b.ptr ≤ v ∧ v < b.ptr + b.size m

/-- The handed-out blocks that the words of the unfinished tasks lead to. -/
inductive Reaches (w : World) (tasks : List Task) : Nat → Block → Prop
  | root {t : Task} {v i : Nat} {h : Holding} {b : Block} : t ∈ tasks → t.finished = false → v ∈ words t →
      w.arenas[i]? = some h → b ∈ h.live → Inside w.mem b v → Reaches w tasks i b
  | step {a i j : Nat} {h : Holding} {b b' : Block} : Reaches w tasks i b → a % 8 = 0 → b.ptr ≤ a →
      a + 8 ≤ b.ptr + b.size w.mem → w.arenas[j]? = some h → b' ∈ h.live → Inside w.mem b' (w.mem a) → Reaches w tasks j b'

theorem Reaches.live {b : Block} (hb : Reaches w tasks i b) : ∃ h, w.arenas[i]? = some h ∧ b ∈ h.live := by
  cases hb with
  | root _ _ _ hi hb _ => exact ⟨_, hi, hb⟩
  | step _ _ _ _ hi hb _ => exact ⟨_, hi, hb⟩

theorem Reaches.transfer (hkeep : ∀ i b, Reaches w tasks i b → Undisturbed w w' i b) {b : Block}
    (hb : Reaches w tasks i b) : Reaches w' tasks i b := by
  induction hb with
  | root ht hf hv hi hb hin =>
    obtain ⟨h', hi', hb', hsize, -⟩ := hkeep _ _ (.root ht hf hv hi hb hin)
    refine .root ht hf hv hi' hb' ?_
    rw [Inside, hsize]
    exact hin
  | step hp ha hle hlt hi hb hin ih =>
    obtain ⟨h', hi', hb', hsize', -⟩ := hkeep _ _ (.step hp ha hle hlt hi hb hin)
    obtain ⟨-, -, -, hsize, hmem⟩ := hkeep _ _ hp
    refine .step ih ha hle (by omega) hi' hb' ?_
    rw [Inside, hsize', hmem _ hle (by omega)]
    exact hin

/-- The collector meets the block while it scans the tasks, or its mark is left over. -/
def Noted (w : World) (tasks : List Task) (b : Block) : Prop :=
  hasFlag (w.mem b.chunk) GC_MARK = true ∨ ∃ v ∈ scannedWords tasks, Inside w.mem b v

theorem payload_not_chunk (hw : Upkeep strict w G) (hi : w.arenas[i]? = some h) {c a : Nat} (ha : Payload (G i) c a) :
    ∀ j z, j < w.arenas.length → (G j).cell a ≠ some (.chunk z) := by
  intro j z hj hz
  have hown : (G j).Owned a := owned_chunk hz (by omega)
  by_cases hji : j = i
  · subst hji
    obtain ⟨x, hx, -, hle, hlt⟩ := ha
    have := ((hw.kempt j h hi).inv.tiled.sep hx hz (o := a - c) (u := 0) (by omega)
      (Cell.lt_chunk (by omega)) (by omega)).1
    omega
  · exact hw.apart j i hji hj (lt_of_arena hi) a hown ha.owned

theorem marked_iff_noted (hw : Upkeep strict w G) (hi : w.arenas[i]? = some h)
    (hm : MarkedBy strict w G (scannedWords tasks) m) {c : Nat} (hl : (G i).kind c = .live) :
    hasFlag (m c) GC_MARK = true ↔ Noted w tasks ⟨c + 16, false⟩ := by
  obtain ⟨z, hz⟩ := live_cell hw hi hl
  have hsize : getSize w.mem c = z := ((hw.kempt i h hi).inv.words.own c z hz).size (by simp [hl, Kind.sized])
  rw [hm.marks i c z (lt_of_arena hi) hl hz, Noted]
  simp only [Inside, block_size, hsize, Hits]
  rfl

theorem undisturbed (hw : Upkeep false w G) (hi : w.arenas[i]? = some h) (hm : MarkedBy false w G (scannedWords tasks) m)
    (hS : Sweeping { w with mem := m } G w' G' []) {c : Nat} {d : Bool} (hd : Handed (G i) c d)
    (hmark : d = false → hasFlag (m c) GC_MARK = true) : Undisturbed w w' i ⟨c + 16, d⟩ := by
  obtain ⟨hd', hcell, hmem⟩ := hS.survive i c d (lt_of_arena hi) hd hmark
  exact undisturbed_of_handed hw hS.upkeep (Nat.le_of_eq hS.length.symm) hi hd hd' hcell fun a ha =>
    (hmem a ha).trans (hm.same a (payload_not_chunk hw hi ha))

/-- A collection keeps all reachable blocks just when it meets each of those
in the heaps while it scans the tasks: it does not look into the blocks. -/
theorem reachable_kept (hr : Reachable machine w) (tasks : List Task) :
    (∃ w', gcCollect w tasks = some w' ∧ ∀ i b, Reaches w tasks i b → Undisturbed w w' i b) ↔
      ∀ i b, Reaches w tasks i b → b.direct = false → Noted w tasks b := by
  obtain ⟨G, hw⟩ := reachable_sound hr
  obtain ⟨m, hmark, hm⟩ := gcMark_spec hw.toUpkeep tasks
  obtain ⟨w', G', hsweep, hS⟩ := gcSweep_spec (w := { w with mem := m }) (G := G) ⟨hm.upkeep, hw.top⟩
  have hrun : gcCollect w tasks = some w' := by
    simp only [gcCollect, hmark, Option.bind_eq_bind, Option.bind_some, hsweep]
  have hblock : ∀ i b, Reaches w tasks i b → ∃ h c d, w.arenas[i]? = some h ∧ b = ⟨c + 16, d⟩ ∧ Handed (G i) c d := by
    intro i b hb
    obtain ⟨h, hi, hl⟩ := hb.live
    obtain ⟨c, d, rfl, hd⟩ := (hw.kempt i h hi).block_of_mem hl
    exact ⟨h, c, d, hi, rfl, hd⟩
  constructor
  · rintro ⟨w'', hrun', hkept⟩ i b hb hdir
    cases hrun.symm.trans hrun'
    obtain ⟨h, c, d, hi, rfl, hd⟩ := hblock i b hb
    have hdf : d = false := hdir
    subst hdf
    obtain ⟨h', hi', hlive, -⟩ := hkept i _ hb
    obtain ⟨c', hc', hd'⟩ := ((hS.upkeep.kempt i h' hi').live _).mp hlive
    cases Nat.add_right_cancel hc'
    rw [← marked_iff_noted hw.toUpkeep hi hm hd]
    -- an unmarked chunk would still be ahead of the sweep
    by_contra hno
    obtain ⟨k, hk, -⟩ := hS.behind i c (lt_of_arena hi) hd' (by simpa using hno)
    cases hk
  · intro hnoted
    refine ⟨w', hrun, fun i b hb => ?_⟩
    obtain ⟨h, c, d, hi, rfl, hd⟩ := hblock i b hb
    refine undisturbed hw.toUpkeep hi hm hS hd ?_
    rintro rfl
    exact (marked_iff_noted hw.toUpkeep hi hm hd).mpr (hnoted i _ hb rfl)

def linked : List Act := [.create 4096 1048576, .allocate 0 32 0, .allocate 0 32 0, .store 0 ⟨1048592, false⟩ 1048592 1048640]

def stackOf (vals : List Nat) : List Task := [⟨false, 0, vals, [], 0, 0⟩]

theorem linked_reaches (hr : walk machine linked start = some w) {vals : List Nat} (hv : 1048592 ∈ vals) :
    Reaches w (stackOf vals) 0 ⟨1048592, false⟩ ∧ Reaches w (stackOf vals) 0 ⟨1048640, false⟩ := by
  have hx : (walk machine linked start).bind (fun w => w.arenas[0]?.map fun h =>
      (h.live, w.mem 1048584, w.mem 1048632, w.mem 1048592)) =
      some ([⟨1048640, false⟩, ⟨1048592, false⟩], 37, 37, 1048640) := by decide +kernel
  rw [hr, Option.bind_some] at hx
  obtain ⟨h, hi, he⟩ := Option.map_eq_some_iff.mp hx
  simp only [Prod.mk.injEq] at he
  obtain ⟨hl, hs, hs', hp⟩ := he
  have hsize : (⟨1048592, false⟩ : Block).size w.mem = 32 := by
    simp [Block.size, Block.chunk, getSize, size, HEADER_SIZE, hs, sizeBits]
  have hsize' : (⟨1048640, false⟩ : Block).size w.mem = 32 := by
    simp [Block.size, Block.chunk, getSize, size, HEADER_SIZE, hs', sizeBits]
  have hroot : Reaches w (stackOf vals) 0 ⟨1048592, false⟩ :=
    .root (List.mem_singleton.mpr rfl) rfl (by simp [words, hv]) hi (by simp [hl]) ⟨by decide, Nat.le_refl _, by simp [hsize]⟩
  refine ⟨hroot, .step hroot (a := 1048592) (by decide) (Nat.le_refl _) (by simp [hsize]) hi (by simp [hl]) ?_⟩
  rw [hp]
  exact ⟨by decide, Nat.le_refl _, by simp [hsize']⟩

/-- With both blocks on the stack the collection keeps both. -/
theorem reachable_kept_both : ∃ w, Reachable machine w ∧
    Reaches w (stackOf [1048592, 1048640]) 0 ⟨1048640, false⟩ ∧ ∃ w', gcCollect w (stackOf [1048592, 1048640]) = some w' ∧
      ∀ i b, Reaches w (stackOf [1048592, 1048640]) i b → Undisturbed w w' i b := by
  have hx : (walk machine linked start).map (fun w => (w.arenas.map fun h => h.live,
      [w.mem 1048584, w.mem 1048632])) = some ([[⟨1048640, false⟩, ⟨1048592, false⟩]], [37, 37]) := by decide +kernel
  obtain ⟨w, hs, he⟩ := Option.map_eq_some_iff.mp hx
  simp only [Prod.mk.injEq, List.cons.injEq, and_true] at he
  obtain ⟨ha, hs₁, hs₂⟩ := he
  have hr : Reachable machine w := exec_run (.init rfl) hs
  refine ⟨w, hr, (linked_reaches hs (by simp)).2, (reachable_kept hr _).mpr fun i b hb _ => .inr ?_⟩
  obtain ⟨h, hi, hl⟩ := hb.live
  have hmem : h.live ∈ w.arenas.map fun h => h.live := List.mem_map_of_mem (List.mem_of_getElem? hi)
  rw [ha, List.mem_singleton] at hmem
  rw [hmem] at hl
  refine ⟨b.ptr, ?_, ?_⟩
  · simp only [List.mem_cons, List.not_mem_nil, or_false] at hl
    rcases hl with rfl | rfl <;> decide
  · simp only [List.mem_cons, List.not_mem_nil, or_false] at hl
    rcases hl with rfl | rfl <;>
      simp [Inside, GC_PTR_ALIGNMENT, Block.size, Block.chunk, getSize, size, HEADER_SIZE, hs₁, hs₂, sizeBits]

/-- With the first one alone on the stack the second one is released. -/
theorem reachable_released : ¬ ∀ w, Reachable machine w → ∀ tasks, ∃ w', gcCollect w tasks = some w' ∧
    ∀ i b, Reaches w tasks i b → Undisturbed w w' i b := by
  intro hall
  have hx : (walk machine linked start).bind (fun w => (gcCollect w (stackOf [1048592])).map fun w' =>
      w'.arenas.map fun h => h.live) = some [[⟨1048592, false⟩]] := by decide +kernel
  obtain ⟨w, hs, he⟩ := Option.bind_eq_some_iff.mp hx
  obtain ⟨w', hgc, ha⟩ := Option.map_eq_some_iff.mp he
  obtain ⟨w'', hgc', hkept⟩ := hall w (exec_run (.init rfl) hs) (stackOf [1048592])
  cases hgc.symm.trans hgc'
  obtain ⟨h, hi, hl, -⟩ := hkept 0 _ (linked_reaches hs (by simp)).2
  have hmem : h.live ∈ w'.arenas.map fun h => h.live := List.mem_map_of_mem (List.mem_of_getElem? hi)
  rw [ha, List.mem_singleton] at hmem
  rw [hmem] at hl
  simp at hl

end Picasso.Gc.Reach
