import Picasso.Alloc.Tiling

namespace Picasso.Alloc.Unmap

open Chunk Allocator Layout Arenas Custody Tiling Lib.Transition Function List
open Invariant hiding Inv

variable {strict : Bool} {w w' : World} {G G' : Nat → Ghost} {h : Holding} {i : Nat}

/-- Whichever live block is released next, it is passed to `munmap` if and
only if `mmap` has served it, and what is unmapped is apart from all heaps. -/
def Disciplined (w : World) : Prop :=
  ∀ (i : Nat) (h : Holding) (b : Block) (s : State), w.arenas[i]? = some h → b ∈ h.live →
    release (w.state h) b.ptr = some s →
    (s.unmapped ≠ w.unmapped ↔ b.direct = true) ∧
      ∀ c n, s.unmapped = w.unmapped ++ [(c, n)] → ∀ (j : Nat) (h' : Holding), w.arenas[j]? = some h' →
        ∀ heap ∈ h'.ar.allocedHeaps, c + n ≤ heap.1 ∨ heap.2 + HEAP_BOUNDARY_SIZE ≤ c

/-- No chunk that could be handed out whole for the request is as large as the threshold. -/
def Fitting (w : World) : Act → Prop
  | .allocate i n _ => ∀ h ∈ w.arenas[i]?, payloadSize n < MMAP_THRESHOLD → ∀ heap ∈ h.ar.allocedHeaps,
      ∀ c ∈ (heapChunks w.mem h.ar heap).getD [], c + HEADER_SIZE ∉ h.live.map Block.ptr →
        ¬ (MMAP_THRESHOLD ≤ getSize w.mem c ∧ getSize w.mem c < payloadSize n + 48)
  | _ => True

instance (w : World) : (a : Act) → Decidable (Fitting w a)
  | .allocate .. => inferInstanceAs (Decidable (∀ _ ∈ _, _))
  | .create .. | .release .. | .store .. => inferInstanceAs (Decidable True)

def Small (w : World) (G : Nat → Ghost) : Prop :=
  ∀ i c z, i < w.arenas.length → (G i).kind c = .live → (G i).cell c = some (.chunk z) → z < MMAP_THRESHOLD

theorem aside_small {g g' : Ghost} {c e z : Nat} (ha : Aside g g' c) (he : e ≠ c) (hl : g'.kind e = .live)
    (hz : g'.cell e = some (.chunk z)) : g.kind e = .live ∧ g.cell e = some (.chunk z) := by
  obtain ⟨hk, hc⟩ := ha.busy e he (.inr (by simp [hl, Kind.busy]))
  exact ⟨hk.symm.trans hl, hc.symm.trans hz⟩

theorem Fitting.not_large (hw : Sound strict w G) {n page : Nat} (hf : Fitting w (.allocate i n page))
    (hi : w.arenas[i]? = some h) (hn : payloadSize n < MMAP_THRESHOLD) {c z : Nat} (hc : (G i).cell c = some (.chunk z))
    (hl : (G i).kind c ≠ .live) (hz : z < payloadSize n + 48) : z < MMAP_THRESHOLD := by
  have hk := hw.kempt i h hi
  obtain ⟨s, e, hh, hs, he⟩ := hk.inv.tiled.inside c z hc
  obtain ⟨l, hwalk, hmem⟩ := heapChunks_spec hk.inv hk.settled hh
  have hsize : getSize w.mem c = z := by
    refine (hk.inv.words.own c z hc).size ?_
    have := hk.settled c z hc
    cases hkc : (G i).kind c <;> simp_all [Kind.settled, Kind.sized]
  have := hf h hi hn (s, e) hh c (by rw [hwalk]; exact (hmem c).mpr ⟨hs, by omega, z, hc⟩)
    (by rw [HEADER_SIZE, mem_ptr hk hc]; exact hl)
  omega

theorem small_turn (hw : Sound strict w G) (hs : Small w G) {a : Act} (hf : Fitting w a) (ht : Turn w G a w' G') :
    Small w' G' := by
  cases ht with
  | refuse => exact hs
  | store => exact hs
  | create idle none mem =>
    intro j c z hj hl hz
    by_cases hjn : j = w.arenas.length
    · subst hjn
      rw [update_self] at hl
      have := idle c
      rw [hl] at this
      cases this
    · rw [update_of_ne hjn] at hl hz
      simp only [length_append, length_singleton] at hj
      exact hs j c z (by omega) hl hz
  | @gain i n page c h s g' arena gained size mem =>
    intro j e z hj hl hz
    simp only [World.put, length_set] at hj
    by_cases hji : j = i
    · subst hji
      rw [update_self] at hl hz
      by_cases hec : e = c
      · subst hec
        cases hd : direct n with
        | true =>
          have hb := gained.handed
          rw [hd] at hb
          obtain ⟨y, hy⟩ := hb
          cases hz.symm.trans hy
        | false =>
          obtain ⟨y, hy, hor⟩ := size hd
          cases hz.symm.trans hy
          have hn : payloadSize n < MMAP_THRESHOLD := by simpa [direct] using hd
          rcases hor with rfl | ⟨hc, -, hlt⟩
          · exact hn
          · exact hf.not_large hw arena hn hc (gained.idle false) hlt
      · obtain ⟨h1, h2⟩ := aside_small gained.toAside hec hl hz
        exact hs j e z hj h1 h2
    · rw [update_of_ne hji] at hl hz
      exact hs j e z hj hl hz
  | @lose i c d h s g' arena handed lost mem =>
    intro j e z hj hl hz
    simp only [World.put, length_set] at hj
    by_cases hji : j = i
    · subst hji
      rw [update_self] at hl hz
      have hec : e ≠ c := by
        rintro rfl
        exact lost.idle false hl
      obtain ⟨h1, h2⟩ := aside_small lost.toAside hec hl hz
      exact hs j e z hj h1 h2
    · rw [update_of_ne hji] at hl hz
      exact hs j e z hj hl hz

theorem block_apart (hw : Sound strict w G) (hi : w.arenas[i]? = some h) {c z : Nat} (hc : (G i).cell c = some (.block z))
    {j : Nat} {h' : Holding} (hj : w.arenas[j]? = some h') {s e : Nat} (hh : (s, e) ∈ h'.ar.allocedHeaps) :
    c + (z + 16) ≤ s ∨ e + 32 ≤ c := by
  have hk := hw.kempt i h hi
  have hk' := hw.kempt j h' hj
  obtain ⟨hse, -, y, hy⟩ := hk'.inv.tiled.heap s e hh
  have hsymm : Std.Symm Apart := ⟨fun _ _ => Or.symm⟩
  have hne : (c, 16 + z) ≠ (s, e + 32 - s) := by
    intro heq
    simp only [Prod.mk.injEq] at heq
    obtain ⟨rfl, -⟩ := heq
    by_cases hij : i = j
    · subst hij
      cases hy.symm.trans hc
    · exact hw.apart i j hij (lt_of_arena hi) (lt_of_arena hj) c
        ⟨c, _, hc, Nat.le_refl c, by simp only [Cell.extent_block]; omega⟩
        (owned_chunk hy (by omega))
  have := hw.regions.forall (hk.block c z hc).2 (hk'.heap _ hh) hne
  simp only [Apart] at this
  omega

theorem disciplined_of_sound (hw : Sound false w G) (hs : Small w G) : Disciplined w := by
  intro i h b s hi hb hr
  have hk := hw.kempt i h hi
  obtain ⟨c, d, rfl, hd⟩ := hk.block_of_mem hb
  cases d with
  | false =>
    have hl : (G i).kind c = .live := hd
    obtain ⟨z, hc⟩ := hk.inv.bins.home c (by simp [hl])
    have hz := hs i c z (lt_of_arena hi) hl hc
    obtain ⟨s', g', hD⟩ := hw.toUpkeep.drop hi false hc (.inl hl)
      ((hk.inv.words.own c z hc).curr true (by simp [hl, Kind.curr])) (hw.top_next hi) (by simp)
    cases hD.run.symm.trans hr
    have hu : s.unmapped = w.unmapped := by
      rw [hD.unmapped, if_neg (by omega)]
    refine ⟨by simp [hu], fun e n he => ?_⟩
    rw [hu] at he
    simp at he
  | true =>
    obtain ⟨z, hc⟩ := hd
    obtain ⟨hrun, -⟩ := hw.unmap_block hi hc []
    cases hrun.symm.trans hr
    refine ⟨by simp [munmap, World.state], ?_⟩
    intro e n he j h' hj heap hh
    simp only [munmap, World.state, append_cancel_left_eq, List.cons.injEq, Prod.mk.injEq, and_true] at he
    obtain ⟨rfl, rfl⟩ := he
    exact block_apart hw hi hc hj hh

/-- In every run whose requests are fitting, `_release` unmaps the blocks that
`mmap` has served and nothing else. -/
theorem unmap_discipline (hr : Run machine Fitting w) : Disciplined w := by
  obtain ⟨G, hw, hs⟩ : ∃ G, Sound false w G ∧ Small w G := by
    refine Run.invariant (I := fun w => ∃ G, Sound false w G ∧ Small w G) ?_ ?_ hr
    · rintro w rfl
      exact ⟨_, sound_start, by simp [Small, start]⟩
    · rintro w a w' ⟨G, hw, hs⟩ hf hstep
      obtain ⟨G', hturn, hw'⟩ := hw.turn (by simp) hstep
      exact ⟨G', hw', small_turn hw hs hf hturn⟩
  exact disciplined_of_sound hw hs

/-- A heap block and a block that `mmap` has served. -/
theorem unmap_discipline_both : ∃ w h, Run machine Fitting w ∧ w.arenas[0]? = some h ∧
    h.live = [⟨4210704, true⟩, ⟨1048592, false⟩] ∧ Disciplined w := by
  have hx : (exec machine Fitting [.create 4096 1048576, .allocate 0 100000 0, .allocate 0 200000 4210688] start).bind
      (fun w => w.arenas[0]?.map fun h => h.live) = some [⟨4210704, true⟩, ⟨1048592, false⟩] := by decide +kernel
  obtain ⟨w, hr, he⟩ := exec_reads_bind hx (.init rfl)
  obtain ⟨h, hi, hl⟩ := Option.map_eq_some_iff.mp he
  exact ⟨w, h, hr, hi, hl, unmap_discipline hr⟩

/-- Two free chunks merge to 131072 bytes and are handed out whole for a
request of 131040 bytes. The release of that heap block unmaps it. -/
theorem heap_block_unmapped : ¬ ∀ w, Reachable machine w → Disciplined w := by
  intro hall
  have hx : (walk machine [.create 4096 1048576, .allocate 0 65520 0, .allocate 0 65536 0,
      .allocate 0 65536 0, .release 0 ⟨1048592, false⟩, .release 0 ⟨1114128, false⟩, .allocate 0 131040 0] start).bind
      (fun w => w.arenas[0]?.bind fun h => if (⟨1048592, false⟩ : Block) ∈ h.live then
        (release (w.state h) 1048592).map fun s => (s.unmapped, w.unmapped) else none) =
      some ([(1048576, 131088)], []) := by decide +kernel
  obtain ⟨w, hw, he⟩ := exec_reads_bind hx (.init rfl)
  obtain ⟨h, hi, he⟩ := Option.bind_eq_some_iff.mp he
  split_ifs at he with hb
  obtain ⟨s, hr, hu⟩ := Option.map_eq_some_iff.mp he
  simp only [Prod.mk.injEq] at hu
  have hd := (hall w hw 0 h ⟨1048592, false⟩ s hi hb hr).1
  rw [hu.1, hu.2] at hd
  simp at hd

end Picasso.Alloc.Unmap
