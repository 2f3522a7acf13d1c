import Picasso.Alloc.Create
import Picasso.Alloc.Arenas

namespace Picasso.Alloc.Custody

open Chunk Allocator Layout Arenas Function List
open Invariant hiding Inv

variable {strict : Bool} {w w' : World} {g g' : Ghost} {G : Nat → Ghost} {h : Holding} {i : Nat}

def Handed (g : Ghost) (c : Nat) : Bool → Prop
  | false => g.kind c = .live
  | true => ∃ z, g.cell c = some (.block z)

def Payload (g : Ghost) (c a : Nat) : Prop :=
  ∃ x, g.cell c = some x ∧ g.opened c x = false ∧ c + 16 ≤ a ∧ a < c + x.extent

def Apart (r r' : Nat × Nat) : Prop := r.1 + r.2 ≤ r'.1 ∨ r'.1 + r'.2 ≤ r.1

structure Kempt (strict : Bool) (w : World) (g : Ghost) (h : Holding) : Prop where
  inv : Invariant.Inv ⟨fun _ => False, w.mem, strict, false⟩ g h.ar w.mem
  settled : g.Settled
  growth : Growth h.ar
  owned : ∀ a, g.Owned a → Within w.mapped a
  heap : ∀ r ∈ h.ar.allocedHeaps, (r.1, r.2 + 32 - r.1) ∈ w.mapped
  block : ∀ c z, g.cell c = some (.block z) → MMAP_THRESHOLD ≤ z ∧ (c, 16 + z) ∈ w.mapped
  live : ∀ b : Block, b ∈ h.live ↔ ∃ c, b.ptr = c + 16 ∧ Handed g c b.direct
  nodup : h.live.Nodup

structure Upkeep (strict : Bool) (w : World) (G : Nat → Ghost) : Prop where
  kempt : ∀ i h, w.arenas[i]? = some h → Kempt strict w (G i) h
  apart : ∀ i j, i ≠ j → i < w.arenas.length → j < w.arenas.length → ∀ a, (G i).Owned a → ¬ (G j).Owned a
  regions : w.mapped.Pairwise Apart

structure Sound (strict : Bool) (w : World) (G : Nat → Ghost) : Prop extends Upkeep strict w G where
  top : ∀ i h, w.arenas[i]? = some h → TopOk (G i) h.ar

variable {c e : Nat} {s : State} {E : Env} {d : Bool}

theorem Payload.owned {a : Nat} (h : Payload g c a) : g.Owned a := by
  obtain ⟨x, hx, -, hle, hlt⟩ := h
  exact ⟨c, x, hx, by omega, hlt⟩

/-- The other arenas and the blocks of this one, but for the block at `c`. -/
def Others (w : World) (G : Nat → Ghost) (i c a : Nat) : Prop :=
  (∃ j, j ≠ i ∧ j < w.arenas.length ∧ (G j).Owned a) ∨ ∃ d, d ≠ c ∧ Payload (G i) d a

def env (strict marked : Bool) (w : World) (G : Nat → Ghost) (i c : Nat) : Env :=
  ⟨Others w G i c, w.mem, strict, marked⟩

theorem lt_of_arena (hi : w.arenas[i]? = some h) : i < w.arenas.length := (List.getElem?_eq_some_iff.mp hi).1

theorem Upkeep.enter (hw : Upkeep strict w G) (hi : w.arenas[i]? = some h) (marked : Bool) (c : Nat) :
    Invariant.Inv (env strict marked w G i c) (G i) h.ar w.mem := by
  have hk := hw.kempt i h hi
  refine hk.inv.rebase _ marked ?_
  rintro d x o hd ho hopen (⟨j, hj, hlen, hown⟩ | ⟨d', -, y, hy, hcl, hle, hlt⟩)
  · exact hw.apart i j (Ne.symm hj) (lt_of_arena hi) hlen _ ⟨d, x, hd, by omega, by omega⟩ hown
  · obtain ⟨rfl, hou⟩ := hk.inv.tiled.sep hy hd (o := d + o - d') (u := o) (by omega) ho (by omega)
    cases hy.symm.trans hd
    rw [hcl] at hopen
    rcases hopen with h16 | hf
    · omega
    · cases hf

theorem Upkeep.backed (hw : Upkeep strict w G) (hi : w.arenas[i]? = some h) (marked : Bool) (c : Nat) :
    Backed (env strict marked w G i c) (G i) (w.state h) := by
  have hk := hw.kempt i h hi
  refine ⟨hk.owned, hk.heap, ?_⟩
  rintro a (⟨j, -, hlen, hown⟩ | ⟨d, -, hd⟩)
  · exact (hw.kempt j _ (getElem?_eq_getElem hlen)).owned a hown
  · exact hk.owned a hd.owned

theorem Kempt.transfer (hk : Kempt strict w g h) (hmem : ∀ a, g.Owned a → w'.mem a = w.mem a)
    (hmap : ∀ r ∈ w.mapped, ∀ a, r.1 ≤ a → a < r.1 + r.2 → g.Owned a → r ∈ w'.mapped) : Kempt strict w' g h := by
  obtain ⟨inv, settled, growth, owned, heap, block, live, nodup⟩ := hk
  refine ⟨?_, settled, growth, ?_, ?_, ?_, live, nodup⟩
  · have h1 : Invariant.Inv _ g h.ar w'.mem :=
      inv.congr (fun c x o hc ho _ => hmem _ ⟨c, x, hc, by omega, by omega⟩) (by simp)
    exact h1.rebase _ false (by simp)
  · intro a ha
    obtain ⟨r, hr, hle, hlt⟩ := owned a ha
    exact ⟨r, hmap r hr a hle hlt ha, hle, hlt⟩
  · intro r hr
    obtain ⟨hlt, -, z, hz⟩ := inv.tiled.heap r.1 r.2 hr
    refine hmap _ (heap r hr) r.1 (Nat.le_refl _) (by dsimp only; omega) ⟨r.1, _, hz, Nat.le_refl _, ?_⟩
    simp only [Cell.extent_chunk]
    omega
  · intro c z hc
    obtain ⟨hz, hr⟩ := block c z hc
    exact ⟨hz, hmap _ hr c (Nat.le_refl _) (by dsimp only; omega)
      ⟨c, _, hc, Nat.le_refl _, by simp only [Cell.extent_block]; omega⟩⟩

theorem Upkeep.put (hw : Upkeep strict w G) (hi : w.arenas[i]? = some h) {live : List Block} {gone : List Nat}
    (hk : Kempt strict (w.put i s live gone) g' ⟨s.ar, live, gone⟩)
    (hmem : ∀ j, j ≠ i → j < w.arenas.length → ∀ a, (G j).Owned a → s.mem a = w.mem a)
    (howned : ∀ a, g'.Owned a → (G i).Owned a ∨ ¬ Within w.mapped a)
    (hmap : ∀ r ∈ w.mapped, ∀ a, r.1 ≤ a → a < r.1 + r.2 → ¬ (G i).Owned a → r ∈ s.mapped)
    (hreg : s.mapped.Pairwise Apart) : Upkeep strict (w.put i s live gone) (update G i g') := by
  have hlt := lt_of_arena hi
  have hlen : (w.put i s live gone).arenas.length = w.arenas.length := by simp [World.put]
  have hout : ∀ j, j ≠ i → j < w.arenas.length → ∀ a, g'.Owned a → ¬ (G j).Owned a := by
    intro j hj hjl a ha hja
    rcases howned a ha with hia | hia
    · exact hw.apart i j (Ne.symm hj) hlt hjl a hia hja
    · exact hia ((hw.kempt j _ (getElem?_eq_getElem hjl)).owned a hja)
  refine ⟨?_, ?_, hreg⟩
  · intro j h' hj
    by_cases hji : j = i
    · subst hji
      simp only [World.put, getElem?_set_self hlt, Option.some.injEq] at hj
      rw [update_self, ← hj]
      exact hk
    · simp only [World.put, getElem?_set_ne (Ne.symm hji)] at hj
      rw [update_of_ne hji]
      have hjl := lt_of_arena hj
      refine (hw.kempt j h' hj).transfer (hmem j hji hjl) ?_
      intro r hr a hle hlt' ha
      exact hmap r hr a hle hlt' fun hia => hw.apart i j (Ne.symm hji) hlt hjl a hia ha
  · intro j k hjk hj hk' a ha ha'
    rw [hlen] at hj hk'
    by_cases hji : j = i
    · subst hji
      rw [update_self] at ha
      rw [update_of_ne (Ne.symm hjk)] at ha'
      exact hout k (Ne.symm hjk) hk' a ha ha'
    · rw [update_of_ne hji] at ha
      by_cases hki : k = i
      · subst hki
        rw [update_self] at ha'
        exact hout j hji hj a ha' ha
      · rw [update_of_ne hki] at ha'
        exact hw.apart j k hjk hj hk' a ha ha'

theorem handed_unique {ar : Arena} {m : Mem} (hI : Invariant.Inv E g ar m) {d' : Bool} (hd : Handed g c d)
    (hd' : Handed g c d') : d = d' := by
  have hne : ∀ z, g.kind c = .live → g.cell c ≠ some (.block z) := by
    intro z hk hz
    obtain ⟨y, hy⟩ := hI.bins.home c (by simp [hk])
    cases hy.symm.trans hz
  cases d <;> cases d' <;> simp only [Handed] at hd hd'
  · rfl
  · obtain ⟨z, hz⟩ := hd'
    exact absurd hz (hne z hd)
  · obtain ⟨z, hz⟩ := hd
    exact absurd hz (hne z hd')
  · rfl

theorem block_eq {ar : Arena} {m : Mem} (hI : Invariant.Inv E g ar m) {b : Block} (hp : b.ptr = c + 16)
    (hb : Handed g c b.direct) (hd : Handed g c d) : b = ⟨c + 16, d⟩ := by
  have he := handed_unique hI hb hd
  cases b with
  | mk p d' => simp_all

structure Aside (g g' : Ghost) (c : Nat) : Prop where
  busy : ∀ e, e ≠ c → (g.kind e).busy = true ∨ (g'.kind e).busy = true → g'.kind e = g.kind e ∧ g'.cell e = g.cell e
  block : ∀ e z, e ≠ c → (g'.cell e = some (.block z) ↔ g.cell e = some (.block z))

theorem Aside.handed (ha : Aside g g' c) (he : e ≠ c) (d : Bool) : Handed g' e d ↔ Handed g e d := by
  cases d with
  | true => simp only [Handed, ha.block e _ he]
  | false =>
    simp only [Handed]
    constructor
    · intro hk
      rw [← (ha.busy e he (.inr (by simp [hk, Kind.busy]))).1, hk]
    · intro hk
      rw [(ha.busy e he (.inl (by simp [hk, Kind.busy]))).1, hk]

theorem Aside.unmapped (ha : Aside g g' c) (he : e ≠ c) : g'.kind e = .unmapped ↔ g.kind e = .unmapped := by
  constructor
  · intro hk
    rw [← (ha.busy e he (.inr (by simp [hk, Kind.busy]))).1, hk]
  · intro hk
    rw [(ha.busy e he (.inl (by simp [hk, Kind.busy]))).1, hk]

theorem Aside.cell (ha : Aside g g' c) (he : e ≠ c) (hd : Handed g e d) : g'.cell e = g.cell e := by
  cases d with
  | true =>
    obtain ⟨z, hz⟩ := hd
    rw [hz, (ha.block e z he).mpr hz]
  | false => exact (ha.busy e he (.inl (by simp [show g.kind e = .live from hd, Kind.busy]))).2

structure Gained (fresh : Nat → Prop) (g g' : Ghost) (c : Nat) (d : Bool) : Prop extends Aside g g' c where
  handed : Handed g' c d
  idle : ∀ d', ¬ Handed g c d'
  calm : g.kind c ≠ .unmapped ∧ g'.kind c ≠ .unmapped
  owned : ∀ a, g'.Owned a → g.Owned a ∨ fresh a
  settled : g'.Settled

structure Lost (g g' : Ghost) (c : Nat) : Prop extends Aside g g' c where
  idle : ∀ d, ¬ Handed g' c d
  owned : ∀ a, g'.Owned a → g.Owned a
  settled : g'.Settled

theorem Kempt.gain (hk : Kempt strict w g h) (hI : Invariant.Inv E g' s.ar s.mem) (hE : E.strict = strict)
    (hg : Gained (Newly w.mapped s.mapped) g g' c d) (hgrow : Growth s.ar) (hmap : ∀ r ∈ w.mapped, r ∈ s.mapped)
    (hheap : ∀ r ∈ s.ar.allocedHeaps, r ∈ h.ar.allocedHeaps ∨ (r.1, r.2 + 32 - r.1) ∈ s.mapped)
    (hblock : ∀ z, g'.cell c = some (.block z) → MMAP_THRESHOLD ≤ z ∧ (c, 16 + z) ∈ s.mapped) (gone : List Nat) :
    Kempt strict (w.put i s (⟨c + 16, d⟩ :: h.live) gone) g' ⟨s.ar, ⟨c + 16, d⟩ :: h.live, gone⟩ := by
  subst hE
  refine ⟨hI.rebase _ false (by simp), hg.settled, hgrow, ?_, ?_, ?_, ?_, ?_⟩
  · intro a ha
    rcases hg.owned a ha with ha | ha
    · obtain ⟨r, hr, hin⟩ := hk.owned a ha
      exact ⟨r, hmap r hr, hin⟩
    · exact ha.1
  · intro r hr
    rcases hheap r hr with hr | hr
    · exact hmap _ (hk.heap r hr)
    · exact hr
  · intro e z he
    by_cases hec : e = c
    · subst hec
      exact hblock z he
    · obtain ⟨h1, h2⟩ := hk.block e z ((hg.block e z hec).mp he)
      exact ⟨h1, hmap _ h2⟩
  · intro b
    simp only [mem_cons, hk.live]
    constructor
    · rintro (rfl | ⟨e, hp, hd⟩)
      · exact ⟨c, rfl, hg.handed⟩
      · have hec : e ≠ c := by
          rintro rfl
          exact hg.idle _ hd
        exact ⟨e, hp, (hg.toAside.handed hec _).mpr hd⟩
    · rintro ⟨e, hp, hd⟩
      by_cases hec : e = c
      · subst hec
        exact .inl (block_eq hI hp hd hg.handed)
      · exact .inr ⟨e, hp, (hg.toAside.handed hec _).mp hd⟩
  · refine List.nodup_cons.mpr ⟨?_, hk.nodup⟩
    intro hm
    obtain ⟨e, hp, hd⟩ := (hk.live _).mp hm
    obtain rfl : c = e := by dsimp only at hp; omega
    exact hg.idle _ hd

theorem Kempt.lose (hk : Kempt strict w g h) (hI : Invariant.Inv E g' s.ar s.mem) (hE : E.strict = strict)
    (hd : ∀ d', Handed g c d' → d' = d) (hg : Lost g g' c) (hgrow : Growth s.ar)
    (hmap : ∀ r ∈ w.mapped, ∀ a, r.1 ≤ a → a < r.1 + r.2 → g'.Owned a → r ∈ s.mapped)
    (hheap : s.ar.allocedHeaps = h.ar.allocedHeaps) (gone : List Nat) :
    Kempt strict (w.put i s (h.live.erase ⟨c + 16, d⟩) gone) g' ⟨s.ar, h.live.erase ⟨c + 16, d⟩, gone⟩ := by
  subst hE
  refine ⟨hI.rebase _ false (by simp), hg.settled, hgrow, ?_, ?_, ?_, ?_, hk.nodup.erase _⟩
  · intro a ha
    obtain ⟨r, hr, hle, hlt⟩ := hk.owned a (hg.owned a ha)
    exact ⟨r, hmap r hr a hle hlt ha, hle, hlt⟩
  · intro r hr
    dsimp only at hr
    obtain ⟨hlt, -, z, hz⟩ := hI.tiled.heap r.1 r.2 hr
    rw [hheap] at hr
    refine hmap _ (hk.heap r hr) r.1 (Nat.le_refl _) (by dsimp only; omega) ⟨r.1, _, hz, Nat.le_refl _, ?_⟩
    simp only [Cell.extent_chunk]
    omega
  · intro e z he
    have hec : e ≠ c := by
      rintro rfl
      exact hg.idle true ⟨z, he⟩
    obtain ⟨h1, h2⟩ := hk.block e z ((hg.block e z hec).mp he)
    refine ⟨h1, hmap _ h2 e (Nat.le_refl _) (by dsimp only; omega) ⟨e, _, he, Nat.le_refl _, ?_⟩⟩
    simp only [Cell.extent_block]
    omega
  · intro b
    dsimp only
    rw [hk.nodup.mem_erase_iff, hk.live]
    constructor
    · rintro ⟨hne, e, hp, he⟩
      have hec : e ≠ c := by
        rintro rfl
        refine hne (block_eq hk.inv hp he ?_)
        rw [← hd _ he]
        exact he
      exact ⟨e, hp, (hg.toAside.handed hec _).mpr he⟩
    · rintro ⟨e, hp, he⟩
      have hec : e ≠ c := by
        rintro rfl
        exact hg.idle _ he
      refine ⟨?_, e, hp, (hg.toAside.handed hec _).mp he⟩
      rintro rfl
      dsimp only at hp
      omega

end Picasso.Alloc.Custody
