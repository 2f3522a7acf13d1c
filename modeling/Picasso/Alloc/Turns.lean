import Picasso.Alloc.Custody

namespace Picasso.Alloc.Custody

open Chunk Allocator Layout Arenas List Function
open Invariant hiding Inv
open Ghost

variable {strict : Bool} {w w' : World} {g g' : Ghost} {G : Nat → Ghost} {h : Holding} {i : Nat}

variable {rs rs' : List (Nat × Nat)} {r : Nat × Nat} {a page c n v z : Nat} {s : State} {d : Bool}

theorem region_unique (hrs : rs.Pairwise Apart) {r' : Nat × Nat} (hr : r ∈ rs) (hr' : r' ∈ rs)
    (ha : r.1 ≤ a ∧ a < r.1 + r.2) (ha' : r'.1 ≤ a ∧ a < r'.1 + r'.2) : r = r' := by
  have hsymm : Std.Symm Apart := ⟨fun _ _ => Or.symm⟩
  by_contra hne
  have := hrs.forall hr hr' hne
  unfold Apart at this
  omega

theorem pairwise_fresh (hrs : rs.Pairwise Apart) {size : Nat} (hf : Fresh rs page size) :
    ((page, size) :: rs).Pairwise Apart := by
  refine pairwise_cons.mpr ⟨fun r hr => ?_, hrs⟩
  have := hf.2.2.2 r hr
  unfold Apart
  dsimp only
  omega

theorem mem_erase (hr : r ∈ rs) (ha : r.1 ≤ a ∧ a < r.1 + r.2) (hout : ¬ (c ≤ a ∧ a < c + n)) :
    r ∈ rs.erase (c, n) := by
  refine (mem_erase_of_ne ?_).mpr hr
  rintro rfl
  exact hout ha

def Extends (rs rs' : List (Nat × Nat)) : Prop :=
  rs' = rs ∨ ∃ page size, Fresh rs page size ∧ rs' = (page, size) :: rs

theorem Extends.subset (h : Extends rs rs') (hr : r ∈ rs) : r ∈ rs' := by
  rcases h with rfl | ⟨page, size, -, rfl⟩
  · exact hr
  · exact mem_cons_of_mem _ hr

theorem Extends.apart (h : Extends rs rs') (hrs : rs.Pairwise Apart) : rs'.Pairwise Apart := by
  rcases h with rfl | ⟨page, size, hf, rfl⟩
  · exact hrs
  · exact pairwise_fresh hrs hf

theorem Sound.of_put (hw : Sound strict w G) (hi : w.arenas[i]? = some h) {live : List Block} {gone : List Nat}
    (hu : Upkeep strict (w.put i s live gone) (update G i g')) (htop : TopOk g' s.ar) :
    Sound strict (w.put i s live gone) (update G i g') := by
  refine ⟨hu, ?_⟩
  intro j h' hj
  by_cases hji : j = i
  · subst hji
    simp only [World.put, getElem?_set_self (lt_of_arena hi), Option.some.injEq] at hj
    rw [update_self, ← hj]
    exact htop
  · simp only [World.put, getElem?_set_ne (Ne.symm hji)] at hj
    rw [update_of_ne hji]
    exact hw.top j h' hj

theorem Sound.gain (hw : Sound strict w G) (hi : w.arenas[i]? = some h)
    (hI : Invariant.Inv (env strict false w G i 0) g' s.ar s.mem) (hg : Gained (Newly w.mapped s.mapped) (G i) g' c d)
    (htop : TopOk g' s.ar) (hgrow : Growth s.ar) (hmap : Extends w.mapped s.mapped)
    (hheap : ∀ r ∈ s.ar.allocedHeaps, r ∈ h.ar.allocedHeaps ∨ (r.1, r.2 + 32 - r.1) ∈ s.mapped)
    (hblock : ∀ z, g'.cell c = some (.block z) → MMAP_THRESHOLD ≤ z ∧ (c, 16 + z) ∈ s.mapped) :
    Sound strict (w.put i s (⟨c + 16, d⟩ :: h.live) h.gone) (update G i g') := by
  refine hw.of_put hi (hw.toUpkeep.put hi ?_ ?_ ?_ ?_ (hmap.apart hw.regions)) htop
  · exact (hw.kempt i h hi).gain hI rfl hg hgrow (fun r hr => hmap.subset hr) hheap hblock _
  · intro j hj hlen a ha
    exact hI.guard.frame a (.inl ⟨j, hj, hlen, ha⟩)
  · intro a ha
    exact (hg.owned a ha).imp_right fun hn => hn.2
  · intro r hr _ _ _ _
    exact hmap.subset hr

theorem Upkeep.lose (hw : Upkeep strict w G) (hi : w.arenas[i]? = some h) {marked : Bool}
    (hI : Invariant.Inv (env strict marked w G i c) g' s.ar s.mem) (hd : ∀ d', Handed (G i) c d' → d' = d)
    (hg : Lost (G i) g' c) (hgrow : Growth s.ar) (hheap : s.ar.allocedHeaps = h.ar.allocedHeaps)
    (hmap : ∀ r ∈ w.mapped, ∀ a, r.1 ≤ a → a < r.1 + r.2 → g'.Owned a ∨ ¬ (G i).Owned a → r ∈ s.mapped)
    (hsub : s.mapped.Sublist w.mapped) (gone : List Nat) :
    Upkeep strict (w.put i s (h.live.erase ⟨c + 16, d⟩) gone) (update G i g') := by
  refine hw.put hi ?_ ?_ ?_ ?_ (hw.regions.sublist hsub)
  · exact (hw.kempt i h hi).lose hI rfl hd hg hgrow (fun r hr a hle hlt ha => hmap r hr a hle hlt (.inl ha)) hheap _
  · intro j hj hlen a ha
    exact hI.guard.frame a (.inl ⟨j, hj, hlen, ha⟩)
  · intro a ha
    exact .inl (hg.owned a ha)
  · intro r hr a hle hlt ha
    exact hmap r hr a hle hlt (.inr ha)

theorem payloadSize_bounds (n : Nat) : payloadSize n % 16 = 0 ∧ 32 ≤ payloadSize n ∧ payloadSize n < 2 ^ 64 := by
  unfold payloadSize align16 MIN_PAYLOAD_SIZE
  omega

theorem Sound.served (hw : Sound strict w G) (hi : w.arenas[i]? = some h) (hn : payloadSize n < MMAP_THRESHOLD)
    (hr : allocateChunk (w.state h) page (payloadSize n) = some (v, s)) :
    ∃ g', Gained (Newly w.mapped s.mapped) (G i) g' v false ∧
      Sound strict (w.put i s (⟨v + 16, false⟩ :: h.live) h.gone) (update G i g') ∧
      Invariant.Inv (env strict false w G i 0) g' s.ar s.mem ∧ s.unmapped = w.unmapped ∧
      (∃ z, g'.cell v = some (.chunk z) ∧ (z = payloadSize n ∨
        (G i).cell v = some (.chunk z) ∧ payloadSize n ≤ z ∧ z < payloadSize n + 48)) := by
  have hk := hw.kempt i h hi
  obtain ⟨h16, h32, -⟩ := payloadSize_bounds n
  obtain ⟨-, hm, g', hI, hv, ht⟩ := (allocateChunk_spec (hw.enter hi false 0) rfl hk.settled (hw.top i h hi)
    (hw.backed hi false 0) hk.growth ⟨h16, h32, hn⟩).1 v s hr
  have hnb : ∀ z, (G i).cell v ≠ some (.block z) := by
    intro z hz
    obtain ⟨y, hy, -⟩ := hv.size
    cases hy.symm.trans ((hv.block v z).mpr hz)
  have hg : Gained (Newly w.mapped s.mapped) (G i) g' v false := by
    refine ⟨⟨hv.busy, fun e z _ => hv.block e z⟩, hv.live, ?_, ⟨?_, ?_⟩, hv.owned, hv.settled⟩
    · intro d hd
      cases d with
      | false =>
        have := hv.idle
        rw [show (G i).kind v = .live from hd] at this
        cases this
      | true =>
        obtain ⟨z, hz⟩ := hd
        exact hnb z hz
    · intro hu
      have := hv.idle
      rw [hu] at this
      cases this
    · simp [hv.live]
  refine ⟨g', hg, ?_, hI, hm.unmapped, hv.size⟩
  refine hw.gain hi hI hg ht hm.growth ?_ ?_ ?_
  · rcases hm.heaps with ⟨he, -⟩ | ⟨z, hf, he, -⟩
    · exact .inl he
    · exact .inr ⟨page, z + 48, hf, he⟩
  · intro r hr
    rcases hm.heaps with ⟨-, he⟩ | ⟨z, -, hmap, he⟩
    · rw [he] at hr
      exact .inl hr
    · rw [he, mem_append, mem_singleton] at hr
      refine hr.imp_right ?_
      rintro rfl
      rw [hmap]
      dsimp only
      rw [show page + 16 + z + 32 - page = z + 48 by omega]
      exact mem_cons_self
  · intro z hz
    obtain ⟨y, hy, -⟩ := hv.size
    cases hy.symm.trans hz

theorem Sound.mapped (hw : Sound strict w G) (hi : w.arenas[i]? = some h)
    (hz : z % 16 = 0 ∧ MMAP_THRESHOLD ≤ z ∧ z < 2 ^ 64) (hr : allocChunk (w.state h) page z = some s) :
    Gained (Newly w.mapped s.mapped) (G i) ((G i).map page z) page true ∧
      Sound strict (w.put i s (⟨page + 16, true⟩ :: h.live) h.gone) (update G i ((G i).map page z)) ∧
      Invariant.Inv (env strict false w G i 0) ((G i).map page z) s.ar s.mem ∧ s.unmapped = w.unmapped := by
  have hk := hw.kempt i h hi
  have hz' : z % 16 = 0 ∧ 32 ≤ z ∧ z < 2 ^ 64 := by
    unfold MMAP_THRESHOLD at hz
    omega
  have hM := allocChunk_mapped hz' hr
  have hI := hM.inv (hw.enter hi false 0) (hw.backed hi false 0) ⟨hz'.1, hz'.2.1⟩
  obtain ⟨hnone, hloose⟩ := none_of_fresh (hw.enter hi false 0) (hw.backed hi false 0) hM.fresh (d := page)
    (Nat.le_refl _) (by omega)
  have hg : Gained (Newly w.mapped s.mapped) (G i) ((G i).map page z) page true := by
    refine ⟨⟨?_, ?_⟩, ⟨z, by simp [Ghost.map]⟩, ?_, ⟨by simp [hloose], by simp [Ghost.map, hloose]⟩, ?_, ?_⟩
    · intro e he _
      simp [Ghost.map, he]
    · intro e y he
      simp [Ghost.map, he]
    · intro d hd
      cases d with
      | false => cases hloose.symm.trans hd
      | true =>
        obtain ⟨y, hy⟩ := hd
        cases hnone.symm.trans hy
    · rintro a ⟨e, x, he, hle, hlt⟩
      by_cases hep : e = page
      · subst hep
        simp only [Ghost.map, update_self, Option.some.injEq] at he
        subst he
        simp only [Cell.extent_block] at hlt
        right
        rw [hM.mapped]
        exact ⟨⟨_, mem_cons_self, hle, hlt⟩, not_within_of_fresh hM.fresh hle hlt⟩
      · simp only [Ghost.map, update_of_ne hep] at he
        exact .inl ⟨e, x, he, hle, hlt⟩
    · intro e y he
      have hep : e ≠ page := by
        rintro rfl
        simp [Ghost.map] at he
      simp only [Ghost.map, update_of_ne hep] at he
      exact hk.settled e y he
  refine ⟨hg, ?_, hI, hM.unmapped⟩
  refine hw.gain hi hI hg ?_ (by rw [hM.ar]; exact hk.growth) (.inr ⟨page, 16 + z, hM.fresh, hM.mapped⟩) ?_ ?_
  · rw [hM.ar]
    exact hw.top i h hi
  · intro r hr
    rw [hM.ar] at hr
    exact .inl hr
  · intro y hy
    simp only [Ghost.map, update_self, Option.some.injEq, Cell.block.injEq] at hy
    subst hy
    rw [hM.mapped]
    exact ⟨hz.2.1, mem_cons_self⟩

theorem Upkeep.erase_chunk (hw : Upkeep strict w G) (hi : w.arenas[i]? = some h) (hc : (G i).cell c = some (.chunk z)) :
    w.mapped.erase (c, z + 16) = w.mapped := by
  have hk := hw.kempt i h hi
  obtain ⟨s, e, hh, hle, hlt⟩ := hk.inv.tiled.inside c z hc
  apply erase_of_not_mem
  intro hm
  have := region_unique hw.regions hm (hk.heap _ hh) (a := c) ⟨Nat.le_refl _, by dsimp only; omega⟩
    ⟨hle, by dsimp only; omega⟩
  simp only [Prod.mk.injEq] at this
  omega

theorem Upkeep.keep_chunk (hw : Upkeep strict w G) (hi : w.arenas[i]? = some h) {o : Nat} {x : Cell}
    (hc : (G i).cell c = some x) (ho : o < x.extent) : ¬ Others w G i c (c + o) := by
  have hk := hw.kempt i h hi
  rintro (⟨j, hj, hlen, hown⟩ | ⟨d, hd, y, hy, -, hle, hlt⟩)
  · exact hw.apart i j (Ne.symm hj) (lt_of_arena hi) hlen _ ⟨c, x, hc, by omega, by omega⟩ hown
  · exact hd (hk.inv.tiled.sep hy hc (o := c + o - d) (u := o) (by omega) ho (by omega)).1

theorem retag_self {k : Kind} (hk : g.kind c = k) : g.retag c k = g := by
  subst hk
  simp [retag]

structure Dropped (strict marked : Bool) (w : World) (G : Nat → Ghost) (i : Nat) (h : Holding) (c z : Nat) (s : State)
    (g' : Ghost) : Prop where
  run : release (w.state h) (c + 16) = some s
  lost : Lost (G i) g' c
  upkeep : ∀ gone, Upkeep strict (w.put i s (h.live.erase ⟨c + 16, false⟩) gone) (update G i g')
  inv : Invariant.Inv (env strict marked w G i c) g' s.ar s.mem
  passed : Passed g' s.mem (c + 16 + z)
  heaps : s.ar.allocedHeaps = h.ar.allocedHeaps
  top : (G i).kind c ≠ .top → TopOk (G i) h.ar → TopOk g' s.ar
  moved : s.ar.topChunk = h.ar.topChunk ∨ TopOk g' s.ar
  unmapped : s.unmapped = if MMAP_THRESHOLD ≤ z then w.unmapped ++ [(c, z + 16)] else w.unmapped
  gone : (G i).kind c = .live → (g'.kind c = .unmapped ↔ MMAP_THRESHOLD ≤ z)
  crown : Crowned (G i) g' w.mem s.mem c
  chunk : ∀ d y, g'.cell d = some (.chunk y) → ∃ x, (G i).cell d = some (.chunk x)

theorem Handed.of_chunk {g : Ghost} (hc : g.cell c = some (.chunk z)) (hd : Handed g c d) : d = false := by
  cases d with
  | false => rfl
  | true =>
    obtain ⟨y, hy⟩ := hd
    cases hc.symm.trans hy

theorem lost_of_freed {g g' : Ghost} (hc : g.cell c = some (.chunk z)) (hf : Freed g g' c) : Lost g g' c := by
  refine ⟨⟨hf.busy, fun e y _ => hf.block e y⟩, ?_, hf.owned, hf.settled⟩
  intro d hd
  cases d with
  | false =>
    have := hf.idle
    rw [show g'.kind c = .live from hd] at this
    cases this
  | true =>
    obtain ⟨y, hy⟩ := hd
    cases hc.symm.trans ((hf.block c y).mp hy)

theorem Upkeep.drop_small (hw : Upkeep strict w G) (hi : w.arenas[i]? = some h) (marked : Bool)
    (hc : (G i).cell c = some (.chunk z)) (hp : ((G i).kind c).plain = true) (hs : ((G i).kind c).sized = true)
    (hu : ((G i).kind c).used = some true) (hcurr : isCurrInuse w.mem c = true)
    (htop : h.ar.topChunk = c + 16 + z → (G i).kind (c + 16 + z) = .top)
    (hstrict : strict = true → ¬ Sticks (G i) w.mem c z) (hz : z < MMAP_THRESHOLD) :
    ∃ s g', Dropped strict marked w G i h c z s g' := by
  have hK := hw.kempt i h hi
  obtain ⟨s, g', hr, hrel⟩ := release_spec (s := w.state h) (hw.enter hi marked c) hK.settled hc hp hs hu hcurr
    (fun o ho => hw.keep_chunk hi hc (by simpa using ho)) hz htop hstrict
  have hf := hrel.freed
  have hkept := hrel.kept
  have hl : Lost (G i) g' c := lost_of_freed hc hf
  refine ⟨s, g', hr, hl, fun gone => ?_, hrel.inv, hrel.passed, hkept.heaps, hrel.topOk, hrel.topChunk, ?_, fun _ => ?_,
    hrel.crowned, hf.chunk⟩
  · refine hw.lose hi hrel.inv (fun d => Handed.of_chunk hc) hl ?_ hkept.heaps ?_ ?_ gone
    · have hg := hK.growth
      unfold Growth at hg ⊢
      rw [hkept.growth, hkept.heaps]
      exact hg
    · intro r hr _ _ _ _
      rw [hkept.mapped]
      exact hr
    · rw [hkept.mapped]
      exact List.Sublist.refl _
  · rw [hkept.unmapped, if_neg (by omega)]
    rfl
  · constructor
    · intro hu
      have := hf.idle
      rw [hu] at this
      cases this
    · omega

/-- The pages of the chunk are unmapped. Its header stays as it is, but a chunk
that was handed out is lost. -/
theorem Upkeep.drop_large (hw : Upkeep false w G) (hi : w.arenas[i]? = some h) (marked : Bool)
    (hc : (G i).cell c = some (.chunk z)) (hk : (G i).kind c = .live ∨ (G i).kind c = .unmapped ∨ (G i).kind c = .top)
    (hz : MMAP_THRESHOLD ≤ z) : ∃ s g', Dropped false marked w G i h c z s g' := by
  have hK := hw.kempt i h hi
  have hE := hw.enter hi marked c
  have hsize : getSize (w.state h).mem c = z :=
    (hK.inv.words.own c z hc).size (by rcases hk with hk | hk | hk <;> rw [hk] <;> rfl)
  obtain ⟨g', hg', hI⟩ : ∃ g', g' = (G i).retag c (if (G i).kind c = .top then .top else .unmapped) ∧
      Invariant.Inv (env false marked w G i c) g' h.ar w.mem := by
    refine ⟨_, rfl, ?_⟩
    rcases hk with hk | hk | hk
    · rw [hk]
      exact hE.abandon rfl hc hk
    · rw [retag_self (by simp [hk])]
      exact hE
    · rw [retag_self (by simp [hk])]
      exact hE
  have hkind : g'.kind c = if (G i).kind c = .top then .top else .unmapped := by simp [hg', retag]
  have hcell : g'.cell = (G i).cell := by rw [hg']; rfl
  have hl : Lost (G i) g' c := by
    refine ⟨⟨fun e he _ => by simp [hg', retag, he], fun e y _ => by rw [hcell]⟩, ?_, ?_, ?_⟩
    · intro d hd
      obtain rfl := Handed.of_chunk (hcell ▸ hc) hd
      have := hkind.symm.trans hd
      split_ifs at this
    · intro a ha
      rw [hg'] at ha
      exact ha
    · intro e y he
      by_cases hec : e = c
      · rw [hec, hkind]
        split_ifs <;> rfl
      · rw [hcell] at he
        rw [show g'.kind e = (G i).kind e by simp [hg', retag, hec]]
        exact hK.settled e y he
  refine ⟨_, g', release_munmap hsize hz, hl, fun gone => ?_, hI, ?_, rfl, ?_, .inl rfl, ?_, ?_, ?_, ?_⟩
  · refine hw.lose hi hI (fun d => Handed.of_chunk hc) hl hK.growth rfl ?_ ?_ gone
    · intro r hr _ _ _ _
      simp only [munmap, World.state]
      rw [hw.erase_chunk hi hc]
      exact hr
    · exact erase_sublist
  · obtain ⟨y, hy, hin⟩ := hK.inv.tiled.next c z hc
    exact .inl ⟨y, by rw [hcell]; exact hy, hin⟩
  · intro hne ht
    refine ht.imp_right fun ht => ?_
    dsimp only [munmap, World.state]
    have : h.ar.topChunk ≠ c := by
      intro he
      rw [he] at ht
      exact hne ht
    rw [hg']
    simpa [retag, this] using ht
  · rw [if_pos hz]
    rfl
  · intro hl
    rw [hkind, hl]
    simp only [reduceCtorEq, if_false, true_iff]
    exact hz
  · intro t x ht hx
    by_cases htc : t = c
    · exact .inl ⟨by omega, by omega⟩
    · exact .inr ⟨by simpa [hg', retag, htc] using ht, rfl⟩
  · intro d y hd
    rw [hcell] at hd
    exact ⟨y, hd⟩

theorem Upkeep.drop (hw : Upkeep strict w G) (hi : w.arenas[i]? = some h) (marked : Bool)
    (hc : (G i).cell c = some (.chunk z)) (hk : (G i).kind c = .live ∨ (G i).kind c = .unmapped ∨ (G i).kind c = .top)
    (hcurr : isCurrInuse w.mem c = true) (htop : h.ar.topChunk = c + 16 + z → (G i).kind (c + 16 + z) = .top)
    (hstrict : strict = true → z < MMAP_THRESHOLD ∧ ¬ Sticks (G i) w.mem c z) :
    ∃ s g', Dropped strict marked w G i h c z s g' := by
  by_cases hz : z < MMAP_THRESHOLD
  · have hclass : ((G i).kind c).plain = true ∧ ((G i).kind c).sized = true ∧ ((G i).kind c).used = some true := by
      rcases hk with hk | hk | hk <;> rw [hk] <;> exact ⟨rfl, rfl, rfl⟩
    exact hw.drop_small hi marked hc hclass.1 hclass.2.1 hclass.2.2 hcurr htop (fun hs => (hstrict hs).2) hz
  · cases strict with
    | false => exact hw.drop_large hi marked hc hk (by omega)
    | true => exact absurd (hstrict rfl).1 hz

theorem Sound.unmap_block (hw : Sound strict w G) (hi : w.arenas[i]? = some h) (hc : (G i).cell c = some (.block z))
    (gone : List Nat) :
    release (w.state h) (c + 16) = some (munmap (w.state h) c (z + 16)) ∧ Lost (G i) ((G i).unmap c) c ∧
      Sound strict (w.put i (munmap (w.state h) c (z + 16)) (h.live.erase ⟨c + 16, true⟩) gone)
        (update G i ((G i).unmap c)) := by
  have hK := hw.kempt i h hi
  have hloose : (G i).kind c = .loose := by
    by_contra hk
    obtain ⟨y, hy⟩ := hK.inv.bins.home c hk
    cases hy.symm.trans hc
  have hcell : ∀ e, e ≠ c → ((G i).unmap c).cell e = (G i).cell e := fun e he => by simp [unmap, he]
  have hl : Lost (G i) ((G i).unmap c) c := by
    refine ⟨⟨fun e he _ => ⟨rfl, hcell e he⟩, fun e y he => by rw [hcell e he]⟩, ?_, ?_, ?_⟩
    · intro d hd
      cases d with
      | false => cases hloose.symm.trans hd
      | true =>
        obtain ⟨y, hy⟩ := hd
        simp [unmap] at hy
    · rintro a ⟨e, x, he, hin⟩
      by_cases hec : e = c
      · simp [unmap, hec] at he
      · rw [hcell e hec] at he
        exact ⟨e, x, he, hin⟩
    · intro e y he
      by_cases hec : e = c
      · simp [unmap, hec] at he
      · rw [hcell e hec] at he
        exact hK.settled e y he
  have hI := (hw.enter hi false c).unmap hc
  refine ⟨release_munmap (hK.inv.words.block c z hc) (hK.block c z hc).1, hl, ?_⟩
  refine hw.of_put hi (hw.toUpkeep.lose hi (s := munmap (w.state h) c (z + 16)) hI ?_ hl hK.growth rfl ?_ ?_ gone)
    (hw.top i h hi)
  · intro d hd
    have hb : Handed (G i) c true := ⟨z, hc⟩
    exact handed_unique hK.inv hd hb
  · intro r hr a hle hlt ha
    refine mem_erase hr ⟨hle, hlt⟩ ?_
    rintro ⟨hca, hac⟩
    rcases ha with ⟨e, x, he, h1, h2⟩ | ha
    · by_cases hec : e = c
      · simp [unmap, hec] at he
      · rw [hcell e hec] at he
        have := hK.inv.tiled.apart_of_ne he hc hec
        simp only [Cell.extent_block] at this
        omega
    · exact ha ⟨c, _, hc, hca, by simp only [Cell.extent_block]; omega⟩
  · exact erase_sublist

theorem Kempt.handed_cell (hk : Kempt strict w g h) (hd : Handed g c d) :
    ∃ x, g.cell c = some x ∧ g.opened c x = false ∧ x.extent = 16 + getSize w.mem c ∧ c % 16 = 0 ∧ 32 ≤ getSize w.mem c := by
  cases d with
  | false =>
    have hl : g.kind c = .live := hd
    obtain ⟨z, hz⟩ := hk.inv.bins.home c (by simp [hl])
    have hsize : getSize w.mem c = z := (hk.inv.words.own c z hz).size (by simp [hl, Kind.sized])
    have hal := hk.inv.tiled.chunk c z hz
    exact ⟨_, hz, by simp [opened, hl, Kind.busy], by simp [hsize], hal.1, by omega⟩
  | true =>
    obtain ⟨z, hz⟩ := hd
    have hsize : getSize w.mem c = z := hk.inv.words.block c z hz
    have hal := hk.inv.tiled.block c z hz
    exact ⟨_, hz, rfl, by simp [hsize], hal.1, by omega⟩

theorem Kempt.payload (hk : Kempt strict w g h) (hd : Handed g c d) (hle : c + 16 ≤ a)
    (hlt : a < c + 16 + getSize w.mem c) : Payload g c a := by
  obtain ⟨x, hx, hop, hext, -⟩ := hk.handed_cell hd
  exact ⟨x, hx, hop, hle, by omega⟩

theorem Upkeep.rewrite (hw : Upkeep strict w G) (hi : w.arenas[i]? = some h) (ha : (G i).Owned a)
    (hI : Invariant.Inv ⟨fun _ => False, w.mem, strict, false⟩ (G i) h.ar (w.mem.set a v)) :
    Upkeep strict { w with mem := w.mem.set a v } G := by
  refine ⟨?_, hw.apart, hw.regions⟩
  intro j h' hj
  by_cases hji : j = i
  · subst hji
    obtain rfl : h = h' := Option.some.inj (hi.symm.trans hj)
    obtain ⟨inv, settled, growth, owned, heap, block, live, nodup⟩ := hw.kempt j h hi
    exact ⟨hI.rebase _ false (by simp), settled, growth, owned, heap, block, live, nodup⟩
  · refine (hw.kempt j h' hj).transfer ?_ (fun r hr _ _ _ _ => hr)
    intro b hb
    refine set_of_ne ?_
    rintro rfl
    exact hw.apart i j (Ne.symm hji) (lt_of_arena hi) (lt_of_arena hj) b ha hb

theorem Sound.store (hw : Sound strict w G) (hi : w.arenas[i]? = some h) (hp : Payload (G i) c a) (v : Nat) :
    Sound strict { w with mem := w.mem.set a v } G := by
  have hinv := (hw.kempt i h hi).inv
  refine ⟨hw.toUpkeep.rewrite hi hp.owned (hinv.congr ?_ (by simp)), hw.top⟩
  intro e x o he ho hopen
  refine set_of_ne ?_
  rintro rfl
  obtain ⟨y, hy, hcl, hle, hlt⟩ := hp
  obtain ⟨rfl, hou⟩ := hinv.tiled.sep hy he (o := e + o - c) (u := o) (by omega) ho (by omega)
  cases hy.symm.trans he
  rw [hcl] at hopen
  rcases hopen with h16 | hf
  · omega
  · cases hf

theorem Sound.create (hw : Sound strict w G) {block : Nat}
    (hr : arenaCreate w.mem w.mapped w.unmapped block page = some s) :
    ∃ g, (∀ c, (g.kind c).busy = false) ∧ (∀ c z, g.cell c ≠ some (.block z)) ∧
      (∀ j, j < w.arenas.length → ∀ a, (G j).Owned a → s.mem a = w.mem a) ∧
      Sound strict ⟨s.mem, s.mapped, s.unmapped, w.arenas ++ [⟨s.ar, [], []⟩]⟩
        (update G w.arenas.length g) := by
  obtain ⟨-, g, hI, hC⟩ := arenaCreate_spec (E := ⟨Within w.mapped, w.mem, strict, false⟩) hr rfl (fun _ ha => ha)
    (fun _ _ => rfl)
  have hsub : ∀ r ∈ w.mapped, r ∈ s.mapped := by
    intro r hr
    rw [hC.mapped]
    exact mem_cons_of_mem _ (mem_cons_of_mem _ hr)
  have hmem : ∀ j, j < w.arenas.length → ∀ a, (G j).Owned a → s.mem a = w.mem a := fun j hj a ha =>
    hI.guard.frame a ((hw.kempt j _ (getElem?_eq_getElem hj)).owned a ha)
  have hnew : ∀ j, j < w.arenas.length → ∀ a, g.Owned a → ¬ (G j).Owned a := fun j hj a ha ha' =>
    (hC.owned a ha).2 ((hw.kempt j _ (getElem?_eq_getElem hj)).owned a ha')
  have hcases : ∀ {j h'}, (w.arenas ++ [⟨s.ar, [], []⟩])[j]? = some h' →
      w.arenas[j]? = some h' ∧ j ≠ w.arenas.length ∨ j = w.arenas.length ∧ h' = ⟨s.ar, [], []⟩ := by
    intro j h' hj
    rcases Nat.lt_trichotomy j w.arenas.length with hlt | rfl | hgt
    · rw [getElem?_append_left hlt] at hj
      exact .inl ⟨hj, by omega⟩
    · simp only [getElem?_concat_length, Option.some.injEq] at hj
      exact .inr ⟨rfl, hj.symm⟩
    · rw [getElem?_eq_none (by simp only [length_append, length_singleton]; omega)] at hj
      cases hj
  refine ⟨g, hC.idle, hC.block, hmem, ⟨?_, ?_, ?_⟩, ?_⟩
  · intro j h' hj
    rcases hcases hj with ⟨hj, hne⟩ | ⟨rfl, rfl⟩
    · rw [update_of_ne hne]
      exact (hw.kempt j h' hj).transfer (hmem j (lt_of_arena hj)) (fun r hr _ _ _ _ => hsub r hr)
    · rw [update_self]
      refine ⟨hI.rebase _ false (by simp), hC.settled, hC.growth, fun a ha => (hC.owned a ha).1, ?_, ?_, ?_, nodup_nil⟩
      · intro r hr
        dsimp only at hr
        rw [hC.heaps, mem_singleton] at hr
        subst hr
        rw [hC.mapped]
        dsimp only
        rw [show page + 16 + HEAP_BASE_SIZE + 32 - page = HEAP_BASE_SIZE + 48 by omega]
        exact mem_cons_self
      · intro c z hc
        exact absurd hc (hC.block c z)
      · intro b
        simp only [not_mem_nil, false_iff]
        rintro ⟨c, -, hd⟩
        cases hdir : b.direct <;> rw [hdir] at hd
        · have := hC.idle c
          rw [show g.kind c = .live from hd] at this
          cases this
        · obtain ⟨z, hz⟩ := hd
          exact hC.block c z hz
  · intro j k hjk hj hk a ha ha'
    simp only [length_append, length_singleton] at hj hk
    by_cases hjn : j = w.arenas.length
    · subst hjn
      rw [update_self] at ha
      rw [update_of_ne (Ne.symm hjk)] at ha'
      exact hnew k (by omega) a ha ha'
    · rw [update_of_ne hjn] at ha
      by_cases hkn : k = w.arenas.length
      · subst hkn
        rw [update_self] at ha'
        exact hnew j (by omega) a ha' ha
      · rw [update_of_ne hkn] at ha'
        exact hw.apart j k hjk (by omega) (by omega) a ha ha'
  · rw [hC.mapped]
    exact pairwise_fresh (pairwise_fresh hw.regions hC.blockFresh) hC.pageFresh
  · intro j h' hj
    rcases hcases hj with ⟨hj, hne⟩ | ⟨rfl, rfl⟩
    · rw [update_of_ne hne]
      exact hw.top j h' hj
    · rw [update_self]
      exact hC.top

end Picasso.Alloc.Custody
