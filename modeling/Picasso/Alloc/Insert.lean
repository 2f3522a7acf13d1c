import Picasso.Alloc.Lists
import Mathlib.Data.List.Perm.Subperm

namespace Picasso.Alloc.Invariant

open Chunk Allocator Layout Lib.Ring List Option Ghost Kind

variable {E : Env} {g : Ghost} {ar : Arena} {m : Mem}

variable {z c : Nat} {l : List Nat}

theorem Own.of_flags {strict : Bool} {k : Kind} {w w' : Nat} (h : Own strict k z w) (hs : sizeBits w' = sizeBits w)
    (hc : hasFlag w' CURR_IN_USE = hasFlag w CURR_IN_USE) : Own strict k z w' :=
  ⟨fun hk => hs.trans (h.size hk), fun b hb => hc.trans (h.curr b hb)⟩

namespace Inv

variable {c z v : Nat}

theorem setNextPrev (h : Inv E g ar m) (hc : g.cell c = some (.chunk z)) (hk : (g.kind c).used = none)
    (hs : sizeBits v = sizeBits (m (c + 16 + z + 8)))
    (hcu : hasFlag v CURR_IN_USE = hasFlag (m (c + 16 + z + 8)) CURR_IN_USE) :
    Inv E g ar (m.set (c + 16 + z + 8) v) := by
  obtain ⟨y, hy, hin⟩ := h.tiled.next c z hc
  refine h.setHead hy hin ?_ ?_ (.inr ⟨c, z, hc, rfl, hk⟩)
  · rintro w rfl
    exact (h.words.own _ w hy).of_flags hs hcu
  · rintro rfl
    rw [hs, hcu]
    exact h.words.bound _ hy

theorem setNextPrevSize (h : Inv E g ar m) (hc : g.cell c = some (.chunk z)) (hk : (g.kind c).used ≠ some false)
    (hm : E.marked = true → ∀ y, g.cell (c + 16 + z) = some (.chunk y) →
      hasFlag v GC_MARK = hasFlag (m (c + 16 + z)) GC_MARK) : Inv E g ar (m.set (c + 16 + z) v) := by
  obtain ⟨y, hy, -⟩ := h.tiled.next c z hc
  refine h.setPrev hy ?_ hm
  intro p w hp he hu
  rw [h.tiled.pred_unique hp hc he] at hu
  exact absurd hu hk

theorem setLooseHead (h : Inv E g ar m) (hc : g.cell c = some (.chunk z)) (hk : (g.kind c).sized = false)
    (hp : hasFlag v PREV_IN_USE = hasFlag (m (c + 8)) PREV_IN_USE) : Inv E g ar (m.set (c + 8) v) := by
  refine h.setHead hc rfl ?_ (by simp) (.inl hp)
  rintro w -
  cases hkc : g.kind c <;> simp_all [sized]
  all_goals exact ⟨by simp [sized], by simp [curr]⟩

end Inv

theorem nextChunk_eq (hs : sizeBits (m (c + 8)) = z) : nextChunk m c = c + 16 + z := by
  simp [nextChunk, getSize, size, HEADER_SIZE, hs]

theorem insertIntoUnsortedbin_spec (h : Inv E g ar m) (hc : g.cell c = some (.chunk z)) (hp : (g.kind c).plain = true)
    (hb : (g.kind c).busy = false) (hs : sizeBits (m (c + 8)) = z) :
    ∃ m' g', insertIntoUnsortedbin ar m c = some m' ∧ Inv E g' ar m' ∧ g'.cell = g.cell ∧
      g'.kind = Function.update g.kind c (.binned .unsorted) ∧ (∀ o, 48 ≤ o → o < 16 + z → m' (c + o) = m (c + o)) ∧
      ∀ d x, d ≠ c → g.cell d = some x → hasFlag (m' (d + 8)) CURR_IN_USE = hasFlag (m (d + 8)) CURR_IN_USE := by
  have hal := h.tiled.chunk c z hc
  have hk : (g.retag c .loose).kind c = .loose := by simp [retag]
  have hc' : (g.retag c .loose).cell c = some (.chunk z) := hc
  have h1 := (h.loosen hc hp hb).setLooseHead (v := withoutFlag (m (c + 8)) CURR_IN_USE) hc'
    (by simp [hk, sized]) (by simp)
  generalize hm1 : m.set (c + 8) (withoutFlag (m (c + 8)) CURR_IN_USE) = m1 at h1
  have hs1 : sizeBits (m1 (c + 8)) = z := by simp [← hm1, hs]
  have h2 := h1.setNextPrev (v := withoutFlag (m1 (c + 16 + z + 8)) PREV_IN_USE) hc' (by simp [hk, used])
    (by simp) (by simp)
  generalize hm2 : m1.set (c + 16 + z + 8) (withoutFlag (m1 (c + 16 + z + 8)) PREV_IN_USE) = m2 at h2
  have hs2 : m2 (c + 8) = m1 (c + 8) := by rw [← hm2, set_of_ne (by omega)]
  have h3 := h2.setNextPrevSize (v := z + flagBits (m2 (c + 16 + z))) hc' (by simp [hk, used])
    (fun _ _ _ => mark_add_flagBits _ hal.2.1)
  generalize hm3 : m2.set (c + 16 + z) (z + flagBits (m2 (c + 16 + z))) = m3 at h3
  have hs3 : m3 (c + 8) = m1 (c + 8) := by rw [← hm3, set_of_ne (by omega), hs2]
  have h4 := (h3.setBody (o := 40) hc' (by omega) 0 (by simp [hk, plain]) (by simp [hk, busy])
    (by omega)).setBody (o := 32) hc' (by omega) 0 (by simp [hk, plain]) (by simp [hk, busy])
    (by simp [hk, flat])
  generalize hm4 : (m3.set (c + 40) 0).set (c + 32) 0 = m4 at h4
  have h4c : ∀ a, a ≠ c + 40 → a ≠ c + 32 → m4 a = m3 a := by
    intro a h₁ h₂
    rw [← hm4, set_of_ne h₂, set_of_ne h₁]
  have h5 : Inv E ((g.retag c .loose).retag c .detached) ar m4 := by
    refine h4.retag hc' (by simp [hk, plain]) rfl ⟨?_, ?_⟩ ⟨?_, ?_⟩ ?_ (by simp) (by simp [hk, busy]) (by simp)
    · intro _
      rw [h4c _ (by omega) (by omega), hs3, hs1]
    · simp only [curr, Option.some.injEq, forall_eq']
      rw [h4c _ (by omega) (by omega), hs3, ← hm1]
      simp
    · simp only [used, Option.some.injEq, forall_eq']
      rw [h4c _ (by omega) (by omega), ← hm3, set_of_ne (by omega), ← hm2]
      simp
    · intro _
      rw [h4c _ (by omega) (by omega), ← hm3, set_self]
      exact sizeBits_add_flagBits _ hal.2.1
    · intro _
      simp [← hm4]
  have h6 := h5.insertFd (p := c) (b := .unsorted) trivial (by simp [retag, Bin.outside]) hc' trivial
  refine ⟨_, _, ?_, h6, rfl, ?_, ?_, ?_⟩
  · have hu1 : unsetCurrInuse m c = m1 := hm1
    have hu2 : unsetPrevInuse m1 (c + 16 + z) = m2 := hm2
    have hn2 : nextChunk m2 c = c + 16 + z := nextChunk_eq (by rw [hs2, hs1])
    have hg2 : getSize m2 c = z := by simp [getSize, size, hs2, hs1]
    have hg3 : getSize m3 c = z := by simp [getSize, size, hs3, hs1]
    have hu3 : setPrevSize m2 (c + 16 + z) z (getPrevSizeFlags m2 (c + 16 + z)) = some m3 := by
      rw [setPrevSize, if_neg (by omega), ← hm3]
      rfl
    have hu4 : setNextprevSizeptrTo m3 c 0 = m4 := hm4
    simp only [insertIntoUnsortedbin, hu1, nextChunk_eq hs1, hu2, hn2, hg2, hu3, bind_eq_bind, bind_some,
      hg3, hu4]
    rw [if_pos (by omega)]
    rfl
  · simp [enring, retag]
  · intro o ho ho'
    have hdeep := h5.insertFd_deep (p := c) (b := .unsorted) trivial (by simp [retag, Bin.outside]) hc' ho
      (by simpa using ho')
    rw [hdeep, h4c _ (by omega) (by omega), ← hm3, set_of_ne, ← hm2, set_of_ne, ← hm1, set_of_ne] <;> omega
  · intro d x hd hx
    obtain ⟨-, hN, -, hT⟩ := h5.insertFd_splice (p := c) (b := .unsorted) trivial (by simp [retag, Bin.outside]) hc'
    have hx16 := h.tiled.extent_ge hx
    have hsep := h.tiled.apart_of_ne hx hc hd
    simp only [Cell.extent_chunk] at hsep
    rw [(hT.head hN h5.tiled (by omega) (by omega) (c := d) (x := x) hx).2, h4c _ (by omega) (by omega), ← hm3,
      set_of_ne (by omega), ← hm2]
    -- the chunk behind loses its `PREV_IN_USE` bit
    by_cases hdn : d = c + 16 + z
    · rw [hdn, set_self, ← hm1, set_of_ne (by omega)]
      simp
    · rw [set_of_ne, ← hm1, set_of_ne] <;> omega

theorem inside_lt_fuel (hn : l.Nodup) (hl : ∀ c ∈ l, ∃ h ∈ ar.allocedHeaps, h.1 ≤ c ∧ c < h.2) :
    l.length < fuel ar := by
  have hsub : l ⊆ ar.allocedHeaps.flatMap fun h => List.range' h.1 (h.2 - h.1) := by
    intro c hc
    obtain ⟨h, hh, hs, he⟩ := hl c hc
    refine mem_flatMap.mpr ⟨h, hh, ?_⟩
    simp only [List.mem_range'_1]
    omega
  have := (subperm_of_subset hn hsub).length_le
  simp only [length_flatMap, length_range'] at this
  unfold fuel
  omega

theorem length_lt_fuel (h : Inv E g ar m) (hn : l.Nodup) (hl : ∀ c ∈ l, g.kind c ≠ .loose) : l.length < fuel ar := by
  refine inside_lt_fuel hn fun c hc => ?_
  obtain ⟨z, hz⟩ := h.bins.home c (hl c hc)
  obtain ⟨s, e, hh, hs, he⟩ := h.tiled.inside c z hz
  exact ⟨(s, e), hh, hs, by dsimp only; omega⟩

theorem Inv.order_lt_fuel (h : Inv E g ar m) {i : Nat} (hi : i < LARGEBINS_COUNT) : (g.order i).length < fuel ar := by
  refine length_lt_fuel h (nodup_cons.mp (h.order_nodup hi)).2 fun a ha => ?_
  rcases (h.bins.order i a).mp ha with hk | hk <;> simp [hk]

theorem findCeil_spec {head k n : Nat} {x : Nat} (hp : Path (nextSizeptr m) (prevSizeptr m) x l head) (hh : head ∉ l)
    (hn : l.length < n) : ∃ l1 l2, l = l1 ++ l2 ∧ findCeil m head k n (first l head) = some (first l2 head) ∧
      (∀ a ∈ l1, getSize m a < k) ∧ ∀ a ∈ l2.head?, k ≤ getSize m a := by
  induction l generalizing x n with
  | nil =>
    obtain ⟨n, rfl⟩ : ∃ j, n = j + 1 := ⟨n - 1, by simp only [length_nil] at hn; omega⟩
    exact ⟨[], [], rfl, by simp [findCeil, first], by simp, by simp⟩
  | cons a l ih =>
    obtain ⟨n, rfl⟩ : ∃ j, n = j + 1 := ⟨n - 1, by simp only [length_cons] at hn; omega⟩
    simp only [mem_cons, not_or] at hh
    simp only [length_cons, Nat.add_lt_add_iff_right] at hn
    by_cases hlt : getSize m a < k
    · obtain ⟨l1, l2, hl, hf, hlow, hhigh⟩ := ih hp.2.2 hh.2 hn
      refine ⟨a :: l1, l2, by simp [hl], ?_, by simpa [hlt] using hlow, hhigh⟩
      have hnext : nextSizeptr m a = first l head := hp.2.2.next_eq
      have hfirst : first (a :: l) head = a := rfl
      rw [← hf, hfirst, findCeil, if_pos ⟨Ne.symm hh.1, hlt⟩, hnext]
    · exact ⟨[], a :: l, rfl, by simp [findCeil, first, hlt], by simp, by simpa using hlt⟩

theorem insertIntoSmallbin_spec (h : Inv E g ar m) (hc : g.cell c = some (.chunk z)) (hk : g.kind c = .detached)
    (hz : z < 16 * SMALLBINS_COUNT) :
    ∃ m' g' i, insertIntoSmallbin ar m c = some m' ∧ Inv E g' ar m' ∧ g'.cell = g.cell ∧
      g'.kind = Function.update g.kind c (.binned (.small i)) ∧ g'.ring .unsorted = g.ring .unsorted := by
  have hal := h.tiled.chunk c z hc
  have hsize : getSize m c = z := (h.words.own c z hc).size (by simp [hk, sized])
  have hi : z / 16 - 1 < SMALLBINS_COUNT := by
    unfold SMALLBINS_COUNT at hz ⊢
    omega
  have hfits : (binned (.small (z / 16 - 1))).Fits z := ⟨hi, by omega⟩
  have h' := h.insertFd (b := .small (z / 16 - 1)) hi hk hc hfits
  refine ⟨_, _, z / 16 - 1, ?_, h', rfl, rfl, by simp [enring]⟩
  have hidx : getSmallbinIndex (getSize m c) = some (z / 16 - 1) := by
    rw [hsize, getSmallbinIndex, if_neg (by omega)]
  simp only [insertIntoSmallbin, hidx, bind_eq_bind, bind_some]
  rw [if_pos hi]
  rfl

theorem getLargebinIndex_of_le (hz : 512 ≤ z) : ∃ i, getLargebinIndex z = some i := by
  unfold getLargebinIndex
  rw [if_neg (by omega)]
  split <;> exact ⟨_, rfl⟩

theorem insertIntoLargebin_spec (h : Inv E g ar m) (hc : g.cell c = some (.chunk z)) (hk : g.kind c = .detached)
    (hz : 16 * SMALLBINS_COUNT ≤ z) :
    ∃ m' g' i, insertIntoLargebin ar m c = some m' ∧ Inv E g' ar m' ∧ g'.cell = g.cell ∧
      g'.kind = Function.update g.kind c (.binned (.large i)) ∧ g'.ring .unsorted = g.ring .unsorted := by
  have hsize : getSize m c = z := (h.words.own c z hc).size (by simp [hk, sized])
  obtain ⟨i, hi⟩ := getLargebinIndex_of_le (z := z) hz
  have hv := getLargebinIndex_lt hi
  have hP := h.links.order i hv
  have hnodup := nodup_cons.mp (h.order_nodup hv)
  obtain ⟨l1, l2, hl, hceil, hlow, hhigh⟩ := findCeil_spec (k := z) hP hnodup.1 (h.order_lt_fuel hv)
  have hsizes : ∀ a ∈ g.order i, ∀ x, g.cell a = some (.chunk x) → getSize m a = x := by
    intro a ha x hx
    refine (h.words.own a x hx).size ?_
    rcases (h.bins.order i a).mp ha with hk | hk <;> simp [hk, sized]
  have h1 := h.insertSorted hi hk hc hl ?_ ?_ rfl rfl
  rotate_left
  · intro a ha x y hx hy
    cases hc.symm.trans hy
    have := hlow a ha
    rw [hsizes a (by simp [hl, ha]) x hx] at this
    omega
  · -- the first one is not smaller, and the list is sorted
    intro a ha x y hx hy
    cases hc.symm.trans hx
    obtain ⟨b, l3, rfl⟩ := exists_cons_of_ne_nil (ne_nil_of_mem ha)
    obtain ⟨u, hu, -⟩ := h.live_chunk (c := b) (by
      rcases (h.bins.order i b).mp (by simp [hl]) with hk | hk <;> simp [hk])
    have hb := hhigh b rfl
    rw [hsizes b (by simp [hl]) u hu] at hb
    rcases mem_cons.mp ha with rfl | ha
    · cases hu.symm.trans hy
      exact hb
    · have hsorted := h.bins.sorted i
      rw [hl, pairwise_append] at hsorted
      exact Nat.le_trans hb ((pairwise_cons.mp hsorted.2.1).1 a ha u y hu hy)
  have h2 := h1.insertFd (p := c) (b := .large i) hv (by simp [enrank, Bin.outside]) hc hi
  refine ⟨_, _, i, ?_, h2, rfl, ?_, ?_⟩
  · have hfirst : nextSizeptr m (ar.largebins i) = first (g.order i) (ar.largebins i) := hP.next_eq
    simp only [insertIntoLargebin, hsize, hi, bind_eq_bind, bind_some, hfirst, hceil]
    rfl
  · simp [enring, enrank]
  · simp [enring, enrank]

theorem detach_spec (h : Inv E g ar m) {p : Nat} {b : Bin} (hk : g.kind p = .binned b) :
    ∃ g', Inv E g' ar (unlinkChunkFromSortedlist (unlinkChunkFromFdlist m p) p) ∧ g'.cell = g.cell ∧
      g'.kind = Function.update g.kind p .detached ∧
      ∀ d x, g.cell d = some x → unlinkChunkFromSortedlist (unlinkChunkFromFdlist m p) p d = m d ∧
        unlinkChunkFromSortedlist (unlinkChunkFromFdlist m p) p (d + 8) = m (d + 8) := by
  have h1 := h.unlinkFd hk
  have hhead1 : ∀ d x, g.cell d = some x →
      unlinkChunkFromFdlist m p d = m d ∧ unlinkChunkFromFdlist m p (d + 8) = m (d + 8) := fun d x hd =>
    (h.unlinkFd_splice hk rfl).2.1.head (h.ring_nodes (h.valid hk)) h.tiled (by omega) (by omega) hd
  cases hb : b with
  | large i =>
    subst hb
    have hk1 : (g.unring p (.large i)).kind p = .ranked i := by simp [unring, Bin.outside]
    have h2 := h1.unlinkSorted hk1
    refine ⟨_, h2, rfl, by simp [unring, unrank], fun d x hd => ?_⟩
    obtain ⟨h₁, h₂⟩ := (h1.unlinkSorted_splice hk1 rfl).2.1.head (h1.order_nodes (h1.ranked_valid hk1)) h1.tiled
      (by omega) (by omega) (c := d) (x := x) hd
    exact ⟨h₁.trans (hhead1 d x hd).1, h₂.trans (hhead1 d x hd).2⟩
  | unsorted | small =>
    subst hb
    rw [h1.unlinkSorted_flat (by simp [unring, Bin.outside, flat])]
    exact ⟨_, h1, rfl, by simp [unring, Bin.outside], hhead1⟩

end Picasso.Alloc.Invariant
