import Picasso.Alloc.Tiling
import Picasso.Gc.Sweep

namespace Picasso.Gc.Marks

open Alloc.Chunk Alloc.Allocator Alloc.Layout Alloc.Arenas Alloc.Custody Alloc.Tiling Collector Sweep Lib.Ring List Option
open Alloc.Invariant hiding Inv

variable {strict : Bool} {w : World} {G : Nat → Ghost} {h : Holding} {i : Nat} {m : Mem}

/-- The word is an aligned address inside the payload of the chunk at `c`. -/
def Hits (c z val : Nat) : Prop := val % GC_PTR_ALIGNMENT = 0 ∧ c + 16 ≤ val ∧ val < c + 16 + z

section Lookup

variable {s e n c : Nat} {l : List Nat}

/-- The chunks of `l`, each a header and its payload, fill the memory from `s` up to `e`. -/
def Tiles (m : Mem) (e : Nat) : Nat → List Nat → Prop
  | s, [] => s = e
  | s, c :: l => c = s ∧ Tiles m e (nextChunk m s) l

def Contains (m : Mem) (ptr c : Nat) : Prop :=
  isCurrInuse m c = true ∧ c + HEADER_SIZE ≤ ptr ∧ ptr < c + HEADER_SIZE + getSize m c

theorem Tiles.bounds (h : Tiles m e s l) : s ≤ e ∧ ∀ c ∈ l, s ≤ c ∧ nextChunk m c ≤ e := by
  induction l generalizing s with
  | nil => exact ⟨Nat.le_of_eq h, by simp⟩
  | cons a l ih =>
    obtain ⟨rfl, h⟩ := h
    obtain ⟨hle, hin⟩ := ih h
    have hnext : a ≤ nextChunk m a := by
      rw [nextChunk]
      omega
    refine ⟨by omega, forall_mem_cons.mpr ⟨⟨Nat.le_refl a, hle⟩, fun c hc => ?_⟩⟩
    exact ⟨Nat.le_trans hnext (hin c hc).1, (hin c hc).2⟩

theorem Tiles.of_follow (h : follow (nextChunk m) e n s = some l) : Tiles m e s l := by
  induction n generalizing s l with
  | zero => cases h
  | succ n ih =>
    rw [follow] at h
    split at h
    · next hse =>
      cases h
      exact hse
    · obtain ⟨l', hl, rfl⟩ := map_eq_some_iff.mp h
      exact ⟨rfl, ih hl⟩

theorem Tiles.unique {ptr d : Nat} (h : Tiles m e s l) (hc : c ∈ l) (hd : d ∈ l) (hcp : c ≤ ptr ∧ ptr < nextChunk m c)
    (hdp : d ≤ ptr ∧ ptr < nextChunk m d) : c = d := by
  induction l generalizing s with
  | nil => cases hc
  | cons a l ih =>
    obtain ⟨rfl, h⟩ := h
    have hb := h.bounds.2
    rcases mem_cons.mp hc with rfl | hcl <;> rcases mem_cons.mp hd with rfl | hdl
    · rfl
    · have := hb d hdl
      omega
    · have := hb c hcl
      omega
    · exact ih h hcl hdl

theorem Contains.within {ptr : Nat} (h : Contains m ptr c) : c ≤ ptr ∧ ptr < nextChunk m c := by
  obtain ⟨-, h1, h2⟩ := h
  exact ⟨by omega, h2⟩

theorem findChunkInHeap_tiles (h : Tiles m e s l) (ptr : Nat) (hn : e - s < n) :
    ∃ r, findChunkInHeap m e ptr n s = some r ∧ ∀ c, r = some c ↔ c ∈ l ∧ Contains m ptr c := by
  induction l generalizing s n with
  | nil =>
    obtain ⟨n, rfl⟩ : ∃ k, n = k + 1 := ⟨n - 1, by omega⟩
    rw [findChunkInHeap, if_neg (by rw [show s = e from h]; omega)]
    exact ⟨none, rfl, by simp⟩
  | cons a l ih =>
    have htiles := h
    obtain ⟨rfl, h⟩ := h
    have hle : a + 16 + getSize m a ≤ e := h.bounds.1
    obtain ⟨n, rfl⟩ : ∃ k, n = k + 1 := ⟨n - 1, by omega⟩
    rw [findChunkInHeap, if_pos (by omega)]
    by_cases hhit : isCurrInuse m a = true ∧ a + HEADER_SIZE ≤ ptr ∧ ptr < a + HEADER_SIZE + getSize m a
    · rw [if_pos hhit]
      refine ⟨some a, rfl, fun c => ⟨?_, ?_⟩⟩
      · intro hc
        cases hc
        exact ⟨mem_cons_self, hhit⟩
      · rintro ⟨hc, hcont⟩
        rw [htiles.unique mem_cons_self hc (Contains.within hhit) hcont.within]
    · obtain ⟨r, hr, hiff⟩ := ih h (n := n) (by rw [nextChunk, HEADER_SIZE]; omega)
      rw [if_neg hhit]
      refine ⟨r, hr, fun c => ?_⟩
      rw [hiff, mem_cons]
      constructor
      · rintro ⟨hc, hcont⟩
        exact ⟨.inr hc, hcont⟩
      · rintro ⟨rfl | hc, hcont⟩
        · exact absurd hcont hhit
        · exact ⟨hc, hcont⟩

/-- `find_chunk_in_heap` returns the chunk in use whose payload holds the
address. Outside the heap, in a header and in a free chunk it returns `NULL`. -/
theorem chunk_lookup (h : Tiles m e s l) (ptr : Nat) :
    ∃ r, (∀ n, e - s < n → findChunkInHeap m e ptr n s = some r) ∧ (∀ c, r = some c ↔ c ∈ l ∧ Contains m ptr c) ∧
      (ptr < s ∨ e ≤ ptr → r = none) ∧ ∀ c ∈ l, c ≤ ptr → ptr < nextChunk m c →
        isCurrInuse m c = false ∨ ptr < c + HEADER_SIZE → r = none := by
  obtain ⟨r, -, hiff⟩ := findChunkInHeap_tiles h ptr (Nat.lt_succ_self _)
  have hnone (hP : ∀ c ∈ l, ¬ Contains m ptr c) : r = none :=
    eq_none_iff_forall_ne_some.mpr fun c hc => hP c ((hiff c).mp hc).1 ((hiff c).mp hc).2
  refine ⟨r, fun n hn => ?_, hiff, fun hout => hnone fun c hc hcont => ?_,
    fun d hd hle hlt hno => hnone fun c hc hcont => ?_⟩
  · obtain ⟨r', hr', hiff'⟩ := findChunkInHeap_tiles h ptr hn
    rw [hr', Option.ext fun c => (hiff' c).trans (hiff c).symm]
  · have hb := h.bounds.2 c hc
    have hw := hcont.within
    omega
  · obtain rfl := h.unique hc hd hcont.within ⟨hle, hlt⟩
    rcases hno with hno | hno
    · exact absurd hcont.1 (by simp [hno])
    · exact absurd hcont.2.1 (by omega)

/-- A chunk in use in front of a free one. -/
theorem chunk_lookup_interior :
    let m : Mem := fun a => if a = 1008 then 20 else 32
    Tiles m 1080 1000 [1000, 1032] ∧ findChunkInHeap m 1080 1020 81 1000 = some (some 1000) := by
  intro m
  have ht : Tiles m 1080 1000 [1000, 1032] := by
    refine ⟨rfl, ?_, show _ = _ from ?_⟩ <;> decide
  obtain ⟨r, hr, hiff, -⟩ := chunk_lookup ht 1020
  rw [hr 81 (by decide), (hiff 1000).mpr ⟨by decide, by decide, by decide, by decide⟩]
  exact ⟨ht, rfl⟩

theorem findChunkInHeap_spec {E : Env} {g : Ghost} {ar : Arena} {v : Nat} (hI : Alloc.Invariant.Inv E g ar m)
    (hset : g.Settled) (hh : (s, e) ∈ ar.allocedHeaps) (hn : e - s < n) : ∃ r, findChunkInHeap m e v n s = some r ∧
      ∀ c, r = some c ↔ ∃ z, g.cell c = some (.chunk z) ∧ s ≤ c ∧ c < e ∧ isCurrInuse m c = true ∧ c + 16 ≤ v ∧
        v < c + 16 + z := by
  obtain ⟨l, hl, hcells⟩ := heapChunks_spec hI hset hh
  obtain ⟨r, hr, hiff⟩ := findChunkInHeap_tiles (Tiles.of_follow hl) v hn
  refine ⟨r, hr, fun c => ?_⟩
  rw [hiff, hcells]
  constructor
  · rintro ⟨⟨hs, he, z, hz⟩, hcurr, h1, h2⟩
    rw [hset.getSize hI hz] at h2
    exact ⟨z, hz, hs, he, hcurr, h1, h2⟩
  · rintro ⟨z, hz, hs, he, hcurr, h1, h2⟩
    refine ⟨⟨hs, he, z, hz⟩, hcurr, h1, ?_⟩
    rwa [hset.getSize hI hz]

end Lookup

structure MarkedBy (strict : Bool) (w : World) (G : Nat → Ghost) (vals : List Nat) (m : Mem) : Prop where
  upkeep : Upkeep strict { w with mem := m } G
  same : ∀ a, (∀ j z, j < w.arenas.length → (G j).cell a ≠ some (.chunk z)) → m a = w.mem a
  marks : ∀ i c z, i < w.arenas.length → (G i).kind c = .live → (G i).cell c = some (.chunk z) →
    (hasFlag (m c) GC_MARK = true ↔ hasFlag (w.mem c) GC_MARK = true ∨ ∃ v ∈ vals, Hits c z v)

variable {vals : List Nat}

theorem MarkedBy.mono {vals' : List Nat} (hm : MarkedBy strict w G vals m)
    (hv : ∀ i c z, i < w.arenas.length → (G i).kind c = .live → (G i).cell c = some (.chunk z) →
      ((∃ v ∈ vals', Hits c z v) ↔ ∃ v ∈ vals, Hits c z v)) : MarkedBy strict w G vals' m := by
  refine ⟨hm.upkeep, hm.same, fun i c z hi hk hc => ?_⟩
  rw [hm.marks i c z hi hk hc, hv i c z hi hk hc]

theorem MarkedBy.miss {val : Nat} (hm : MarkedBy strict w G vals m)
    (hv : ∀ i c z, i < w.arenas.length → (G i).kind c = .live → (G i).cell c = some (.chunk z) → ¬ Hits c z val) :
    MarkedBy strict w G (vals ++ [val]) m := by
  refine hm.mono fun i c z hi hk hc => ?_
  have := hv i c z hi hk hc
  simp only [mem_append, mem_singleton]
  constructor
  · rintro ⟨v, hv | rfl, hh⟩
    · exact ⟨v, hv, hh⟩
    · exact absurd hh this
  · rintro ⟨v, hv, hh⟩
    exact ⟨v, .inl hv, hh⟩

theorem MarkedBy.length (hm : MarkedBy strict w G vals m) (hi : w.arenas[i]? = some h) :
    Kempt strict { w with mem := m } (G i) h := hm.upkeep.kempt i h hi

theorem heap_same (hw : Upkeep strict w G) {j : Nat} {h' : Holding} (hi : w.arenas[i]? = some h)
    (hj : w.arenas[j]? = some h') {r r' : Nat × Nat} (hr : r ∈ h.ar.allocedHeaps) (hr' : r' ∈ h'.ar.allocedHeaps) {a : Nat}
    (ha : r.1 ≤ a ∧ a < r.2) (ha' : r'.1 ≤ a ∧ a < r'.2) : i = j ∧ r = r' := by
  have hk := hw.kempt i h hi
  have hk' := hw.kempt j h' hj
  have heq := region_unique hw.regions (hk.heap r hr) (hk'.heap r' hr') (a := a)
    ⟨ha.1, by dsimp only; omega⟩ ⟨ha'.1, by dsimp only; omega⟩
  simp only [Prod.mk.injEq] at heq
  have hrr : r = r' := Prod.ext heq.1 (by omega)
  refine ⟨?_, hrr⟩
  subst hrr
  by_contra hne
  obtain ⟨-, -, z, hz⟩ := hk.inv.tiled.heap r.1 r.2 hr
  obtain ⟨-, -, z', hz'⟩ := hk'.inv.tiled.heap r.1 r.2 hr'
  exact hw.apart i j hne (lt_of_arena hi) (lt_of_arena hj) r.1 (owned_chunk hz (by omega)) (owned_chunk hz' (by omega))

theorem mem_heapsOf {r : Nat × Nat} :
    r ∈ heapsOf w ↔ ∃ (i : Nat) (h : Holding), w.arenas[i]? = some h ∧ r ∈ h.ar.allocedHeaps := by
  rw [heapsOf, mem_flatMap]
  constructor
  · rintro ⟨h, hh, hr⟩
    obtain ⟨i, hi⟩ := mem_iff_getElem?.mp hh
    exact ⟨i, h, hi, hr⟩
  · rintro ⟨i, h, hi, hr⟩
    exact ⟨h, mem_of_getElem? hi, hr⟩

section Marking

variable (hm : MarkedBy strict w G vals m)

include hm

theorem MarkedBy.mark {val : Nat} (hi : w.arenas[i]? = some h) {c z : Nat}
    (hc : (G i).cell c = some (.chunk z)) (hal : val % GC_PTR_ALIGNMENT = 0) (h1 : c + 16 ≤ val) (h2 : val < c + 16 + z) :
    MarkedBy strict w G (vals ++ [val]) (m.set c (withFlag (m c) GC_MARK)) := by
  have hk := hm.length hi
  have hI := hk.inv
  refine ⟨?_, ?_, ?_⟩
  · refine hm.upkeep.rewrite hi (owned_chunk hc (by omega)) ?_
    exact set_mark_inv hI hc (sizeBits_withFlag_mark _) rfl
  · intro a ha
    rw [set_of_ne (by rintro rfl; exact ha i z (lt_of_arena hi) hc)]
    exact hm.same a ha
  · intro j d y hj hkd hd
    have hjh := getElem?_eq_getElem hj
    have hold := hm.marks j d y hj hkd hd
    by_cases hdc : d = c
    · subst hdc
      have hij : i = j := by
        by_contra hne
        exact hm.upkeep.apart i j hne (lt_of_arena hi) hj d (owned_chunk hc (by omega)) (owned_chunk hd (by omega))
      subst hij
      cases hc.symm.trans hd
      rw [set_self, mark_withFlag_mark]
      simp only [true_iff]
      exact .inr ⟨val, by simp, hal, h1, h2⟩
    · rw [set_of_ne hdc, hold]
      have hmiss : ¬ Hits d y val := by
        rintro ⟨-, h3, h4⟩
        by_cases hij : i = j
        · subst hij
          have := hI.tiled.apart_of_ne hc hd (Ne.symm hdc)
          simp only [Cell.extent_chunk] at this
          omega
        · exact hm.upkeep.apart i j hij (lt_of_arena hi) hj val (owned_chunk hc (by omega)) (owned_chunk hd (by omega))
      simp only [mem_append, mem_singleton, or_and_right, exists_or, exists_eq_left, hmiss, or_false]

theorem MarkedBy.tryMarkPointer (n val : Nat) :
    ∃ m', tryMarkPointer (heapsOf w) (n + 1) m val = some m' ∧ MarkedBy strict w G (vals ++ [val]) m' := by
  rw [Collector.tryMarkPointer]
  by_cases hal : val % GC_PTR_ALIGNMENT ≠ 0
  · rw [if_pos hal]
    exact ⟨m, rfl, hm.miss fun _ _ _ _ _ _ hh => hal hh.1⟩
  rw [if_neg hal]
  simp only [ne_eq, Decidable.not_not] at hal
  have hinside : ∀ j d y, j < w.arenas.length → (G j).kind d = .live → (G j).cell d = some (.chunk y) → Hits d y val →
      ∃ h' r, w.arenas[j]? = some h' ∧ r ∈ h'.ar.allocedHeaps ∧ r.1 ≤ d ∧ d < r.2 ∧ r.1 ≤ val ∧ val < r.2 := by
    intro j d y hj _ hd hh
    have hjh := getElem?_eq_getElem hj
    obtain ⟨s, e, hse, hs, he⟩ := (hm.length hjh).inv.tiled.inside d y hd
    exact ⟨_, (s, e), hjh, hse, hs, by dsimp only; omega, by have := hh.2.1; dsimp only; omega,
      by have := hh.2.2; dsimp only; omega⟩
  cases hfind : (heapsOf w).find? fun heap => heap.1 ≤ val ∧ val < heap.2 with
  | none =>
    refine ⟨m, rfl, hm.miss fun j d y hj hkd hd hh => ?_⟩
    obtain ⟨h', r, hjh, hr, -, -, hv⟩ := hinside j d y hj hkd hd hh
    have := find?_eq_none.mp hfind r (mem_heapsOf.mpr ⟨j, h', hjh, hr⟩)
    simp only [decide_eq_true_eq] at this
    exact this hv
  | some heap =>
    have hheap := mem_of_find?_eq_some hfind
    have hv := find?_some hfind
    simp only [decide_eq_true_eq] at hv
    obtain ⟨k, hk, hkh, hr⟩ := mem_heapsOf.mp hheap
    have hK := hm.length hkh
    obtain ⟨r, hres, hiff⟩ := findChunkInHeap_spec (v := val) hK.inv hK.settled hr (Nat.lt_succ_self _)
    simp only [hres, bind_eq_bind, bind_some]
    cases r with
    | none =>
      refine ⟨m, rfl, hm.miss fun j d y hj hkd hd hh => ?_⟩
      obtain ⟨h', r', hjh, hr', hd1, hd2, hv'⟩ := hinside j d y hj hkd hd hh
      obtain ⟨rfl, rfl⟩ := heap_same hm.upkeep hkh hjh hr hr' hv hv'
      cases hkh.symm.trans hjh
      have hcurr := ((hm.length hkh).inv.words.own d y hd).curr true (by simp [hkd, Kind.curr])
      cases (hiff d).mpr ⟨y, hd, hd1, hd2, hcurr, hh.2.1, hh.2.2⟩
    | some c =>
      obtain ⟨y, hy, -, -, -, h1, h2⟩ := (hiff c).mp rfl
      refine ⟨_, ?_, hm.mark hkh hy hal h1 h2⟩
      simp only [markChunkRecursive, prevSize, set_self, mark_withFlag_mark, if_true]

theorem MarkedBy.gcMarkMemRegion (n : Nat) (ws : List Nat) :
    ∃ m', gcMarkMemRegion (Collector.tryMarkPointer (heapsOf w) (n + 1)) ws m = some m' ∧
      MarkedBy strict w G (vals ++ ws) m' := by
  induction ws generalizing vals m with
  | nil => exact ⟨m, rfl, by rwa [append_nil]⟩
  | cons val ws ih =>
    rw [Collector.gcMarkMemRegion]
    by_cases h0 : val = 0
    · have hskip : MarkedBy strict w G (vals ++ [val]) m := by
        refine hm.miss fun _ _ _ _ _ _ hh => ?_
        have := hh.2.1
        omega
      obtain ⟨m2, hm2, h2⟩ := ih hskip
      rw [append_assoc] at h2
      exact ⟨m2, by rw [if_pos h0]; exact hm2, h2⟩
    · obtain ⟨m1, hm1, h1⟩ := hm.tryMarkPointer n val
      obtain ⟨m2, hm2, h2⟩ := ih h1
      rw [append_assoc] at h2
      exact ⟨m2, by rw [if_neg h0, hm1]; exact hm2, h2⟩

def words (t : Task) : List Nat := t.stack ++ t.regs ++ [t.sp] ++ [t.pc]

def scanned (t : Task) : Bool := !t.finished ∧ ¬ (t.sp < t.stackBase ∨ t.stackBase + 8 * t.stack.length < t.sp)

def scannedWords (tasks : List Task) : List Nat := (tasks.filter fun t => scanned t).flatMap words

theorem MarkedBy.gcMarkTasks (n : Nat) (tasks : List Task) :
    ∃ m', gcMarkTasks (Collector.tryMarkPointer (heapsOf w) (n + 1)) tasks m = some m' ∧
      MarkedBy strict w G (vals ++ scannedWords tasks) m' := by
  induction tasks generalizing vals m with
  | nil => exact ⟨m, rfl, by simpa [scannedWords] using hm⟩
  | cons t ts ih =>
    rw [Collector.gcMarkTasks]
    by_cases hf : t.finished = true
    · rw [if_pos hf]
      have hs : scannedWords (t :: ts) = scannedWords ts := by simp [scannedWords, scanned, hf]
      rw [hs]
      exact ih hm
    · rw [if_neg hf]
      by_cases hsp : t.sp < t.stackBase ∨ t.stackBase + 8 * t.stack.length < t.sp
      · have hs : scannedWords (t :: ts) = scannedWords ts := by
          have hsc : scanned t = false := by simp only [scanned, hsp, not_true, and_false, decide_false]
          simp [scannedWords, hsc]
        rw [gcMarkTask, if_pos hsp, hs]
        exact ih hm
      · have hs : scannedWords (t :: ts) = words t ++ scannedWords ts := by
          have hsc : scanned t = true := by simp only [scanned, hf, hsp]; rfl
          simp [scannedWords, hsc]
        obtain ⟨m1, e1, h1⟩ := hm.gcMarkMemRegion n t.stack
        obtain ⟨m2, e2, h2⟩ := h1.gcMarkMemRegion n t.regs
        obtain ⟨m3, e3, h3⟩ := h2.tryMarkPointer n t.sp
        obtain ⟨m4, e4, h4⟩ := h3.tryMarkPointer n t.pc
        obtain ⟨m5, e5, h5⟩ := ih h4
        refine ⟨m5, ?_, ?_⟩
        · simp only [gcMarkTask, if_neg hsp, gcMarkRegisters, e1, e2, e3, e4, e5, bind_eq_bind, bind_some]
        · rw [hs, words]
          simpa only [append_assoc] using h5

end Marking

theorem gcMark_spec (hw : Upkeep strict w G) (tasks : List Task) :
    ∃ m, gcMark w tasks = some { w with mem := m } ∧ MarkedBy strict w G (scannedWords tasks) m := by
  have h0 : MarkedBy strict w G [] w.mem := ⟨hw, fun _ _ => rfl, by simp⟩
  obtain ⟨m, he, hm⟩ := h0.gcMarkTasks ((heapsOf w).map fun heap => heap.2 - heap.1).sum tasks
  refine ⟨m, ?_, hm⟩
  simp only [gcMark, depth, he, bind_eq_bind, bind_some, Option.pure_def]

end Picasso.Gc.Marks
