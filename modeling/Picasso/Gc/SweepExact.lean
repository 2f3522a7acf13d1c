import Picasso.Gc.Flags
import Picasso.Gc.Survive

namespace Picasso.Gc.SweepExact

open Alloc.Chunk Alloc.Allocator Alloc.Layout Alloc.Arenas Alloc.Custody Alloc.Tiling Collector Sweep Survive Lib.Transition
open List Function Option
open Flags (Doomed Exact)
open Alloc.Invariant hiding Inv

variable {strict : Bool} {w w' w₁ : World} {G G₁ : Nat → Ghost} {g' : Ghost} {h : Holding} {i j c : Nat} {m : Mem}
  {k : Cursor} {cs : List Cursor} {done : List (Nat × Nat)}

/-- `gc_sweep` with the arenas and the pointers that it passes to `_release`, in their order. -/
def sweepLog : Nat → World → List Cursor → Option (World × List (Nat × Nat))
  | 0, _, _ => none
  | _ + 1, w, [] => some (w, [])
  | n + 1, w, c :: cs => do
      let (w', cs') ← sweepStep w (c :: cs)
      let (w'', log) ← sweepLog n w' cs'
      return (w'', if Doomed w c then (c.arena, c.scan + HEADER_SIZE) :: log else log)

theorem sweepLog_fst (n : Nat) (w : World) (cs : List Cursor) : (sweepLog n w cs).map Prod.fst = sweepFrom n w cs := by
  induction n generalizing w cs with
  | zero => rfl
  | succ n ih =>
    cases cs with
    | nil => rfl
    | cons c cs =>
      simp only [sweepLog, sweepFrom, bind_eq_bind, Option.map_bind, Option.pure_def]
      refine bind_congr fun r _ => ?_
      rw [← ih, comp_apply]
      cases sweepLog n r.1 r.2 <;> rfl

def ChunkOf (w : World) (i c : Nat) : Prop :=
  ∃ h heap l, w.arenas[i]? = some h ∧ heap ∈ h.ar.allocedHeaps ∧ heapChunks w.mem h.ar heap = some l ∧ c ∈ l

def InUse (w : World) (i c : Nat) : Prop := ChunkOf w i c ∧ isCurrInuse w.mem c = true

/-- The memory of `w` with other marks, none of them on a chunk that is not in use. -/
structure Marking (w : World) (m : Mem) : Prop where
  rest : ∀ a, (∀ i, ¬ ChunkOf w i a) → m a = w.mem a
  bit : ∀ a, withoutFlag (m a) GC_MARK = withoutFlag (w.mem a) GC_MARK
  sub : ∀ i c, ChunkOf w i c → hasFlag (m c) GC_MARK = true → InUse w i c

theorem chunkOf_iff (hw : Upkeep strict w G) :
    ChunkOf w i c ↔ i < w.arenas.length ∧ ∃ z, (G i).cell c = some (.chunk z) := by
  constructor
  · rintro ⟨h, ⟨s, e⟩, l, hi, hh, hl, hc⟩
    have hk := hw.kempt i h hi
    obtain ⟨l', hl', hcells⟩ := heapChunks_spec hk.inv hk.settled hh
    cases hl.symm.trans hl'
    exact ⟨lt_of_arena hi, ((hcells c).mp hc).2.2⟩
  · rintro ⟨hi, z, hz⟩
    have hk := hw.kempt i _ (getElem?_eq_getElem hi)
    obtain ⟨s, e, hh, hs, he⟩ := hk.inv.tiled.inside c z hz
    obtain ⟨l, hl, hcells⟩ := heapChunks_spec hk.inv hk.settled hh
    exact ⟨_, (s, e), l, getElem?_eq_getElem hi, hh, hl, (hcells c).mpr ⟨hs, by omega, z, hz⟩⟩

theorem live_iff (hw : Upkeep strict w G) (hi : w.arenas[i]? = some h) :
    (⟨c + HEADER_SIZE, false⟩ : Block) ∈ h.live ↔ (G i).kind c = .live := by
  rw [(hw.kempt i h hi).live]
  constructor
  · rintro ⟨d, hd, hl⟩
    obtain rfl : c = d := Nat.add_right_cancel hd
    exact hl
  · intro hl
    exact ⟨c, rfl, hl⟩

theorem Inv.remark {E : Env} {g : Ghost} {ar : Arena} {m m' : Mem} (h : Alloc.Invariant.Inv E g ar m)
    (hm : E.marked = false) (hkeep : ∀ a, ¬ E.keep a) (hbits : ∀ a, sizeBits (m' a) = sizeBits (m a))
    (hsame : ∀ a, g.Owned a → (∀ z, g.cell a ≠ some (.chunk z)) → m' a = m a) : Alloc.Invariant.Inv E g ar m' := by
  have hint : ∀ a x o, g.cell a = some x → 0 < o → o < x.extent → m' (a + o) = m (a + o) := by
    intro a x o ha ho ho'
    refine hsame _ ⟨a, x, ha, by omega, by omega⟩ fun z hz => ?_
    simp [h.tiled.interior ha (a := a + o) (by omega) (by omega)] at hz
  have hhead : ∀ a x, g.cell a = some x → m' (a + 8) = m (a + 8) := by
    intro a x ha
    have := h.tiled.extent_ge ha
    exact hint a x 8 ha (by omega) (by omega)
  refine ⟨h.tiled, h.bins, ⟨?_, ?_, ?_, ?_, ?_, ?_⟩, ?_, ?_⟩
  · intro c z hz
    rw [hhead c _ hz]
    exact h.words.own c z hz
  · intro c z hz
    obtain ⟨y, hy, -⟩ := h.tiled.next c z hz
    have hf := h.words.foot c z hz
    rw [← hhead _ _ hy] at hf
    exact ⟨hf.used, fun hu => (hbits _).trans (hf.prev hu)⟩
  · intro s e hh
    obtain ⟨-, -, z, hz⟩ := h.tiled.heap s e hh
    rw [hhead _ _ hz]
    exact h.words.start s e hh
  · intro c hc
    rw [hhead _ _ hc]
    exact h.words.bound c hc
  · intro c z hc
    rw [hhead _ _ hc]
    exact h.words.block c z hc
  · intro c hf
    obtain ⟨z, hz, hz32⟩ := h.live_chunk (c := c) (by rintro he; simp [he, Kind.flat] at hf)
    rw [hint c _ 32 hz (by omega) (Cell.lt_chunk (by omega))]
    exact h.words.flat c hf
  · exact h.links.congr h.bins h.tiled fun a y o ha _ ho _ ho' => hint a y o ha (by omega) ho'
  · exact ⟨fun a ha => absurd ha (hkeep a), h.guard.spare, by simp [hm], h.guard.strict⟩

theorem sizeBits_of_withoutFlag_mark {a b : Nat} (hab : withoutFlag a GC_MARK = withoutFlag b GC_MARK) :
    sizeBits a = sizeBits b := by
  rw [← sizeBits_withoutFlag_mark a, hab, sizeBits_withoutFlag_mark]

theorem Marking.sound (hm : Marking w m) (hw : Sound strict w G) : Sound strict { w with mem := m } G := by
  refine ⟨⟨?_, hw.apart, hw.regions⟩, hw.top⟩
  intro i h hi
  obtain ⟨inv, settled, growth, owned, heap, block, live, nodup⟩ := hw.kempt i h hi
  refine ⟨?_, settled, growth, owned, heap, block, live, nodup⟩
  have hinv : Alloc.Invariant.Inv ⟨fun _ => False, w.mem, strict, false⟩ (G i) h.ar m := by
    refine Inv.remark inv rfl (by simp) (fun a => sizeBits_of_withoutFlag_mark (hm.bit a)) fun a ha hno => hm.rest a ?_
    intro j hj
    obtain ⟨hj, z, hz⟩ := (chunkOf_iff hw.toUpkeep).mp hj
    by_cases hji : j = i
    · exact hno z (hji ▸ hz)
    · exact hw.apart j i hji hj (lt_of_arena hi) a
        (owned_chunk hz (by omega)) ha
  exact hinv.rebase _ false (by simp)

theorem Marking.head (hm : Marking w m) (hw : Upkeep strict w G) {z : Nat} (hi : w.arenas[i]? = some h)
    (hc : (G i).cell c = some (.chunk z)) : m (c + 8) = w.mem (c + 8) := by
  refine hm.rest _ fun j hj => ?_
  obtain ⟨hj, y, hy⟩ := (chunkOf_iff hw).mp hj
  by_cases hji : j = i
  · subst hji
    have := (hw.kempt j h hi).inv.tiled.interior hc (a := c + 8) (by omega) (by simp only [Cell.extent_chunk]; omega)
    simp [this] at hy
  · exact hw.apart j i hji hj (lt_of_arena hi) (c + 8) (owned_chunk hy (by omega)) (owned_chunk hc (by omega))

theorem live_of_exact (hw : Upkeep strict w G) (hx : Exact ⟨w, []⟩) (hu : InUse w i c) : (G i).kind c = .live := by
  obtain ⟨⟨h, heap, l, hi, hh, hl, hc⟩, hcurr⟩ := hu
  obtain ⟨l', hl', hflag⟩ := hx.flag i h hi heap hh
  cases hl.symm.trans hl'
  obtain ⟨-, z, hz⟩ := (chunkOf_iff hw).mp ⟨h, heap, l, hi, hh, hl, hc⟩
  exact (mem_ptr (hw.kempt i h hi) hz).mp ((hflag c hc).mp hcurr)

theorem inUse_of_live (hw : Upkeep strict w G) (hi : w.arenas[i]? = some h) (hl : (G i).kind c = .live) :
    InUse w i c := by
  obtain ⟨z, hz⟩ := live_cell hw hi hl
  exact ⟨(chunkOf_iff hw).mpr ⟨lt_of_arena hi, z, hz⟩,
    ((hw.kempt i h hi).inv.words.own c z hz).curr true (by simp [hl, Kind.curr])⟩

/-- The sweep of `w₁` with the releases `done` behind it: what looks in use in
front of it is live, and what is marked anywhere is live and in front of it. -/
structure Tidy (w₁ : World) (G₁ : Nat → Ghost) (w : World) (G : Nat → Ghost) (cs : List Cursor)
    (done : List (Nat × Nat)) : Prop extends Sweeping w₁ G₁ w G cs where
  origin : ∀ j c, j < w₁.arenas.length → (G j).kind c = .live → (G₁ j).kind c = .live
  flagged : ∀ j c z, j < w₁.arenas.length → (G j).cell c = some (.chunk z) → Ahead cs j c →
    isCurrInuse w.mem c = true → (G j).kind c = .live
  marked : ∀ j c z, j < w₁.arenas.length → (G j).cell c = some (.chunk z) → hasFlag (w.mem c) GC_MARK = true →
    (G j).kind c = .live ∧ Ahead cs j c
  log : ∀ j p, (j, p) ∈ done ↔
    ∃ c, p = c + HEADER_SIZE ∧ j < w₁.arenas.length ∧ (G₁ j).kind c = .live ∧ (G j).kind c ≠ .live
  nodup : done.Nodup

theorem tidy_init (hw : Sound false w G) (hx : Exact ⟨w, []⟩) (hm : Marking w m) :
    Tidy { w with mem := m } G { w with mem := m } G (cursors w) [] := by
  have hs := hm.sound hw
  refine ⟨sweeping_init hs, fun _ _ _ hl => hl, ?_, ?_, ?_, nodup_nil⟩
  · intro j c z hj hc _ hcurr
    refine live_of_exact hw.toUpkeep hx ⟨(chunkOf_iff hw.toUpkeep).mpr ⟨hj, z, hc⟩, ?_⟩
    have := hm.head hw.toUpkeep (getElem?_eq_getElem hj) hc
    rwa [isCurrInuse, size, ← this]
  · intro j c z hj hc hmark
    refine ⟨live_of_exact hw.toUpkeep hx (hm.sub j c ((chunkOf_iff hw.toUpkeep).mpr ⟨hj, z, hc⟩) hmark), ?_⟩
    exact ahead_cursors hs.toUpkeep (getElem?_eq_getElem hj) hc
  · intro j p
    simp only [not_mem_nil, false_iff]
    rintro ⟨c, -, -, hl, hl'⟩
    exact hl' hl

section Visit

variable {d x : Nat} (hT : Tidy w₁ G₁ w G (k :: cs) done) (hlt : k.scan < k.stop) (hi : w.arenas[k.arena]? = some h)
  (hd : (G k.arena).cell d = some (.chunk x)) (hn : k.scan + 16 + getSize w.mem k.scan = d + 16 + x)
  (hor : k.scan = d ∨ d + 48 ≤ k.scan ∧ ((G k.arena).kind d).busy = false)
  (hv : Visit false w G k.arena h k.scan w' g')

include hT hi hd hn hor

theorem head_ne_scan {z : Nat} (hj : j < w₁.arenas.length) (hc : (G j).cell c = some (.chunk z)) : c + 8 ≠ k.scan := by
  intro he
  by_cases hji : j = k.arena
  · subst hji
    obtain ⟨rfl, hu⟩ := (hT.upkeep.kempt _ h hi).inv.tiled.sep hc hd (o := 8) (u := k.scan - d)
      (Cell.lt_chunk (by omega)) (Cell.lt_chunk (by omega)) (by omega)
    omega
  · exact hT.upkeep.apart j k.arena hji (hT.length ▸ hj) (lt_of_arena hi) k.scan
      (owned_chunk hc (by omega)) (spot_owned hd hn hor)

omit hn hor hd in
include hv in
theorem visit_apart (hj : j < w₁.arenas.length) (hji : j ≠ k.arena) {a : Nat} (ha : (G j).Owned a)
    (hown : (G k.arena).Owned k.scan) : w'.mem a = w.mem a := by
  cases hv with
  | clear =>
    refine if_neg ?_
    rintro rfl
    exact hT.upkeep.apart j k.arena hji (hT.length ▸ hj) (lt_of_arena hi) _ ha hown
  | pass => rfl
  | drop gone unmarked curr cell dropped => exact dropped.inv.guard.frame a (.inl ⟨j, hji, hT.length ▸ hj, ha⟩)

include hlt hv

theorem flagged_visit {z : Nat} (hj : j < w₁.arenas.length)
    (hc : (update G k.arena g' j).cell c = some (.chunk z))
    (ha : Ahead ({ k with scan := k.scan + 16 + getSize w.mem k.scan } :: cs) j c)
    (hcurr : isCurrInuse w'.mem c = true) : (update G k.arena g' j).kind c = .live := by
  have hw := hT.upkeep
  have hold : Ahead (k :: cs) j c := ha.advance (by omega)
  by_cases hji : j = k.arena
  · cases hv with
    | clear marked =>
      rw [update_eq_self] at hc ⊢
      refine hT.flagged j c z hj hc hold ?_
      dsimp only [isCurrInuse, size] at hcurr
      rwa [set_of_ne (head_ne_scan hT hi hd hn hor hj hc)] at hcurr
    | pass =>
      rw [update_eq_self] at hc ⊢
      exact hT.flagged j c z hj hc hold hcurr
    | drop gone unmarked curr cell dropped =>
      subst hji
      rw [update_self] at hc ⊢
      obtain ⟨h', s, hi', hh, hs, -, -⟩ := hT.head k (by simp)
      cases hi.symm.trans hi'
      have hnot := not_ahead_scan hw hi hh hs hlt hT.tail hT.distinct (n := k.scan + 16 + getSize w.mem k.scan) (by omega)
      have hne : c ≠ k.scan := by
        rintro rfl
        exact hnot ha
      rcases curr_kind dropped.inv dropped.lost.settled hc hcurr with hl | hu | ht
      · exact hl
      · -- lost before this visit, and in use by its header already then
        obtain ⟨hk, hcell⟩ := dropped.lost.toAside.busy c hne (.inr (by simp [hu, Kind.busy]))
        rw [hcell] at hc
        have hcu : isCurrInuse w.mem c = true :=
          ((hw.kempt _ h hi).inv.words.own c z hc).curr true (by rw [← hk, hu]; rfl)
        rw [hk]
        exact hT.flagged _ c z hj hc hold hcu
      · rcases dropped.crown c z ht hc with ⟨hle, hsp⟩ | ⟨ht', hcu⟩
        · -- the sweep has passed the heap that the released chunk is in
          exfalso
          obtain ⟨k', hk', hka, hle', hlt'⟩ := ha
          rcases mem_cons.mp hk' with rfl | hk'
          · dsimp only at hle'
            omega
          · obtain ⟨h'', hi'', hh''⟩ := hT.tail k' hk'
            rw [hka] at hi''
            cases hi.symm.trans hi''
            obtain ⟨s', e', hse, hs', he'⟩ := dropped.inv.tiled.inside c z hc
            rw [dropped.heaps] at hse
            have hTi := (hw.kempt _ h hi).inv.tiled
            have h1 := hTi.heap_unique hh'' hse (a := c) ⟨hle', by omega⟩ ⟨hs', by omega⟩
            have h2 := hTi.heap_unique hh hse (a := k.scan) ⟨hs, by omega⟩ ⟨by omega, by omega⟩
            exact (pairwise_cons.mp hT.distinct).1 k' hk' hka.symm
              ((Prod.mk.inj h2).2.trans (Prod.mk.inj h1).2.symm)
        · obtain ⟨y, hy⟩ := (hw.kempt _ h hi).inv.bins.home c (by simp [ht'])
          have := hT.flagged _ c y hj hy hold (hcu.symm.trans hcurr)
          rw [ht'] at this
          cases this
  · rw [update_of_ne hji] at hc ⊢
    refine hT.flagged j c z hj hc hold ?_
    rwa [isCurrInuse, size, visit_apart hT hi hv hj hji (owned_chunk hc (by omega))
      (spot_owned hd hn hor)] at hcurr

omit hlt in
theorem marked_visit {z : Nat} (hj : j < w₁.arenas.length)
    (hc : (update G k.arena g' j).cell c = some (.chunk z)) (hmark : hasFlag (w'.mem c) GC_MARK = true) :
    (update G k.arena g' j).kind c = .live ∧
      Ahead ({ k with scan := k.scan + 16 + getSize w.mem k.scan } :: cs) j c := by
  have hw := hT.upkeep
  by_cases hji : j = k.arena
  · -- the word has not been marked by the visit, so the chunk was marked before
    obtain ⟨y, hy, hmark', hne, hlive⟩ : ∃ y, (G j).cell c = some (.chunk y) ∧ hasFlag (w.mem c) GC_MARK = true ∧
        c ≠ k.scan ∧ ((G j).kind c = .live → (update G k.arena g' j).kind c = .live) := by
      cases hv with
      | clear marked =>
        rw [update_eq_self] at hc ⊢
        have hne : c ≠ k.scan := by
          rintro rfl
          simp at hmark
        dsimp only at hmark
        rw [set_of_ne hne] at hmark
        exact ⟨z, hc, hmark, hne, id⟩
      | pass unmarked =>
        rw [update_eq_self] at hc ⊢
        refine ⟨z, hc, hmark, ?_, id⟩
        rintro rfl
        simp [hmark] at unmarked
      | drop gone unmarked curr cell dropped =>
        subst hji
        rw [update_self] at hc ⊢
        obtain ⟨y, hy⟩ := dropped.chunk c z hc
        have hm : hasFlag (w.mem c) GC_MARK = true := (dropped.inv.guard.marks rfl c z hc).symm.trans hmark
        have hne : c ≠ k.scan := by
          rintro rfl
          simp [hm] at unmarked
        exact ⟨y, hy, hm, hne, (dropped.lost.toAside.handed hne false).mpr⟩
    obtain ⟨hl, ha⟩ := hT.marked j c y hj hy hmark'
    exact ⟨hlive hl, ahead_next hw hi hd hn hor hy (fun _ => hne) ha⟩
  · rw [update_of_ne hji] at hc ⊢
    rw [visit_apart hT hi hv hj hji (owned_chunk hc (by omega))
      (spot_owned hd hn hor)] at hmark
    obtain ⟨hl, ha⟩ := hT.marked j c z hj hc hmark
    exact ⟨hl, ahead_next hw hi hd hn hor hc (fun h => absurd h hji) ha⟩

omit hd hn hor in
theorem released_visit : (if Doomed w k then
      (G k.arena).kind k.scan = .live ∧ (update G k.arena g' k.arena).kind k.scan ≠ .live ∧
        ∀ j c, j < w₁.arenas.length → (j = k.arena → c ≠ k.scan) →
          ((update G k.arena g' j).kind c = .live ↔ (G j).kind c = .live)
    else update G k.arena g' = G) := by
  cases hv with
  | clear marked => rw [if_neg (by simp [Doomed, prevSize, marked]), update_eq_self]
  | pass unmarked curr => rw [if_neg (by simp [Doomed, curr]), update_eq_self]
  | drop gone unmarked curr cell dropped =>
    rw [if_pos ⟨hlt, unmarked, curr⟩, update_self]
    have hk : k.arena < w₁.arenas.length := hT.length ▸ lt_of_arena hi
    refine ⟨hT.flagged _ _ _ hk cell ⟨k, mem_cons_self, rfl, Nat.le_refl _, hlt⟩ curr,
      dropped.lost.idle false, ?_⟩
    intro j c _ hne
    by_cases hji : j = k.arena
    · subst hji
      rw [update_self]
      exact dropped.lost.toAside.handed (hne rfl) false
    · rw [update_of_ne hji]

end Visit

def releaseOf (w : World) (k : Cursor) : List (Nat × Nat) :=
  if Doomed w k then [(k.arena, k.scan + HEADER_SIZE)] else []

theorem Tidy.visit (hT : Tidy w₁ G₁ w G (k :: cs) done) (hlt : k.scan < k.stop) :
    ∃ w' G', sweepStep w (k :: cs) = some (w', { k with scan := k.scan + 16 + getSize w.mem k.scan } :: cs) ∧
      Tidy w₁ G₁ w' G' ({ k with scan := k.scan + 16 + getSize w.mem k.scan } :: cs) (done ++ releaseOf w k) := by
  have hw := hT.upkeep
  obtain ⟨h, w', g', hi, hv, hstep, hS⟩ := hT.toSweeping.visit hlt
  obtain ⟨h', s, hi', hh, hs, -, hp⟩ := hT.head k (by simp)
  cases hi.symm.trans hi'
  obtain ⟨d, x, hd, hn, hor⟩ := spot hw hi hh hs hlt hp
  have hlive : ∀ j c, j < w₁.arenas.length → (update G k.arena g' j).kind c = .live → (G j).kind c = .live :=
    fun j c hj hl => (visit_live hw hi (spot_owned hd hn hor) hv (getElem?_eq_getElem (hT.length ▸ hj)) hl).1
  have hrel := released_visit hT hlt hi hv
  have hk : k.arena < w₁.arenas.length := hT.length ▸ lt_of_arena hi
  refine ⟨w', _, hstep, hS, fun j c hj hl => hT.origin j c hj (hlive j c hj hl),
    fun j c z hj hc ha hcurr => flagged_visit hT hlt hi hd hn hor hv hj hc ha hcurr,
    fun j c z hj hc hm => marked_visit hT hi hd hn hor hv hj hc hm, ?_, ?_⟩
  · intro j p
    unfold releaseOf
    split_ifs at hrel ⊢ with hdoom
    · obtain ⟨hbefore, hafter, hrest⟩ := hrel
      simp only [mem_append, hT.log, mem_singleton, Prod.mk.injEq]
      constructor
      · rintro (⟨c, rfl, hj, hl1, hl⟩ | ⟨rfl, rfl⟩)
        · exact ⟨c, rfl, hj, hl1, fun hl' => hl (hlive j c hj hl')⟩
        · exact ⟨k.scan, rfl, hk, hT.origin _ _ hk hbefore, hafter⟩
      · rintro ⟨c, rfl, hj, hl1, hl'⟩
        by_cases hjc : j = k.arena ∧ c = k.scan
        · exact .inr ⟨hjc.1, by rw [hjc.2]⟩
        · refine .inl ⟨c, rfl, hj, hl1, fun hl => hl' ((hrest j c hj ?_).mpr hl)⟩
          exact fun hja hcs => hjc ⟨hja, hcs⟩
    · rw [hrel, append_nil]
      exact hT.log j p
  · unfold releaseOf
    split_ifs at hrel ⊢ with hdoom
    · refine hT.nodup.append (nodup_singleton _) ?_
      rintro ⟨j, p⟩ hdone hnew
      obtain ⟨c, hc, -, -, hl⟩ := (hT.log j p).mp hdone
      obtain ⟨rfl, rfl⟩ := Prod.mk.inj (mem_singleton.mp hnew)
      obtain rfl : k.scan = c := Nat.add_right_cancel hc
      exact hl hrel.1
    · simpa using hT.nodup

theorem Tidy.pop (hT : Tidy w₁ G₁ w G (k :: cs) done) (hlt : ¬ k.scan < k.stop) : Tidy w₁ G₁ w G cs done := by
  refine ⟨hT.toSweeping.pop hlt, hT.origin, ?_, ?_, hT.log, hT.nodup⟩
  · rintro j c z hj hc ⟨k', hk', hr⟩ hcurr
    exact hT.flagged j c z hj hc ⟨k', mem_cons_of_mem _ hk', hr⟩ hcurr
  · intro j c z hj hc hm
    obtain ⟨hl, k', hk', hka, hle, hlt'⟩ := hT.marked j c z hj hc hm
    refine ⟨hl, k', ?_, hka, hle, hlt'⟩
    rcases mem_cons.mp hk' with rfl | hk'
    · omega
    · exact hk'

theorem Tidy.run (n : Nat) (hT : Tidy w₁ G₁ w G cs done) (hn : (cs.map fun c => c.stop - c.scan + 1).sum < n) :
    ∃ w' G' log, sweepLog n w cs = some (w', log) ∧ Tidy w₁ G₁ w' G' [] (done ++ log) := by
  induction n generalizing w G cs done with
  | zero => omega
  | succ n ih =>
    cases cs with
    | nil => exact ⟨w, G, [], rfl, by simpa using hT⟩
    | cons k cs =>
      simp only [map_cons, sum_cons] at hn
      by_cases hlt : k.scan < k.stop
      · obtain ⟨w', G', hstep, hT'⟩ := hT.visit hlt
        obtain ⟨w'', G'', log, hrun, hend⟩ := ih hT' (by simp only [map_cons, sum_cons]; omega)
        refine ⟨w'', G'', releaseOf w k ++ log, ?_, by rwa [← append_assoc]⟩
        simp only [sweepLog, hstep, hrun, bind_eq_bind, bind_some, Option.pure_def, releaseOf]
        split_ifs <;> rfl
      · obtain ⟨w'', G'', log, hrun, hend⟩ := ih (hT.pop hlt) (by omega)
        refine ⟨w'', G'', log, ?_, hend⟩
        have hnot : ¬ Doomed w k := fun hd => hlt hd.1
        simp only [sweepLog, sweepStep, if_neg hlt, hrun, bind_eq_bind, bind_some, Option.pure_def,
          if_neg hnot]

/-- The sweep of a heap whose in-use bits are exact returns. It releases each
chunk that is in use and not marked once and nothing else, the marked ones
stay handed out, and no mark is left. -/
theorem sweep_exact (hr : Reachable machine w) (hx : Exact ⟨w, []⟩) (hm : Marking w m) :
    ∃ w' log, sweepLog (sweepFuel (cursors w)) { w with mem := m } (cursors w) = some (w', log) ∧
      gcSweep { w with mem := m } = some w' ∧ log.Nodup ∧
      (∀ i p, (i, p) ∈ log ↔ ∃ c, p = c + HEADER_SIZE ∧ InUse w i c ∧ hasFlag (m c) GC_MARK = false) ∧
      (∀ i c, ChunkOf w i c → hasFlag (m c) GC_MARK = true →
        InUse w' i c ∧ ∃ h', w'.arenas[i]? = some h' ∧ (⟨c + HEADER_SIZE, false⟩ : Block) ∈ h'.live) ∧
      ∀ i c, ChunkOf w' i c → hasFlag (w'.mem c) GC_MARK = false := by
  obtain ⟨G, hw⟩ := reachable_sound hr
  obtain ⟨w', G', log, hrun, hT⟩ := (tidy_init hw hx hm).run (sweepFuel (cursors w)) (Nat.lt_succ_self _)
  have hlen : w'.arenas.length = w.arenas.length := hT.length
  have hlive : ∀ i c, i < w.arenas.length → ((G i).kind c = .live ↔ InUse w i c) := fun i c hi =>
    ⟨inUse_of_live hw.toUpkeep (getElem?_eq_getElem hi), live_of_exact hw.toUpkeep hx⟩
  have hbehind : ∀ i c, i < w.arenas.length → (G' i).kind c = .live → hasFlag (m c) GC_MARK = true := by
    intro i c hi hl
    by_contra hno
    obtain ⟨k, hk, -⟩ := hT.behind i c hi hl (by simpa using hno)
    cases hk
  have hstay : ∀ i c, i < w.arenas.length → (G i).kind c = .live → hasFlag (m c) GC_MARK = true → (G' i).kind c = .live :=
    fun i c hi hl hmark => (hT.survive i c false hi hl fun _ => hmark).1
  refine ⟨w', log, hrun, ?_, ?_, ?_, ?_, ?_⟩
  · rw [gcSweep, ← sweepLog_fst]
    exact congrArg (Option.map Prod.fst) hrun
  · simpa using hT.nodup
  · intro i p
    rw [← nil_append log, hT.log]
    constructor
    · rintro ⟨c, rfl, hi, hl, hl'⟩
      refine ⟨c, rfl, (hlive i c hi).mp hl, ?_⟩
      by_contra hmark
      exact hl' (hstay i c hi hl (by simpa using hmark))
    · rintro ⟨c, rfl, hu, hmark⟩
      have hi := ((chunkOf_iff hw.toUpkeep).mp hu.1).1
      refine ⟨c, rfl, hi, (hlive i c hi).mpr hu, fun hl => ?_⟩
      have := hbehind i c hi hl
      rw [hmark] at this
      cases this
  · intro i c hc hmark
    have hi := ((chunkOf_iff hw.toUpkeep).mp hc).1
    have hl := hstay i c hi ((hlive i c hi).mpr (hm.sub i c hc hmark)) hmark
    have hi' := getElem?_eq_getElem (hlen ▸ hi : i < w'.arenas.length)
    exact ⟨inUse_of_live hT.upkeep hi' hl, _, hi', (live_iff hT.upkeep hi').mpr hl⟩
  · intro i c hc
    obtain ⟨hi, z, hz⟩ := (chunkOf_iff hT.upkeep).mp hc
    by_contra hmark
    obtain ⟨-, k, hk, -⟩ := hT.marked i c z (by rwa [← hT.length]) hz (by simpa using hmark)
    cases hk

def Allocates : Act → Bool
  | .release .. => false
  | _ => true

/-- Of two blocks one is marked. The other one is released. -/
theorem sweep_exact_half : ∃ w m w' log, Reachable machine w ∧ Exact ⟨w, []⟩ ∧ Marking w m ∧
    sweepLog (sweepFuel (cursors w)) { w with mem := m } (cursors w) = some (w', log) ∧
    (0, 1048720) ∈ log ∧ (0, 1048592) ∉ log := by
  have hx : (exec machine (fun _ a => Allocates a = true)
      [.create 4096 1048576, .allocate 0 100 0, .allocate 0 200 0] start).bind (fun w => w.arenas[0]?.map fun h =>
        (w.arenas.length, h.ar.allocedHeaps, heapChunks w.mem h.ar (1048576, 2097168),
          [1048576, 1048704].map (isCurrInuse w.mem) ++
            [1048576, 1048704, 1048928].map fun c => hasFlag (w.mem c) GC_MARK)) =
      some (1, [(1048576, 2097168)], some [1048576, 1048704, 1048928], [true, true, false, false, false]) := by
    decide +kernel
  obtain ⟨w, hrun, he⟩ := exec_reads_bind hx (.init rfl)
  obtain ⟨h, hi, hl⟩ := map_eq_some_iff.mp he
  simp only [map_cons, map_nil, cons_append, nil_append, Prod.mk.injEq, List.cons.injEq,
    and_true] at hl
  obtain ⟨hlen, hheaps, hchunks, hc₁, hc₂, hm₁, hm₂, hm₃⟩ := hl
  obtain ⟨G, hG⟩ : ∃ G, Sound true w G := by
    refine Run.invariant (I := fun w => ∃ G, Sound true w G) ?_ ?_ hrun
    · rintro w rfl
      exact ⟨_, sound_start⟩
    · rintro w a w' ⟨G, hG⟩ ha hs
      obtain ⟨G', -, hG'⟩ := hG.turn (fun _ i h b hab _ => by subst hab; cases ha) hs
      exact ⟨G', hG'⟩
  have hexact : Exact ⟨w, []⟩ := Flags.Inv.exact ⟨hG, by simp, by simp⟩
  have hchunk : ∀ i c, ChunkOf w i c ↔ i = 0 ∧ c ∈ [1048576, 1048704, 1048928] := by
    intro i c
    constructor
    · rintro ⟨h', heap, l, hi', hh, hl, hc⟩
      have : i = 0 := by
        have := lt_of_arena hi'
        omega
      subst this
      cases hi.symm.trans hi'
      rw [hheaps, mem_singleton] at hh
      subst hh
      cases hchunks.symm.trans hl
      exact ⟨rfl, hc⟩
    · rintro ⟨rfl, hc⟩
      exact ⟨h, (1048576, 2097168), _, hi, by simp [hheaps], hchunks, hc⟩
  have hset : ∀ a, a ≠ 1048576 → w.mem.set 1048576 (withFlag (w.mem 1048576) GC_MARK) a = w.mem a :=
    fun a ha => set_of_ne ha
  have hmark : Marking w (w.mem.set 1048576 (withFlag (w.mem 1048576) GC_MARK)) := by
    refine ⟨?_, ?_, ?_⟩
    · intro a ha
      refine hset a ?_
      rintro rfl
      exact ha 0 ((hchunk 0 _).mpr ⟨rfl, by simp⟩)
    · intro a
      by_cases ha : a = 1048576
      · subst ha
        rw [set_self, withoutFlag, if_pos (mark_withFlag_mark _), withoutFlag, withFlag, hm₁]
        rfl
      · rw [hset a ha]
    · intro i c hc hm
      refine ⟨hc, ?_⟩
      obtain ⟨rfl, hin⟩ := (hchunk i c).mp hc
      obtain rfl | rfl | rfl : c = 1048576 ∨ c = 1048704 ∨ c = 1048928 := by simpa using hin
      · exact hc₁
      · exact hc₂
      · rw [hset _ (by omega), hm₃] at hm
        cases hm
  obtain ⟨w', log, hlog, -, -, hrel, -⟩ := sweep_exact (Run.reachable hrun) hexact hmark
  refine ⟨w, _, w', log, Run.reachable hrun, hexact, hmark, hlog, ?_, ?_⟩
  · refine (hrel 0 _).mpr ⟨1048704, rfl, ⟨(hchunk 0 _).mpr ⟨rfl, by simp⟩, hc₂⟩, ?_⟩
    rw [hset _ (by omega), hm₂]
  · intro hin
    obtain ⟨c, hc, -, hm⟩ := (hrel 0 _).mp hin
    obtain rfl : c = 1048576 := by
      unfold HEADER_SIZE at hc
      omega
    rw [set_self, mark_withFlag_mark] at hm
    cases hm

end Picasso.Gc.SweepExact
