import Picasso.Alloc.Runs

namespace Picasso.Alloc.Tiling

open Chunk Allocator Layout Arenas Custody Lib.Transition Lib.Ring List Function
open Invariant hiding Inv

variable {strict : Bool} {w w' : World} {G G' : Nat → Ghost} {g : Ghost} {h : Holding} {m : Mem} {ar : Arena} {E : Env}

def heapChunks (m : Mem) (ar : Arena) (heap : Nat × Nat) : Option (List Nat) :=
  follow (nextChunk m) heap.2 (fuel ar) heap.1

def freeLists (m : Mem) (ar : Arena) : List (Option (List Nat)) :=
  (List.range FASTBINS_COUNT).map (fun i => follow (fd m) 0 (fuel ar) (ar.fastbins i)) ++
    (ar.unsortedbin :: (List.range SMALLBINS_COUNT).map ar.smallbins ++
      (List.range LARGEBINS_COUNT).map ar.largebins).map fun head => follow (fd m) head (fuel ar) (fd m head)

def places (h : Holding) (lists : List (List Nat)) (c : Nat) : Nat :=
  (h.live.map Block.ptr).count (c + HEADER_SIZE) + lists.flatten.count c +
    (if c = h.ar.topChunk then 1 else 0) + h.gone.count (c + HEADER_SIZE)

/-- Every walk over a heap ends where the heap does, every list ends, and each
chunk of a walk is in exactly one place. -/
def HeapTiled (w : World) (h : Holding) : Prop :=
  ∃ lists, freeLists w.mem h.ar = lists.map some ∧
    ∀ heap ∈ h.ar.allocedHeaps, ∃ l, heapChunks w.mem h.ar heap = some l ∧ ∀ c ∈ l, places h lists c = 1

variable {s e n c z i : Nat}

theorem follow_heap (hI : Invariant.Inv E g ar m) (hset : g.Settled) (hh : (s, e) ∈ ar.allocedHeaps) {x : Cell}
    (hc : g.cell c = some x) (hin : x.inHeap = true) (hs : s ≤ c) (he : c ≤ e) (hn : e - c < n) :
    ∃ l, follow (nextChunk m) e n c = some l ∧ ∀ d, d ∈ l ↔ c ≤ d ∧ d < e ∧ ∃ z, g.cell d = some (.chunk z) := by
  induction n generalizing c x with
  | zero => cases hn
  | succ n ih =>
    by_cases hce : c = e
    · refine ⟨[], by rw [follow, if_pos hce], fun d => ?_⟩
      simp only [not_mem_nil, false_iff]
      omega
    · cases x with
      | bound =>
        obtain ⟨s', hh'⟩ := hI.tiled.fence c hc
        have hse := (hI.tiled.heap s' c hh').1
        cases hI.tiled.heap_unique hh hh' (a := c) ⟨hs, he⟩ ⟨by omega, Nat.le_refl c⟩
        exact absurd rfl hce
      | sentinel | block => cases hin
      | chunk z =>
        have hsize : getSize m c = z := hset.getSize hI hc
        have hnext : nextChunk m c = c + 16 + z := by
          unfold nextChunk HEADER_SIZE
          rw [hsize]
        obtain ⟨s', e', hh', hs', he'⟩ := hI.tiled.inside c z hc
        cases hI.tiled.heap_unique hh hh' (a := c) ⟨hs, he⟩ ⟨hs', by omega⟩
        obtain ⟨y, hy, hyin⟩ := hI.tiled.next c z hc
        obtain ⟨l, hl, hcells⟩ := ih hy hyin (by omega) (by omega) (by omega)
        refine ⟨c :: l, follow_cons hce (by rw [hnext]; exact hl), fun d => ?_⟩
        rw [mem_cons, hcells]
        constructor
        · rintro (rfl | ⟨h1, h2, hd⟩)
          · exact ⟨Nat.le_refl d, by omega, z, hc⟩
          · exact ⟨by omega, h2, hd⟩
        · rintro ⟨h1, h2, y, hd⟩
          by_cases hdc : d = c
          · exact .inl hdc
          · have := hI.tiled.apart c d _ _ hc hd (by omega)
            simp only [Cell.extent_chunk] at this
            exact .inr ⟨by omega, h2, y, hd⟩

theorem heap_lt_fuel (hh : (s, e) ∈ ar.allocedHeaps) : e - s < fuel ar := by
  have := inside_lt_fuel (l := List.range' s (e - s)) nodup_range' fun c hc => ⟨(s, e), hh, by
    simp only [List.mem_range'_1] at hc
    omega⟩
  simpa using this

theorem heapChunks_spec (hI : Invariant.Inv E g ar m) (hset : g.Settled) (hh : (s, e) ∈ ar.allocedHeaps) :
    ∃ l, heapChunks m ar (s, e) = some l ∧ ∀ c, c ∈ l ↔ s ≤ c ∧ c < e ∧ ∃ z, g.cell c = some (.chunk z) := by
  obtain ⟨hse, -, z, hz⟩ := hI.tiled.heap s e hh
  exact follow_heap hI hset hh hz rfl (Nat.le_refl s) (by omega) (heap_lt_fuel hh)

theorem Chain.follow {p : Nat} {l : List Nat} (hc : Chain m p l) (h0 : 0 ∉ l) (hn : l.length < n) :
    follow (fd m) 0 n p = some l := by
  induction l generalizing p n with
  | nil =>
    cases n with
    | zero => cases hn
    | succ n =>
      have h0 : p = 0 := hc
      rw [Lib.Ring.follow, if_pos h0]
  | cons a l ih =>
    cases n with
    | zero => cases hn
    | succ n =>
      obtain ⟨rfl, hc⟩ := hc
      simp only [mem_cons, not_or] at h0
      exact follow_cons (Ne.symm h0.1) (ih hc h0.2 (by simpa using hn))

def bins : List Bin := .unsorted :: (List.range SMALLBINS_COUNT).map .small ++ (List.range LARGEBINS_COUNT).map .large

theorem mem_bins (b : Bin) : b ∈ bins ↔ b.Valid := by
  cases b <;> simp [bins, Bin.Valid]

theorem nodup_bins : bins.Nodup := by
  unfold bins
  refine nodup_append.mpr ⟨nodup_cons.mpr ⟨by simp, ?_⟩, ?_, by simp⟩
  · exact nodup_range.map fun _ _ hab => by cases hab; rfl
  · exact nodup_range.map fun _ _ hab => by cases hab; rfl

def lists (g : Ghost) : List (List Nat) := (List.range FASTBINS_COUNT).map g.fast ++ bins.map g.ring

theorem heads_eq (ar : Arena) : ar.unsortedbin :: (List.range SMALLBINS_COUNT).map ar.smallbins ++
    (List.range LARGEBINS_COUNT).map ar.largebins = bins.map (Bin.head ar) := by
  simp [bins, comp_def, Bin.head]

section Bins

variable (hI : Invariant.Inv E g ar m)

include hI

theorem follow_bin {b : Bin} (hv : b.Valid) :
    follow (fd m) (b.head ar) (fuel ar) (fd m (b.head ar)) = some (g.ring b) := by
  have hnodup := nodup_cons.mp (hI.ring_nodup hv)
  refine (hI.links.ring b hv).follow hnodup.1 (length_lt_fuel hI hnodup.2 fun c hc => ?_)
  simp [(hI.bins.ring b c).mp hc]

theorem freeLists_spec : freeLists m ar = (lists g).map some := by
  rw [freeLists, heads_eq, lists, map_append, map_map, map_map, map_map]
  congr 1
  · refine map_congr_left fun i hi => ?_
    have hk : ∀ c ∈ g.fast i, g.kind c ≠ .loose := by
      intro c hc
      simp [(hI.bins.fast i c).mp hc]
    refine Chain.follow (hI.links.fast i (mem_range.mp hi)) ?_ (length_lt_fuel hI (hI.bins.fastNodup i) hk)
    intro h0
    obtain ⟨z, hz⟩ := hI.bins.home 0 (hk 0 h0)
    exact Nat.lt_irrefl 0 (hI.tiled.pos 0 _ hz)
  · exact map_congr_left fun b hb => follow_bin hI ((mem_bins b).mp hb)

theorem nodup_lists : (lists g).flatten.Nodup := by
  refine nodup_flatten.mpr ⟨?_, pairwise_append.mpr ⟨?_, ?_, ?_⟩⟩
  · intro l hl
    rcases mem_append.mp hl with hl | hl
    · obtain ⟨i, -, rfl⟩ := mem_map.mp hl
      exact hI.bins.fastNodup i
    · obtain ⟨b, -, rfl⟩ := mem_map.mp hl
      exact hI.bins.ringNodup b
  · refine pairwise_map.mpr (nodup_range.imp fun {i j} hij => ?_)
    intro c hi hj
    rw [hI.bins.fast] at hi hj
    cases hi.symm.trans hj
    exact hij rfl
  · refine pairwise_map.mpr (nodup_bins.imp fun {b b'} hbb => ?_)
    intro c hb hb'
    rw [hI.bins.ring] at hb hb'
    cases hb.symm.trans hb'
    exact hbb rfl
  · intro l hl l' hl' c hc hc'
    obtain ⟨i, -, rfl⟩ := mem_map.mp hl
    obtain ⟨b, -, rfl⟩ := mem_map.mp hl'
    rw [hI.bins.fast] at hc
    rw [hI.bins.ring] at hc'
    cases hc.symm.trans hc'

theorem valid_of_binned {b : Bin} (hc : g.cell c = some (.chunk z)) (hk : g.kind c = .binned b) : b.Valid := by
  have hfits := hI.bins.fits c z hc
  rw [hk] at hfits
  cases b with
  | unsorted => trivial
  | small i => exact hfits.1
  | large i => exact getLargebinIndex_lt hfits

theorem mem_lists (hc : g.cell c = some (.chunk z)) :
    c ∈ (lists g).flatten ↔ (∃ i, g.kind c = .fast i) ∨ ∃ b, g.kind c = .binned b := by
  simp only [lists, flatten_append, mem_append, mem_flatten, mem_map, mem_range,
    exists_exists_and_eq_and, hI.bins.fast, hI.bins.ring]
  refine or_congr ⟨?_, ?_⟩ ⟨?_, ?_⟩
  · rintro ⟨i, -, hk⟩
    exact ⟨i, hk⟩
  · rintro ⟨i, hk⟩
    have hfits := hI.bins.fits c z hc
    rw [hk] at hfits
    exact ⟨i, hfits.1, hk⟩
  · rintro ⟨b, -, hk⟩
    exact ⟨b, hk⟩
  · rintro ⟨b, hk⟩
    exact ⟨b, (mem_bins b).mpr (valid_of_binned hI hc hk), hk⟩

end Bins

def Tallied (w : World) (G : Nat → Ghost) : Prop :=
  ∀ i h, w.arenas[i]? = some h → h.gone.Nodup ∧ ∀ c, c + 16 ∈ h.gone ↔ (G i).kind c = .unmapped

theorem Tallied.put (ht : Tallied w G) (hi : w.arenas[i]? = some h) {s : State} {live : List Block} {gone : List Nat}
    {g' : Ghost} (hn : gone.Nodup) (hg : ∀ c, c + 16 ∈ gone ↔ g'.kind c = .unmapped) :
    Tallied (w.put i s live gone) (update G i g') := by
  intro j h' hj
  by_cases hji : j = i
  · subst hji
    simp only [World.put, getElem?_set_self (lt_of_arena hi), Option.some.injEq] at hj
    rw [update_self, ← hj]
    exact ⟨hn, hg⟩
  · simp only [World.put, getElem?_set_ne (Ne.symm hji)] at hj
    rw [update_of_ne hji]
    exact ht j h' hj

theorem tallied_turn (hw : Sound strict w G) (ht : Tallied w G) {a : Act} (hs : Turn w G a w' G') : Tallied w' G' := by
  cases hs with
  | refuse => exact ht
  | store => exact ht
  | create idle none mem =>
    intro j h' hj
    rcases Nat.lt_trichotomy j w.arenas.length with hlt | rfl | hgt
    · rw [getElem?_append_left hlt] at hj
      rw [update_of_ne (by omega)]
      exact ht j h' hj
    · simp only [getElem?_concat_length, Option.some.injEq] at hj
      subst hj
      rw [update_self]
      refine ⟨nodup_nil, fun c => ?_⟩
      have := idle c
      simp only [not_mem_nil, false_iff]
      intro hk
      rw [hk] at this
      cases this
    · rw [getElem?_eq_none (by simp only [length_append, length_singleton]; omega)] at hj
      cases hj
  | @gain i n page c h s g' arena gained size mem =>
    obtain ⟨hn, hg⟩ := ht i h arena
    refine ht.put arena hn fun e => ?_
    rw [hg]
    by_cases hec : e = c
    · subst hec
      simp [gained.calm.1, gained.calm.2]
    · exact (gained.toAside.unmapped hec).symm
  | @lose i c d h s g' arena handed lost mem =>
    obtain ⟨hn, hg⟩ := ht i h arena
    have hlive : (G i).kind c ≠ .unmapped := by
      intro hu
      cases d with
      | false => cases hu.symm.trans handed
      | true =>
        obtain ⟨z, hz⟩ := handed
        obtain ⟨y, hy⟩ := (hw.kempt i h arena).inv.bins.home c (by simp [hu])
        cases hy.symm.trans hz
    split_ifs with hu
    · refine ht.put arena (nodup_cons.mpr ⟨fun hm => hlive ((hg c).mp hm), hn⟩) fun e => ?_
      by_cases hec : e = c
      · simp [hec, hu]
      · simp only [mem_cons, Nat.add_right_cancel_iff, hec, false_or, hg]
        exact (lost.toAside.unmapped hec).symm
    · refine ht.put arena hn fun e => ?_
      rw [hg]
      by_cases hec : e = c
      · subst hec
        simp [hu, hlive]
      · exact (lost.toAside.unmapped hec).symm

theorem ptr_nodup (hk : Kempt strict w g h) : (h.live.map Block.ptr).Nodup := by
  refine hk.nodup.map_on fun b hb b' hb' hp => ?_
  obtain ⟨c, d, rfl, hd⟩ := hk.block_of_mem hb
  obtain ⟨c', d', rfl, hd'⟩ := hk.block_of_mem hb'
  obtain rfl : c = c' := Nat.add_right_cancel hp
  rw [handed_unique hk.inv hd hd']

theorem mem_ptr (hk : Kempt strict w g h) (hc : g.cell c = some (.chunk z)) :
    c + 16 ∈ h.live.map Block.ptr ↔ g.kind c = .live := by
  constructor
  · intro hm
    obtain ⟨b, hb, hp⟩ := mem_map.mp hm
    obtain ⟨c', d, rfl, hd⟩ := hk.block_of_mem hb
    obtain rfl : c' = c := Nat.add_right_cancel hp
    cases d with
    | false => exact hd
    | true =>
      obtain ⟨y, hy⟩ := hd
      cases hc.symm.trans hy
  · intro hl
    exact mem_map.mpr ⟨⟨c + 16, false⟩, (hk.live _).mpr ⟨c, rfl, hl⟩, rfl⟩

theorem places_one (hk : Kempt strict w g h) (htop : TopOk g h.ar) (hn : h.gone.Nodup)
    (hgone : ∀ c, c + 16 ∈ h.gone ↔ g.kind c = .unmapped) (hc : g.cell c = some (.chunk z)) :
    places h (lists g) c = 1 := by
  have ht : c = h.ar.topChunk ↔ g.kind c = .top := by
    refine ⟨fun he => ?_, fun he => top_unique hk.inv he⟩
    rcases htop with h0 | ht
    · have := hk.inv.tiled.pos c _ hc
      omega
    · rw [he]
      exact ht
  have hset := hk.settled c z hc
  have hfree := mem_lists hk.inv hc
  rw [places, HEADER_SIZE, (ptr_nodup hk).count, (nodup_lists hk.inv).count, hn.count]
  simp only [mem_ptr hk hc, hgone, ht]
  cases hkc : g.kind c <;> simp only [hkc, Kind.settled, reduceCtorEq] at hset
  all_goals simp [hkc, hfree]

theorem heapTiled_of_sound (hw : Sound strict w G) (ht : Tallied w G) (hi : w.arenas[i]? = some h) : HeapTiled w h := by
  have hk := hw.kempt i h hi
  obtain ⟨hn, hgone⟩ := ht i h hi
  refine ⟨lists (G i), freeLists_spec hk.inv, ?_⟩
  rintro ⟨s, e⟩ hh
  obtain ⟨l, hl, hcells⟩ := heapChunks_spec hk.inv hk.settled hh
  refine ⟨l, hl, fun c hc => ?_⟩
  obtain ⟨-, -, z, hz⟩ := (hcells c).mp hc
  exact places_one hk (hw.top i h hi) hn hgone hz

/-- The system's answer fits the request: a new heap may be registered there,
or the block itself put there. -/
def Granted (w : World) (h : Holding) (n page : Nat) : Prop :=
  if direct n = true then payloadSize n + 16 < 2 ^ 64 ∧ Fresh w.mapped page (16 + payloadSize n)
  else h.ar.allocedHeaps.length < MAX_HEAP_GROWTH_ITERATIONS ∧ Fresh w.mapped page (nextHeapSize h.ar + 48)

theorem allocate_returns (hw : Sound strict w G) {page : Nat} (hi : w.arenas[i]? = some h) (hg : Granted w h n page) :
    ∃ w', step w (.allocate i n page) = some w' := by
  obtain ⟨⟨p, s⟩, hr⟩ : ∃ r, allocate (w.state h) page n = some r := by
    by_cases hn : n = 0
    · exact ⟨_, by rw [allocate, if_pos hn]⟩
    · have hb := payloadSize_bounds n
      rw [allocate, if_neg hn]
      by_cases hd : MMAP_THRESHOLD ≤ payloadSize n
      · rw [Granted, if_pos (by simp [direct, hd])] at hg
        obtain ⟨s, hs⟩ := allocChunk_some (s := w.state h) ⟨hb.1, hg.1⟩ hg.2
        exact ⟨_, by rw [if_pos hd, hs]; rfl⟩
      · rw [Granted, if_neg (by simp [direct, hd])] at hg
        have hk := hw.kempt i h hi
        obtain ⟨v, s, hs⟩ := (allocateChunk_spec (hw.enter hi false 0) rfl hk.settled (hw.top i h hi)
          (hw.backed hi false 0) hk.growth ⟨hb.1, hb.2.1, by omega⟩).2 hg
        exact ⟨_, by rw [if_neg hd, hs]; rfl⟩
  exact ⟨_, by simp only [step, hi, hr, Option.bind_eq_bind, Option.bind_some]; rfl⟩

theorem release_returns (hw : Sound false w G) (hi : w.arenas[i]? = some h) {b : Block} (hb : b ∈ h.live) :
    ∃ w', step w (.release i b) = some w' := by
  obtain ⟨w', -, hr, -⟩ := hw.turn_free hi hb (by simp)
  exact ⟨w', by simp only [step, hi, Option.bind_eq_bind, Option.bind_some, if_pos hb, hr]⟩

theorem reachable_tallied (hr : Reachable machine w) : ∃ G, Sound false w G ∧ Tallied w G := by
  refine Run.invariant (I := fun w => ∃ G, Sound false w G ∧ Tallied w G) ?_ ?_ hr
  · rintro w rfl
    exact ⟨_, sound_start, by simp [Tallied, start]⟩
  · rintro w a w' ⟨G, hw, ht⟩ - hs
    obtain ⟨G', hturn, hw'⟩ := hw.turn (by simp) hs
    exact ⟨G', hw', tallied_turn hw ht hturn⟩

/-- In every reachable state the heaps of every arena are tiled by chunks that
are in one place each, and every call that the system does not refuse returns. -/
theorem heap_tiling (hr : Reachable machine w) {i : Nat} (hi : w.arenas[i]? = some h) :
    HeapTiled w h ∧ (∀ b ∈ h.live, ∃ w', step w (.release i b) = some w') ∧
      ∀ n page, Granted w h n page → ∃ w', step w (.allocate i n page) = some w' := by
  obtain ⟨G, hw, ht⟩ := reachable_tallied hr
  exact ⟨heapTiled_of_sound hw ht hi, fun b hb => release_returns hw hi hb, fun n page hg => allocate_returns hw hi hg⟩

/-- Two chunks merged, one of them cut again. -/
theorem heap_tiling_merged : ∃ w h, Reachable machine w ∧ w.arenas[0]? = some h ∧ h.live.length = 2 ∧ HeapTiled w h := by
  have hx : (walk machine [.create 4096 1048576, .allocate 0 1000 0, .allocate 0 200 0,
      .allocate 0 24 0, .release 0 ⟨1048592, false⟩, .release 0 ⟨1049616, false⟩, .allocate 0 100 0] start).bind
      (fun w => w.arenas[0]?.map fun h => h.live.length) = some 2 := by decide +kernel
  obtain ⟨w, hr, he⟩ := exec_reads_bind hx (.init rfl)
  obtain ⟨h, hi, hl⟩ := Option.map_eq_some_iff.mp he
  exact ⟨w, h, hr, hi, hl, (heap_tiling hr hi).1⟩

section BoundaryTags

def InBin (m : Mem) (ar : Arena) (c : Nat) : Prop :=
  ∃ head ∈ ar.unsortedbin :: (List.range SMALLBINS_COUNT).map ar.smallbins ++
    (List.range LARGEBINS_COUNT).map ar.largebins, ∃ l, follow (fd m) head (fuel ar) (fd m head) = some l ∧ c ∈ l

theorem inBin_iff (hI : Invariant.Inv E g ar m) (hc : g.cell c = some (.chunk z)) :
    InBin m ar c ↔ ∃ b, g.kind c = .binned b := by
  rw [InBin, heads_eq]
  constructor
  · rintro ⟨head, hhead, l, hl, hcl⟩
    obtain ⟨b, hb, rfl⟩ := mem_map.mp hhead
    rw [follow_bin hI ((mem_bins b).mp hb)] at hl
    cases hl
    exact ⟨b, (hI.bins.ring b c).mp hcl⟩
  · rintro ⟨b, hk⟩
    have hv := valid_of_binned hI hc hk
    exact ⟨_, mem_map_of_mem ((mem_bins b).mpr hv), _, follow_bin hI hv, (hI.bins.ring b c).mpr hk⟩

/-- What is written behind a chunk tells whether it is in a bin, and where it starts then. -/
structure Tagged (m : Mem) (ar : Arena) (c : Nat) : Prop where
  bit : isPrevInuse m (nextChunk m c) = false ↔ InBin m ar c
  size : InBin m ar c → getPrevSize m (nextChunk m c) = getSize m c
  start : InBin m ar c → prevChunk m (nextChunk m c) = c

theorem tagged_of_settled (hI : Invariant.Inv E g ar m) (hset : g.Settled) (hc : g.cell c = some (.chunk z)) :
    Tagged m ar c := by
  have hk := hset c z hc
  have hsize : getSize m c = z := hset.getSize hI hc
  have hnext : nextChunk m c = c + 16 + z := by rw [nextChunk, hsize, HEADER_SIZE]
  have hfoot := hI.words.foot c z hc
  have hbit : isPrevInuse m (nextChunk m c) = false ↔ InBin m ar c := by
    rw [inBin_iff hI hc, hnext, isPrevInuse, Chunk.size]
    cases hkc : g.kind c with
    | binned b => simp [hfoot.used false (by rw [hkc]; rfl)]
    | live | unmapped | fast | top => simp [hfoot.used true (by rw [hkc]; rfl)]
    | _ =>
      rw [hkc] at hk
      cases hk
  have hprev : InBin m ar c → getPrevSize m (nextChunk m c) = getSize m c := by
    intro hb
    obtain ⟨b, hkb⟩ := (inBin_iff hI hc).mp hb
    rw [hnext, hsize]
    exact hfoot.prev (by rw [hkb]; rfl)
  refine ⟨hbit, hprev, fun hb => ?_⟩
  rw [prevChunk, hprev hb, nextChunk]
  omega

/-- In every reachable state the boundary tags of all chunks of all heaps are right. -/
theorem boundary_tags (hr : Reachable machine w) {i : Nat} (hi : w.arenas[i]? = some h) :
    ∀ heap ∈ h.ar.allocedHeaps, ∃ l, heapChunks w.mem h.ar heap = some l ∧ ∀ c ∈ l, Tagged w.mem h.ar c := by
  obtain ⟨G, hw, -⟩ := reachable_tallied hr
  have hk := hw.kempt i h hi
  rintro ⟨s, e⟩ hh
  obtain ⟨l, hl, hcells⟩ := heapChunks_spec hk.inv hk.settled hh
  refine ⟨l, hl, fun c hc => ?_⟩
  obtain ⟨-, -, z, hz⟩ := (hcells c).mp hc
  exact tagged_of_settled hk.inv hk.settled hz

/-- A released chunk between two live ones. -/
theorem boundary_tags_released : ∃ w h, Reachable machine w ∧ w.arenas[0]? = some h ∧
    isPrevInuse w.mem 1049600 = false ∧ ∀ heap ∈ h.ar.allocedHeaps, ∃ l, heapChunks w.mem h.ar heap = some l ∧
      ∀ c ∈ l, Tagged w.mem h.ar c := by
  have hx : (walk machine [.create 4096 1048576, .allocate 0 1000 0, .allocate 0 200 0,
      .release 0 ⟨1048592, false⟩] start).bind (fun w => w.arenas[0]?.map fun h => isPrevInuse w.mem 1049600) =
      some false := by decide +kernel
  obtain ⟨w, hr, he⟩ := exec_reads_bind hx (.init rfl)
  obtain ⟨h, hi, hb⟩ := Option.map_eq_some_iff.mp he
  exact ⟨w, h, hr, hi, hb, boundary_tags hr hi⟩

end BoundaryTags

end Picasso.Alloc.Tiling
