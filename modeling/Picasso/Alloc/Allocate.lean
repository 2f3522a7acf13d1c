import Picasso.Alloc.Search

namespace Picasso.Alloc.Invariant

open Chunk Allocator Layout Lib.Ring Option Function Ghost

attribute [local simp] Kind.settled Kind.busy Kind.plain Kind.sized Kind.curr Kind.used Kind.flat Ghost.retag

variable {E : Env} {g : Ghost} {s s' : State} {page p : Nat}

def Within (rs : List (Nat × Nat)) (a : Nat) : Prop := ∃ r ∈ rs, r.1 ≤ a ∧ a < r.1 + r.2

def Newly (rs rs' : List (Nat × Nat)) (a : Nat) : Prop := Within rs' a ∧ ¬ Within rs a

/-- All that an arena owns and all that a call has to keep is in mapped memory. -/
structure Backed (E : Env) (g : Ghost) (s : State) : Prop where
  owned : ∀ a, g.Owned a → Within s.mapped a
  heap : ∀ h ∈ s.ar.allocedHeaps, (h.1, h.2 + 32 - h.1) ∈ s.mapped
  keep : ∀ a, E.keep a → Within s.mapped a

variable {size n z d v : Nat} {ar : Arena} {m m' : Mem} {g' : Ghost}

theorem not_within_of_fresh {rs : List (Nat × Nat)} {a : Nat} (h : Fresh rs page size) (ha : page ≤ a)
    (ha' : a < page + size) : ¬ Within rs a := by
  rintro ⟨r, hr, h1, h2⟩
  have := h.2.2.2 r hr
  omega

def Growth (ar : Arena) : Prop := ar.heapConstantGrowthIters ≤ ar.allocedHeaps.length

theorem nextHeapSize_bounds (hg : Growth ar) (hl : ar.allocedHeaps.length < MAX_HEAP_GROWTH_ITERATIONS) :
    nextHeapSize ar % 16 = 0 ∧ HEAP_BASE_SIZE ≤ nextHeapSize ar ∧ nextHeapSize ar ≤ 2 ^ 34 := by
  unfold Growth at hg
  unfold MAX_HEAP_GROWTH_ITERATIONS at hl
  unfold nextHeapSize growsExponentially HEAP_BASE_SIZE HEAP_EXPONENTIAL_GROWTH_LIMIT HEAP_CONSTANT_GROWTH
  have hpow : 0 < 2 ^ ar.heapExpoGrowthIters := Nat.two_pow_pos _
  generalize 2 ^ ar.heapExpoGrowthIters = x at hpow
  split_ifs with hx
  · simp only [decide_eq_true_eq] at hx
    omega
  · omega

theorem align16_of_lt (h : n % 16 = 0) (hn : n < 2 ^ 63) : align16 n = n := by
  unfold align16
  omega

structure Grown (s s' : State) (page z : Nat) : Prop where
  fresh : Fresh s.mapped page (z + 48)
  mapped : s'.mapped = (page, z + 48) :: s.mapped
  unmapped : s'.unmapped = s.unmapped
  heaps : s'.ar.allocedHeaps = s.ar.allocedHeaps ++ [(page, page + 16 + z)]
  top : s'.ar.topChunk = page
  heads : ∀ b : Bin, b.head s'.ar = b.head s.ar
  fastbins : s'.ar.fastbins = s.ar.fastbins
  growth : Growth s'.ar
  outside : ∀ a, ¬ (page ≤ a ∧ a < page + (z + 48)) → s'.mem a = s.mem a
  first : s'.mem (page + 8) = z + PREV_IN_USE
  last : s'.mem (page + 16 + z + 8) = CURR_IN_USE + PREV_IN_USE

theorem allocMemory_eq : allocMemory s page size = some s' ↔ Fresh s.mapped page size ∧
    s' = { s with
      mem := fun a => if page ≤ a ∧ a < page + size then 0 else s.mem a
      mapped := (page, size) :: s.mapped } := by
  unfold allocMemory
  split_ifs with h
  · simp [h, eq_comm]
  · simp [h]

theorem growHeap_grown (hg : Growth s.ar) (h : growHeap s page = some s') :
    s.ar.allocedHeaps.length < MAX_HEAP_GROWTH_ITERATIONS ∧ Grown s s' page (nextHeapSize s.ar) := by
  have hlen : s.ar.allocedHeaps.length < MAX_HEAP_GROWTH_ITERATIONS := by
    by_contra hlen
    simp only [growHeap, allocChunk, bind_eq_bind, bind_eq_some_iff] at h
    obtain ⟨s1, ⟨s0, hs0, hs1⟩, h⟩ := h
    obtain ⟨-, rfl⟩ := allocMemory_eq.mp hs0
    cases hs1
    rw [if_neg hlen] at h
    cases h
  refine ⟨hlen, ?_⟩
  obtain ⟨hz16, hzlo, hzhi⟩ := nextHeapSize_bounds hg hlen
  simp only [growHeap, allocChunk, bind_eq_bind, bind_eq_some_iff] at h
  generalize nextHeapSize s.ar = z at *
  have hsize : align16 ((z + HEAP_BOUNDARY_SIZE + HEADER_SIZE) % 2 ^ 64) = z + 48 := by
    unfold HEAP_BOUNDARY_SIZE HEADER_SIZE
    rw [align16_of_lt (by omega) (by omega)]
    omega
  rw [hsize] at h
  obtain ⟨s1, ⟨s0, hs0, hs1⟩, h⟩ := h
  obtain ⟨hfresh, rfl⟩ := allocMemory_eq.mp hs0
  cases hs1
  rw [if_pos hlen] at h
  cases h
  refine ⟨hfresh, rfl, rfl, rfl, rfl, ?_, rfl, ?_, ?_, ?_, ?_⟩
  · intro b
    cases b <;> rfl
  · unfold Growth at *
    simp only [List.length_append, List.length_singleton]
    split_ifs <;> omega
  · intro a ha
    simp only [setFdbkTo, setSize, unsetMmapFlag, Mem.set, HEADER_SIZE]
    split_ifs <;> first | rfl | omega
  · simp only [setFdbkTo, setSize, unsetMmapFlag, Mem.set, HEADER_SIZE]
    split_ifs <;> first | rfl | omega
  · simp only [setFdbkTo, setSize, unsetMmapFlag, Mem.set, HEADER_SIZE]
    split_ifs <;> first | rfl | omega

def Room (s : State) (page : Nat) : Prop :=
  s.ar.allocedHeaps.length < MAX_HEAP_GROWTH_ITERATIONS ∧ Fresh s.mapped page (nextHeapSize s.ar + 48)

theorem allocChunk_fresh (hsize : align16 ((z + HEADER_SIZE) % 2 ^ 64) = n) (hf : Fresh s.mapped page n) :
    ∃ s', allocChunk s page z = some s' ∧ s'.ar = s.ar := by
  rw [allocChunk, hsize, allocMemory, if_pos hf]
  exact ⟨_, rfl, rfl⟩

theorem growHeap_some (hg : Growth s.ar) (h : Room s page) : ∃ s', growHeap s page = some s' := by
  obtain ⟨hlen, hfresh⟩ := h
  obtain ⟨hz16, hzlo, hzhi⟩ := nextHeapSize_bounds hg hlen
  have hsize : align16 ((nextHeapSize s.ar + HEAP_BOUNDARY_SIZE + HEADER_SIZE) % 2 ^ 64) = nextHeapSize s.ar + 48 := by
    unfold HEAP_BOUNDARY_SIZE HEADER_SIZE
    rw [align16_of_lt (by omega) (by omega)]
    omega
  obtain ⟨s', hs', har⟩ := allocChunk_fresh hsize hfresh
  simp [growHeap, hs', har, hlen]

def Ghost.grow (g : Ghost) (page z : Nat) : Ghost :=
  { g with
    cell := update (update g.cell page (some (.chunk z))) (page + 16 + z) (some .bound)
    kind := update g.kind page .top }

theorem cell_apart (hb : Backed E g s) (ht : Tiled g.cell s.ar.allocedHeaps) (hf : Fresh s.mapped page size) {y : Cell}
    (hd : g.cell d = some y) : d + y.extent ≤ page ∨ page + size ≤ d := by
  have hext := ht.extent_ge hd
  by_contra hno
  rcases Nat.lt_or_ge d page with hlt | hge
  · exact not_within_of_fresh hf (a := page) (by omega) (by have := hf.2.2.1; omega)
      (hb.owned page ⟨d, y, hd, by omega, by omega⟩)
  · exact not_within_of_fresh hf (a := d) (by omega) (by omega) (hb.owned d ⟨d, y, hd, by omega, by omega⟩)

theorem none_of_fresh (h : Inv E g s.ar s.mem) (hb : Backed E g s) (hf : Fresh s.mapped page size) (hd : page ≤ d)
    (hd' : d < page + size) : g.cell d = none ∧ g.kind d = .loose := by
  have hn : g.cell d = none := by
    cases hc : g.cell d with
    | none => rfl
    | some y =>
      have := cell_apart hb h.tiled hf hc
      have := h.tiled.extent_ge hc
      omega
  refine ⟨hn, ?_⟩
  by_contra hk
  obtain ⟨w, hw⟩ := h.bins.home d hk
  simp [hn] at hw

theorem Grown.inv (hG : Grown s s' page z) (h : Inv E g s.ar s.mem) (hm : E.marked = false) (hb : Backed E g s)
    (htop : ∀ d, g.kind d ≠ .top) (hz : z % 16 = 0 ∧ 32 ≤ z) : Inv E (g.grow page z) s'.ar s'.mem := by
  have hpage : page % 16 = 0 ∧ 0 < page := by
    have h₁ := hG.fresh.1
    have h2 := hG.fresh.2.1
    unfold PAGE_SIZE at h₁
    omega
  have hcell : ∀ d y, g.cell d = some y → d + y.extent ≤ page ∨ page + (z + 48) ≤ d :=
    fun d y hd => cell_apart hb h.tiled hG.fresh hd
  have hnone : ∀ d, page ≤ d → d < page + (z + 48) → g.cell d = none ∧ g.kind d = .loose :=
    fun d h₁ h₂ => none_of_fresh h hb hG.fresh h₁ h₂
  have h1 : Inv E g s.ar s'.mem := by
    refine h.congr (fun c x o hc ho _ => hG.outside _ ?_) (fun a ha => hG.outside _ ?_)
    · have := hcell c x hc
      omega
    · intro hin
      exact not_within_of_fresh hG.fresh hin.1 hin.2 (hb.keep a ha)
  have hne : page ≠ page + 16 + z := by omega
  have htiled : Tiled (g.grow page z).cell s'.ar.allocedHeaps := by
    rw [hG.heaps]
    refine h.tiled.grow hpage hz hcell fun r hr => ?_
    have h₁ := hG.fresh.2.2.2 _ (hb.heap r hr)
    have h2 := (h.tiled.heap r.1 r.2 hr).1
    dsimp only at h₁
    omega
  refine h1.reshape (S := fun d => d = page ∨ d = page + 16 + z)
    ⟨htiled, ⟨rfl, rfl, rfl⟩, ⟨hG.heads, hG.fastbins⟩, ?_, ?_, ?_, ?_, ?_⟩
  · intro a e hh
    rw [hG.heaps] at hh
    rcases List.mem_append.mp hh with hh | hh
    · exact h1.words.start a e hh
    · obtain ⟨rfl, rfl⟩ : a = page ∧ e = page + 16 + z := by simpa using hh
      rw [hG.first]
      exact prev_add_prev hz.1
  · intro d hd
    simp only [not_or] at hd
    simp [grow, hd]
  · rintro d (rfl | rfl)
    · obtain ⟨hn, hk⟩ := hnone d (by omega) (by omega)
      simp [hn, hk]
    · obtain ⟨hn, hk⟩ := hnone (page + 16 + z) (by omega) (by omega)
      simp [hn, hk]
  · intro d _ hd
    exact absurd hd (htop d)
  · have hkeep : ∀ a, page ≤ a → a < page + (z + 48) → ¬ E.keep a := fun a h₁ h₂ hk =>
      not_within_of_fresh hG.fresh h₁ h₂ (hb.keep a hk)
    rintro d (rfl | rfl)
    · have hc : (g.grow d z).cell d = some (.chunk z) := by simp [grow, hne]
      have hk : (g.grow d z).kind d = .top := by simp [grow]
      have hzw : ∀ w, (g.grow d z).cell d = some (.chunk w) → w = z := by
        intro w hw
        cases hc.symm.trans hw
        rfl
      constructor
      · simp [hk]
      · exact fun _ => ⟨z, hc⟩
      · intro w hw
        rw [hzw w hw, hk, hG.first]
        refine ⟨fun _ => sizeBits_add_prev hz.1, fun b hb => ?_⟩
        rw [curr_add_prev hz.1]
        cases hs : E.strict <;> simp_all
      · intro w hw
        rw [hzw w hw, hk, hG.last]
        exact ⟨by simp [hasFlag, PREV_IN_USE, CURR_IN_USE], by simp⟩
      · simp [hk]
      · simp [hc]
      · simp [hc]
      · intro w _ hw
        rw [hzw w hw]
        exact ⟨hG.top.symm, by simp [grow]⟩
      · intro x o hx ho _
        cases hc.symm.trans hx
        exact hkeep _ (by omega) (by simp only [Cell.extent_chunk] at ho; omega)
      · simp [hm]
      · simp [hk]
    · have hc : (g.grow page z).cell (page + 16 + z) = some .bound := by simp [grow]
      have hk : (g.grow page z).kind (page + 16 + z) = .loose := by
        simp [grow, hne.symm, (hnone (page + 16 + z) (by omega) (by omega)).2]
      constructor
      · simp [hk]
      · simp [hk]
      · simp [hc]
      · simp [hc]
      · simp [hk]
      · intro _
        rw [hG.last]
        exact ⟨rfl, rfl⟩
      · simp [hc]
      · simp [hk]
      · intro x o hx ho _
        cases hc.symm.trans hx
        exact hkeep _ (by omega) (by simp only [Cell.extent_bound] at ho; omega)
      · simp [hc]
      · simp [hk]

theorem Inv.setTop (h : Inv E g ar m) (hno : ∀ d, g.kind d ≠ .top) (t : Nat) : Inv E g { ar with topChunk := t } m := by
  refine h.reshape (S := fun _ => False) ⟨h.tiled, ⟨rfl, rfl, rfl⟩, ⟨fun b => by cases b <;> rfl, rfl⟩, h.words.start,
    fun _ _ => ⟨rfl, rfl⟩, by simp, fun d _ hd => absurd hd (hno d), by simp⟩

theorem top_unique (h : Inv E g ar m) (hd : g.kind d = .top) : d = ar.topChunk := by
  obtain ⟨z, hz⟩ := h.bins.home d (by simp [hd])
  exact (h.bins.top d z hd hz).1

theorem Ghost.Settled.but (h : g.Settled) (c : Nat) : g.SettledBut c := fun d z _ hd => h d z hd

theorem carveTop_spec (h : Inv E g s.ar s.mem) (hm : E.marked = false) (hset : g.Settled) {c y : Nat}
    (hcs : s.ar.topChunk = c) (hk : g.kind c = .top) (hc : g.cell c = some (.chunk y)) (hp : p % 16 = 0 ∧ 32 ≤ p) :
    y < p ∧ carveTop s p = some (0, s) ∨
      p ≤ y ∧ ∃ t m', carveTop s p = some (c, { s with mem := m', ar := { s.ar with topChunk := t } }) ∧
        Found E g p c { s.ar with topChunk := t } m' := by
  have hal := h.tiled.chunk c y hc
  have hsize : sizeBits (s.mem (c + 8)) = y := (h.words.own c y hc).size (by simp [hk])
  have hgs : getSize s.mem c = y := hsize
  have hne0 : c ≠ 0 := Nat.ne_of_gt (h.tiled.pos c _ hc)
  have hnotop : ∀ {g' : Ghost}, (∀ d, d ≠ c → g'.kind d = .top → g.kind d = .top) → g'.kind c ≠ .top →
      ∀ d, g'.kind d ≠ .top := by
    intro g' h₁ h₂ d hd
    by_cases hdc : d = c
    · exact h₂ (hdc ▸ hd)
    · exact hdc ((top_unique h (h₁ d hdc hd)).trans hcs)
  unfold carveTop
  simp only [hcs, hgs]
  by_cases hle : p ≤ y
  · right
    refine ⟨hle, ?_⟩
    rw [if_pos hle]
    by_cases hrem : MIN_PAYLOAD_SIZE + HEADER_SIZE ≤ y - p
    · rw [if_pos hrem]
      simp only [MIN_PAYLOAD_SIZE, HEADER_SIZE] at hrem
      obtain ⟨q, rfl⟩ : ∃ q, y = p + 16 + q := ⟨y - p - 16, by omega⟩
      have hq : q % 16 = 0 ∧ 32 ≤ q := by omega
      have hne : c + 16 + p ≠ c := by omega
      have hint := h.tiled.interior hc (a := c + 16 + p) (by omega) (by simp only [Cell.extent_chunk]; omega)
      have hkint := h.kind_interior hc (o := 16 + p) (by omega) (Cell.lt_chunk (by omega))
      rw [← Nat.add_assoc] at hkint
      have hused := (h.words.foot c _ hc).used true (by simp [hk])
      have h0 := h.carve hc (by simp [hk]) (by simp [hk]) hused
      obtain ⟨m1, hm1, h1, hs1, hcu1⟩ := makeRemainder_spec h0 hm hc (by simp) hp hq
      generalize hg1 : ((g.retag c .carved).split c p q).retag c .carved = g1 at h1
      have hc1 : g1.cell c = some (.chunk p) := by simp [← hg1, split, hne.symm]
      have hr1 : g1.cell (c + 16 + p) = some (.chunk q) := by simp [← hg1, split]
      have hkc1 : g1.kind c = .carved := by simp [← hg1]
      have hkr1 : g1.kind (c + 16 + p) = .carved := by simp [← hg1, split, hne]
      have hko1 : ∀ d, d ≠ c → d ≠ c + 16 + p → g1.kind d = g.kind d := by
        intro d h₁ h₂
        simp [← hg1, split, h₁, h₂]
      have hcell1 : g1.cell = (g.split c p q).cell := by simp [← hg1, split]
      have hnb : c + 16 + p + 16 + q = c + 16 + (p + 16 + q) := by omega
      have hbound1 : g1.cell (c + 16 + p + 16 + q) = some .bound := by
        have := (h.bins.top c _ hk hc).2
        rw [hcell1, hnb]
        simp only [split]
        rw [update_of_ne (by omega), update_of_ne (by omega)]
        exact this
      have h2 := h1.setTop (hnotop (fun d hd hdt => by
        by_cases hdr : d = c + 16 + p
        · simp [hdr, hkr1] at hdt
        · exact (hko1 d hd hdr).symm.trans hdt) (by simp [hkc1])) (c + 16 + p)
      have hfoot := (h2.words.foot _ _ hr1).used true (by simp [hkr1])
      have h3 := h2.retag (k := .top) hr1 (by simp [hkr1]) rfl
        ⟨fun _ => hs1, fun b hb => by rw [hcu1]; cases hst : E.strict <;> simp_all⟩
        ⟨by simpa using hfoot, by simp⟩ (by simp)
        (fun _ => ⟨rfl, hbound1⟩) (by simp [hkr1]) (by simp)
      have h4 := grantFront_spec h3 (c := c) (r := p) hc1 (by simp [hne.symm, hkc1])
      refine ⟨c + 16 + p, _, ?_, hne0, _, h4, ?_, ?_⟩
      · rw [show p + 16 + q - p = 16 + q by omega, hm1]
        simp [HEADER_SIZE]
      · apply served_front ((g1.retag (c + 16 + p) .top).retag c .live) (k := .top) hc (by simp [hk])
          hint hkint (hset.but c) rfl rfl hcell1
        funext d
        simp only [retag, update_apply]
        by_cases h₁ : d = c
        · simp [h₁]
        · by_cases h₂ : d = c + 16 + p
          · simp [h₂]
          · simp [h₁, h₂, hko1 d h₁ h₂]
      · right
        simp [hne]
    · rw [if_neg hrem]
      simp only [MIN_PAYLOAD_SIZE, HEADER_SIZE] at hrem
      have h1 := grant_spec h hc (by simp [hk]) (by simp [hk]) hsize
      have h2 := h1.setTop (hnotop (fun d hd hdt => by simpa [hd] using hdt) (by simp)) 0
      refine ⟨0, _, rfl, hne0, _, h2, ?_, .inl rfl⟩
      exact served_whole hc (by simp [hk]) (.inr ⟨hle, by omega⟩) (hset.but c)
  · left
    refine ⟨by omega, ?_⟩
    rw [if_neg hle]

structure Mapping (s s' : State) (page : Nat) : Prop where
  unmapped : s'.unmapped = s.unmapped
  growth : Growth s'.ar
  heaps : s'.mapped = s.mapped ∧ s'.ar.allocedHeaps = s.ar.allocedHeaps ∨
    ∃ z, Fresh s.mapped page (z + 48) ∧ s'.mapped = (page, z + 48) :: s.mapped ∧
      s'.ar.allocedHeaps = s.ar.allocedHeaps ++ [(page, page + 16 + z)]

def Allocated (E : Env) (g : Ghost) (s s' : State) (page p v : Nat) : Prop :=
  v ≠ 0 ∧ Mapping s s' page ∧
    ∃ g', Inv E g' s'.ar s'.mem ∧ Served (Newly s.mapped s'.mapped) g g' v p ∧ TopOk g' s'.ar

theorem Found.allocated (ar' : Arena) (h : Found E g p v ar' m') (hh : ar'.allocedHeaps = s.ar.allocedHeaps)
    (hg : Growth ar') : Allocated E g s { s with mem := m', ar := ar' } page p v := by
  obtain ⟨hv, g', h1, h2, h3⟩ := h
  exact ⟨hv, ⟨rfl, hg, .inl ⟨rfl, hh⟩⟩, g', h1, h2.mono (by simp), h3⟩

theorem served_of_grow (h : Served (fun _ => False) (g.grow page z) g' page p)
    (hnone : ∀ d, page ≤ d → d < page + (z + 48) → g.cell d = none ∧ g.kind d = .loose) (hz : p + 48 ≤ z) :
    Served (fun a => page ≤ a ∧ a < page + (z + 48)) g g' page p := by
  obtain ⟨live, -, ⟨w, hw, hsize⟩, busy, block, owned, settled⟩ := h
  have hne : page ≠ page + 16 + z := by omega
  obtain ⟨hn1, hk1⟩ := hnone page (by omega) (by omega)
  obtain ⟨hn2, hk2⟩ := hnone (page + 16 + z) (by omega) (by omega)
  have hkind : ∀ d, d ≠ page → (g.grow page z).kind d = g.kind d := fun d hd => by simp [grow, hd]
  have hcell : ∀ d, d ≠ page → d ≠ page + 16 + z → (g.grow page z).cell d = g.cell d :=
    fun d hd hd' => by simp [grow, hd, hd']
  refine ⟨live, by simp [hk1], ⟨w, hw, .inl ?_⟩, ?_, ?_, ?_, settled⟩
  · rcases hsize with hsize | ⟨hc, -, hlt⟩
    · exact hsize
    · simp only [grow, update_of_ne hne, update_self, Option.some.injEq, Cell.chunk.injEq] at hc
      omega
  · intro c hc hb
    rw [← hkind c hc] at hb ⊢
    obtain ⟨h1, h2⟩ := busy c hc hb
    refine ⟨h1, h2.trans (hcell c hc ?_)⟩
    rintro rfl
    rw [h1, hkind _ hc, hk2] at hb
    simp at hb
  · intro c w
    rw [block]
    by_cases h1 : c = page
    · subst h1
      simp [grow, hne, hn1]
    · by_cases h2 : c = page + 16 + z
      · simp [h2, grow, hn2]
      · rw [hcell c h1 h2]
  · intro a ha
    rcases owned a ha with ⟨c, x, hx, hle, hlt⟩ | hf
    · by_cases h1 : c = page
      · subst h1
        simp only [grow, update_of_ne hne, update_self, Option.some.injEq] at hx
        subst hx
        simp only [Cell.extent_chunk] at hlt
        exact .inr (by omega)
      · by_cases h2 : c = page + 16 + z
        · subst h2
          simp only [grow, update_self, Option.some.injEq] at hx
          subst hx
          simp only [Cell.extent_bound] at hlt
          exact .inr (by omega)
        · rw [hcell c h1 h2] at hx
          exact .inl ⟨c, x, hx, hle, hlt⟩
    · exact absurd hf id

theorem growAndCarve_spec (h : Inv E g s.ar s.mem) (hm : E.marked = false) (hset : g.Settled) (hb : Backed E g s)
    (hno : ∀ d, g.kind d ≠ .top) (hg : Growth s.ar) (hp : p % 16 = 0 ∧ 32 ≤ p ∧ p < MMAP_THRESHOLD) {s1 : State}
    (hs1 : growHeap s page = some s1) : ∃ s' v, carveTop s1 p = some (v, s') ∧ Allocated E g s s' page p v := by
  obtain ⟨hlen, hG⟩ := growHeap_grown hg hs1
  obtain ⟨hz16, hzlo, -⟩ := nextHeapSize_bounds hg hlen
  generalize nextHeapSize s.ar = z at *
  unfold HEAP_BASE_SIZE at hzlo
  unfold MMAP_THRESHOLD at hp
  have hnone : ∀ d, page ≤ d → d < page + (z + 48) → g.cell d = none ∧ g.kind d = .loose :=
    fun d h₁ h₂ => none_of_fresh h hb hG.fresh h₁ h₂
  have h1 := hG.inv h hm hb hno ⟨hz16, by omega⟩
  have hk1 : (g.grow page z).kind page = .top := by simp [grow]
  have hc1 : (g.grow page z).cell page = some (.chunk z) := by
    simp [grow, show page ≠ page + 16 + z by omega]
  have hset1 : (g.grow page z).Settled := by
    intro d w hd
    by_cases hdp : d = page
    · simp [hdp, hk1]
    · by_cases hdb : d = page + 16 + z
      · simp [hdb, grow] at hd
      · simp only [grow, update_of_ne hdb, update_of_ne hdp] at hd ⊢
        exact hset d w hd
  rcases carveTop_spec h1 hm hset1 hG.top hk1 hc1 ⟨hp.1, hp.2.1⟩ with ⟨hlt, -⟩ | ⟨-, t, m', hr, hv, g', h₁, h₂, h₃⟩
  · omega
  · refine ⟨_, page, hr, hv, ⟨hG.unmapped, hG.growth, .inr ⟨z, hG.fresh, hG.mapped, hG.heaps⟩⟩, g', h₁, ?_, h₃⟩
    refine (served_of_grow h₂ hnone (by omega)).mono fun a ha => ?_
    refine ⟨⟨(page, z + 48), by simp [hG.mapped], ha.1, ha.2⟩, not_within_of_fresh hG.fresh ha.1 ha.2⟩

theorem Backed.of_shuffled (h : Backed E g s) (hs : Shuffled g g') (ar' : Arena) (m' : Mem)
    (hh : ar'.allocedHeaps = s.ar.allocedHeaps) : Backed E g' { s with mem := m', ar := ar' } := by
  refine ⟨fun a ha => h.owned a ?_, hh ▸ h.heap, h.keep⟩
  unfold Ghost.Owned at ha ⊢
  rwa [hs.cell] at ha

theorem Allocated.of_shuffled (hs : Shuffled g g') (ar' : Arena) (hh : ar'.allocedHeaps = s.ar.allocedHeaps)
    (h : Allocated E g' { s with mem := m', ar := ar' } s' page p v) : Allocated E g s s' page p v := by
  obtain ⟨hv, ⟨h1, h2, h3⟩, g'', h4, h5, h6⟩ := h
  refine ⟨hv, ⟨h1, h2, ?_⟩, g'', h4, hs.served h5, h6⟩
  simp only [hh] at h3
  exact h3

theorem carveFromTopChunk_zero (h : s.ar.topChunk = 0) :
    carveFromTopChunk s page p = (growHeap s page).bind fun s => carveTop s p := by
  simp only [carveFromTopChunk, h]
  rfl

theorem no_top (h : Inv E g ar m) (h0 : ar.topChunk = 0) (d : Nat) : g.kind d ≠ .top := by
  intro hd
  obtain ⟨z, hz⟩ := h.bins.home d (by simp [hd])
  have h1 := h.tiled.pos d _ hz
  have h2 := top_unique h hd
  omega

variable (h : Inv E g s.ar s.mem) (hm : E.marked = false) (hset : g.Settled) (htop : TopOk g s.ar)
  (hb : Backed E g s) (hg : Growth s.ar) (hp : p % 16 = 0 ∧ 32 ≤ p ∧ p < MMAP_THRESHOLD)

include h hm hset htop hb hg hp

theorem allocateFromTop_spec :
    (∀ v s', allocateFromTop s page p = some (v, s') → Allocated E g s s' page p v) ∧
      (Room s page → ∃ v s', allocateFromTop s page p = some (v, s')) := by
  by_cases h0 : s.ar.topChunk = 0
  · cases hs1 : growHeap s page with
    | none =>
      have hr : allocateFromTop s page p = none := by
        simp only [allocateFromTop, carveFromTopChunk_zero h0, hs1]
        rfl
      refine ⟨by simp [hr], fun hroom => ?_⟩
      obtain ⟨s', hs'⟩ := growHeap_some hg hroom
      simp [hs1] at hs'
    | some s1 =>
      obtain ⟨s', v, hr', ha⟩ := growAndCarve_spec h hm hset hb (no_top h h0) hg hp hs1
      have hr : allocateFromTop s page p = some (v, s') := by
        simp only [allocateFromTop, carveFromTopChunk_zero h0, hs1, hr', bind_some, bind_eq_bind]
        rw [if_pos ha.1]
        rfl
      refine ⟨?_, fun _ => ⟨v, s', hr⟩⟩
      intro v' s'' he
      cases hr.symm.trans he
      exact ha
  · have hk : g.kind s.ar.topChunk = .top := htop.resolve_left h0
    obtain ⟨y, hy, -⟩ := h.live_chunk (c := s.ar.topChunk) (by simp [hk])
    have hc : carveFromTopChunk s page p = carveTop s p := by
      rw [carveFromTopChunk, if_neg h0]
    rcases carveTop_spec h hm hset rfl hk hy ⟨hp.1, hp.2.1⟩ with ⟨hlt, hr'⟩ | ⟨hle, t, m', hr', hf⟩
    · have hsize := (h.words.own _ y hy).size (by simp [hk])
      obtain ⟨m1, g1, hm1, h1, hcell1, hkind1, -⟩ := insertIntoUnsortedbin_spec h hy (by simp [hk])
        (by simp [hk]) hsize
      have hno1 : ∀ d, g1.kind d ≠ .top := by
        intro d hd
        by_cases hdt : d = s.ar.topChunk
        · simp [hkind1, hdt] at hd
        · exact hdt (top_unique h (by simpa [hkind1, hdt] using hd))
      have hsh : Shuffled g g1 := shuffled_update hcell1 hkind1 (by simp [hk]) rfl
      have hset1 : g1.Settled := by
        intro d w hd
        rw [hcell1] at hd
        by_cases hdt : d = s.ar.topChunk
        · simp [hkind1, hdt]
        · simpa [hkind1, hdt] using hset d w hd
      have h2 := h1.setTop hno1 0
      have hb2 := hb.of_shuffled hsh { s.ar with topChunk := 0 } m1 rfl
      have hreq : allocateFromTop s page p = (growHeap { s with mem := m1, ar := { s.ar with topChunk := 0 } } page).bind
          fun s => carveTop s p := by
        simp only [allocateFromTop, hc, hr', bind_some, bind_eq_bind, hm1]
        exact carveFromTopChunk_zero (s := { s with mem := m1, ar := { s.ar with topChunk := 0 } }) rfl
      cases hs1 : growHeap { s with mem := m1, ar := { s.ar with topChunk := 0 } } page with
      | none =>
        rw [hs1] at hreq
        refine ⟨by simp [hreq], fun hroom => ?_⟩
        obtain ⟨s', hs'⟩ := growHeap_some (s := { s with mem := m1, ar := { s.ar with topChunk := 0 } }) hg hroom
        simp [hs1] at hs'
      | some s1 =>
        obtain ⟨s', v, hr'', ha⟩ := growAndCarve_spec (g := g1)
          (s := { s with mem := m1, ar := { s.ar with topChunk := 0 } }) h2 hm hset1 hb2 hno1 hg hp hs1
        rw [hs1, bind_some, hr''] at hreq
        refine ⟨?_, fun _ => ⟨v, s', hreq⟩⟩
        intro v' s'' he
        cases hreq.symm.trans he
        exact ha.of_shuffled hsh { s.ar with topChunk := 0 } rfl
    · have hr : allocateFromTop s page p =
          some (s.ar.topChunk, { s with mem := m', ar := { s.ar with topChunk := t } }) := by
        simp only [allocateFromTop, hc, hr', bind_some, bind_eq_bind]
        rw [if_pos h0]
        rfl
      refine ⟨?_, fun _ => ⟨_, _, hr⟩⟩
      intro v' s'' he
      cases hr.symm.trans he
      exact hf.allocated _ rfl hg

theorem allocateChunk_spec :
    (∀ v s', allocateChunk s page p = some (v, s') → Allocated E g s s' page p v) ∧
      (Room s page → ∃ v s', allocateChunk s page p = some (v, s')) := by
  have hp' : p % 16 = 0 ∧ 32 ≤ p := ⟨hp.1, hp.2.1⟩
  have hdone : ∀ v s', allocateChunk s page p = some (v, s') → Allocated E g s s' page p v →
      (∀ v s', allocateChunk s page p = some (v, s') → Allocated E g s s' page p v) ∧
        (Room s page → ∃ v s', allocateChunk s page p = some (v, s')) := by
    intro v s' he ha
    refine ⟨fun v' s'' he' => ?_, fun _ => ⟨v, s', he⟩⟩
    cases he.symm.trans he'
    exact ha
  have hfast : (if p ≤ 16 * FASTBINS_COUNT then fastbinSearch s p else (0, s)) = (0, s) ∨
      ∃ v f m', (if p ≤ 16 * FASTBINS_COUNT then fastbinSearch s p else (0, s)) =
        (v, { s with mem := m', ar := { s.ar with fastbins := f } }) ∧ Found E g p v { s.ar with fastbins := f } m' := by
    split_ifs
    · exact fastbinSearch_spec h hset htop hp'
    · exact .inl rfl
  rcases hfast with hfast | ⟨v, f, m', hfast, hfound⟩
  swap
  · refine hdone v { s with mem := m', ar := { s.ar with fastbins := f } } ?_ (hfound.allocated _ rfl hg)
    simp only [allocateChunk, hfast, bind_eq_bind]
    rw [if_pos hfound.1]
    rfl
  have hsmall : (if p < 16 * SMALLBINS_COUNT then smallbinSearch s.ar s.mem p else (0, s.mem)) = (0, s.mem) ∨
      ∃ v m', (if p < 16 * SMALLBINS_COUNT then smallbinSearch s.ar s.mem p else (0, s.mem)) = (v, m') ∧
        Found E g p v s.ar m' := by
    split_ifs
    · exact smallbinSearch_spec h hset htop hp'
    · exact .inl rfl
  rcases hsmall with hsmall | ⟨v, m', hsmall, hfound⟩
  swap
  · refine hdone v { s with mem := m' } ?_ (hfound.allocated s.ar rfl hg)
    simp only [allocateChunk, hfast, bind_eq_bind, hsmall]
    rw [if_neg (by simp), if_pos hfound.1]
    rfl
  rcases unsortedbinSearch_spec h hm hset htop hp' with
    ⟨m1, g1, hun, h1, hsh1, hset1, htop1, -⟩ | ⟨v, m', hun, hfound⟩
  swap
  · refine hdone v { s with mem := m' } ?_ (hfound.allocated s.ar rfl hg)
    simp only [allocateChunk, hfast, bind_eq_bind, hsmall, hun, bind_some]
    rw [if_neg (by simp), if_neg (by simp), if_pos hfound.1]
    rfl
  rcases largebinSearch_spec h1 hm hset1 htop1 hp' with hlarge | ⟨v, m', hlarge, hfound⟩
  swap
  · refine hdone v { s with mem := m' } ?_ ((hfound.of_shuffled hsh1).allocated s.ar rfl hg)
    simp only [allocateChunk, hfast, bind_eq_bind, hsmall, hun, bind_some, hlarge]
    rw [if_neg (by simp), if_neg (by simp), if_neg (by simp), if_pos hfound.1]
    rfl
  have hrest : allocateChunk s page p = allocateFromTop { s with mem := m1 } page p := by
    simp only [allocateChunk, hfast, bind_eq_bind, hsmall, hun, bind_some, hlarge]
    simp
  obtain ⟨h₁, h₂⟩ := allocateFromTop_spec (s := { s with mem := m1 }) h1 hm hset1 htop1
    (hb.of_shuffled hsh1 s.ar m1 rfl) hg hp
  rw [hrest]
  exact ⟨fun v s' he => (h₁ v s' he).of_shuffled hsh1 s.ar rfl, h₂⟩

end Picasso.Alloc.Invariant
