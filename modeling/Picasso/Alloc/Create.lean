import Picasso.Alloc.Blocks

namespace Picasso.Alloc.Invariant

open Chunk Allocator Layout Function Bin

variable {m : Mem} {c n : Nat} {b : Bool}

variable {a i base block page : Nat}

theorem initSentinels_outside (h : a < c ∨ c + 48 * n ≤ a) : initSentinels m c b n a = m a := by
  induction n with
  | zero => rfl
  | succ n ih =>
    have ih := ih (by omega)
    simp only [initSentinels, setFdbkTo, setNextprevSizeptrTo, SIZEOF_FREE_CHUNK]
    rw [set_of_ne (by omega)]
    cases b
    · simp only [Bool.false_eq_true, if_false]
      rw [set_of_ne, set_of_ne, ih] <;> omega
    · simp only [if_true]
      rw [set_of_ne, set_of_ne, set_of_ne, set_of_ne, ih] <;> omega

theorem initSentinels_links (hi : i < n) : let m' := initSentinels m c b n
    let fc := c + 48 * i
    (m' (fc + 16) = fc ∧ m' (fc + 24) = fc) ∧ (b = true → m' (fc + 32) = fc ∧ m' (fc + 40) = fc) := by
  induction n with
  | zero => omega
  | succ n ih =>
    by_cases hin : i = n
    · subst hin
      simp only [initSentinels, setFdbkTo, setNextprevSizeptrTo, SIZEOF_FREE_CHUNK]
      cases b
      · simp [Mem.set]
      · simp [Mem.set]
    · have ih := ih (by omega)
      have hout : ∀ o, o < 48 → initSentinels m c b (n + 1) (c + 48 * i + o) =
          initSentinels m c b n (c + 48 * i + o) := by
        intro o ho
        simp only [initSentinels, setFdbkTo, setNextprevSizeptrTo, SIZEOF_FREE_CHUNK]
        rw [set_of_ne (by omega)]
        cases b
        · simp only [Bool.false_eq_true, if_false]
          rw [set_of_ne, set_of_ne] <;> omega
        · simp only [if_true]
          rw [set_of_ne, set_of_ne, set_of_ne, set_of_ne] <;> omega
      dsimp only at ih ⊢
      rw [hout 16 (by omega), hout 24 (by omega), hout 32 (by omega), hout 40 (by omega)]
      exact ih

/-- The heads of the bins, 32 small ones, 64 large ones and the unsorted one, from `base` on. -/
def heads (base : Nat) : Ghost where
  cell a := if base ≤ a ∧ (a - base) % 48 = 0 ∧ (a - base) / 48 < 97 then some .sentinel else none
  kind _ := .loose
  ring _ := []
  order _ := []
  fast _ := []

theorem heads_cell {x : Cell} (h : (heads base).cell a = some x) : x = .sentinel ∧ ∃ i, i < 97 ∧ a = base + 48 * i := by
  simp only [heads] at h
  split_ifs at h with hc
  cases h
  exact ⟨rfl, (a - base) / 48, hc.2.2, by omega⟩

theorem heads_sentinel (hi : i < 97) : (heads base).cell (base + 48 * i) = some .sentinel := by
  simp only [heads]
  rw [if_pos (by omega)]

structure Prepared (base : Nat) (ar : Arena) (m : Mem) : Prop where
  pos : 0 < base
  unsorted : ar.unsortedbin = base + 48 * 96
  small : ∀ i, ar.smallbins i = base + 48 * i
  large : ∀ i, ar.largebins i = base + 48 * (32 + i)
  heaps : ar.allocedHeaps = []
  fast : ∀ i, ar.fastbins i = 0
  links : ∀ i, i < 97 → m (base + 48 * i + 16) = base + 48 * i ∧ m (base + 48 * i + 24) = base + 48 * i
  sorted : ∀ i, i < 64 → m (base + 48 * (32 + i) + 32) = base + 48 * (32 + i) ∧
    m (base + 48 * (32 + i) + 40) = base + 48 * (32 + i)

def Bin.index : Bin → Nat
  | .small i => i
  | .large i => 32 + i
  | .unsorted => 96

theorem Bin.index_lt {b : Bin} (hv : b.Valid) : b.index < 97 := by
  cases b with
  | unsorted => simp [index]
  | small i =>
    have : i < 32 := hv
    simp only [index]
    omega
  | large i =>
    have : i < 64 := hv
    simp only [index]
    omega

theorem Bin.index_inj {b b' : Bin} (hv : b.Valid) (hv' : b'.Valid) (h : b.index = b'.index) : b = b' := by
  have hs : ∀ i, (small i).Valid → i < 32 := fun _ h => h
  have hl : ∀ i, (large i).Valid → i < 64 := fun _ h => h
  cases b <;> cases b' <;> simp only [index] at h <;> grind

theorem Prepared.head {ar : Arena} (h : Prepared base ar m) (b : Bin) : b.head ar = base + 48 * b.index := by
  cases b with
  | unsorted => exact h.unsorted
  | small i => exact h.small i
  | large i => exact h.large i

theorem Prepared.inv {ar : Arena} {E : Env} (h : Prepared base ar m) (hframe : ∀ a, E.keep a → m a = E.before a)
    (hspare : ∀ a, base ≤ a → a < base + 48 * 97 → ¬ E.keep a) : Inv E (heads base) ar m := by
  constructor
  · constructor
    · intro c x hc
      obtain ⟨-, i, -, rfl⟩ := heads_cell hc
      have := h.pos
      omega
    · intro c z hc
      cases (heads_cell hc).1
    · intro c z hc
      cases (heads_cell hc).1
    · intro c d x y hc hd hlt
      obtain ⟨rfl, i, -, rfl⟩ := heads_cell hc
      obtain ⟨rfl, j, -, rfl⟩ := heads_cell hd
      simp only [Cell.extent_sentinel]
      omega
    · intro c z hc
      cases (heads_cell hc).1
    · intro c y hc hin
      obtain ⟨rfl, -⟩ := heads_cell hc
      simp at hin
    · simp [h.heaps]
    · intro c z hc
      cases (heads_cell hc).1
    · intro c hc
      cases (heads_cell hc).1
    · simp [h.heaps]
  · constructor
    · simp [heads]
    · simp [heads]
    · simp [heads]
    · simp [heads]
    · simp [heads]
    · simp [heads]
    · simp [heads]
    · intro c z hc
      cases (heads_cell hc).1
    · simp [heads]
    · intro b hv
      rw [h.head]
      exact heads_sentinel (index_lt hv)
    · intro b b' hv hv' he
      rw [h.head, h.head] at he
      exact index_inj hv hv' (by omega)
    · simp [heads]
  · constructor
    · intro c z hc
      cases (heads_cell hc).1
    · intro c z hc
      cases (heads_cell hc).1
    · simp [h.heaps]
    · intro c hc
      cases (heads_cell hc).1
    · intro c z hc
      cases (heads_cell hc).1
    · simp [heads, Kind.flat]
  · constructor
    · intro b hv
      rw [h.head]
      exact h.links _ (index_lt hv)
    · intro i hi
      have := h.sorted i hi
      rw [h.large]
      exact this
    · intro i _
      exact h.fast i
  · refine ⟨hframe, ?_, by simp [heads], by simp [heads]⟩
    intro c x o hc ho _
    obtain ⟨rfl, i, hi, rfl⟩ := heads_cell hc
    simp only [Cell.extent_sentinel] at ho
    exact hspare _ (by omega) (by omega)

structure Created (rs : List (Nat × Nat)) (s : State) (g : Ghost) (block page : Nat) : Prop where
  blockFresh : Fresh rs block 8192
  pageFresh : Fresh ((block, 8192) :: rs) page (HEAP_BASE_SIZE + 48)
  mapped : s.mapped = (page, HEAP_BASE_SIZE + 48) :: (block, 8192) :: rs
  heaps : s.ar.allocedHeaps = [(page, page + 16 + HEAP_BASE_SIZE)]
  growth : Growth s.ar
  settled : g.Settled
  top : TopOk g s.ar
  idle : ∀ c, (g.kind c).busy = false
  block : ∀ c z, g.cell c ≠ some (.block z)
  owned : ∀ a, g.Owned a → Newly rs s.mapped a

theorem Created.of_grown {rs : List (Nat × Nat)} {s s1 : State} (hf : Fresh rs block 8192)
    (hs1 : s1.mapped = (block, 8192) :: rs) (hh : s1.ar.allocedHeaps = []) (hG : Grown s1 s page HEAP_BASE_SIZE) :
    Created rs s ((heads (block + 3448)).grow page HEAP_BASE_SIZE) block page := by
  have hne : page ≠ page + 16 + HEAP_BASE_SIZE := by omega
  have hlook : ∀ c x, ((heads (block + 3448)).grow page HEAP_BASE_SIZE).cell c = some x →
      (c = page ∧ x = .chunk HEAP_BASE_SIZE) ∨ (c = page + 16 + HEAP_BASE_SIZE ∧ x = .bound) ∨
        (x = .sentinel ∧ block ≤ c ∧ c + 48 ≤ block + 8192) := by
    intro c x hc
    by_cases h1 : c = page + 16 + HEAP_BASE_SIZE
    · rw [h1] at hc
      simp only [Ghost.grow, update_self, Option.some.injEq] at hc
      exact .inr (.inl ⟨h1, hc.symm⟩)
    · by_cases h2 : c = page
      · rw [h2] at hc
        simp only [Ghost.grow, update_of_ne hne, update_self, Option.some.injEq] at hc
        exact .inl ⟨h2, hc.symm⟩
      · simp only [Ghost.grow, update_of_ne h1, update_of_ne h2] at hc
        obtain ⟨rfl, i, hi, rfl⟩ := heads_cell hc
        exact .inr (.inr ⟨rfl, by omega, by omega⟩)
  have hkind : ((heads (block + 3448)).grow page HEAP_BASE_SIZE).kind page = .top := by simp [Ghost.grow]
  have hmapped : s.mapped = (page, HEAP_BASE_SIZE + 48) :: (block, 8192) :: rs := by rw [hG.mapped, hs1]
  have hfresh : Fresh ((block, 8192) :: rs) page (HEAP_BASE_SIZE + 48) := hs1 ▸ hG.fresh
  refine ⟨hf, hfresh, hmapped, by rw [hG.heaps, hh]; rfl, hG.growth, ?_, ?_, ?_, ?_, ?_⟩
  · intro c z hc
    rcases hlook c _ hc with ⟨rfl, -⟩ | ⟨-, he⟩ | ⟨he, -⟩
    · simp [hkind, Kind.settled]
    · cases he
    · cases he
  · right
    rw [hG.top]
    exact hkind
  · intro c
    by_cases hc : c = page
    · simp [hc, hkind, Kind.busy]
    · simp [Ghost.grow, hc, heads, Kind.busy]
  · intro c z hc
    rcases hlook c _ hc with ⟨-, he⟩ | ⟨-, he⟩ | ⟨he, -⟩ <;> cases he
  · rintro a ⟨c, x, hc, hle, hlt⟩
    rw [hmapped]
    have hpage : page ≤ a → a < page + (HEAP_BASE_SIZE + 48) →
        Newly rs ((page, HEAP_BASE_SIZE + 48) :: (block, 8192) :: rs) a := by
      intro h1 h2
      refine ⟨⟨_, List.mem_cons_self, h1, h2⟩, fun hw => not_within_of_fresh hfresh h1 h2 ?_⟩
      obtain ⟨r, hr, h⟩ := hw
      exact ⟨r, List.mem_cons_of_mem _ hr, h⟩
    rcases hlook c x hc with ⟨rfl, rfl⟩ | ⟨rfl, rfl⟩ | ⟨rfl, h1, h2⟩
    · simp only [Cell.extent_chunk] at hlt
      exact hpage (by omega) (by omega)
    · simp only [Cell.extent_bound] at hlt
      exact hpage (by omega) (by omega)
    · simp only [Cell.extent_sentinel] at hlt
      refine ⟨⟨(block, 8192), by simp, by dsimp only; omega, by dsimp only; omega⟩, ?_⟩
      exact not_within_of_fresh hf (by omega) (by omega)

def initBins (m : Mem) (base : Nat) : Mem :=
  initSentinels (initSentinels (initSentinels m base false 32) (base + 48 * 32) true 64) (base + 48 * 96) false 1

theorem initBins_outside (h : a < base ∨ base + 48 * 97 ≤ a) : initBins m base a = m a := by
  unfold initBins
  rw [initSentinels_outside, initSentinels_outside, initSentinels_outside] <;> omega

theorem initBins_links (hi : i < 97) :
    initBins m base (base + 48 * i + 16) = base + 48 * i ∧ initBins m base (base + 48 * i + 24) = base + 48 * i := by
  unfold initBins
  by_cases h1 : i < 32
  · obtain ⟨⟨h16, h24⟩, -⟩ := initSentinels_links (m := m) (c := base) (b := false) h1
    constructor
    · rw [initSentinels_outside, initSentinels_outside, h16] <;> omega
    · rw [initSentinels_outside, initSentinels_outside, h24] <;> omega
  · by_cases h2 : i < 96
    · obtain ⟨⟨h16, h24⟩, -⟩ := initSentinels_links (m := initSentinels m base false 32) (c := base + 48 * 32)
        (b := true) (n := 64) (i := i - 32) (by omega)
      rw [show base + 48 * 32 + 48 * (i - 32) = base + 48 * i by omega] at h16 h24
      constructor
      · rw [initSentinels_outside (by omega), h16]
      · rw [initSentinels_outside (by omega), h24]
    · obtain rfl : i = 96 := by omega
      exact (initSentinels_links (n := 1) (i := 0) (by omega)).1

theorem initBins_sorted (hi : i < 64) : initBins m base (base + 48 * (32 + i) + 32) = base + 48 * (32 + i) ∧
      initBins m base (base + 48 * (32 + i) + 40) = base + 48 * (32 + i) := by
  obtain ⟨-, h⟩ := initSentinels_links (m := initSentinels m base false 32) (c := base + 48 * 32)
    (b := true) hi
  obtain ⟨h32, h40⟩ := h rfl
  unfold initBins
  rw [show base + 48 * 32 + 48 * i = base + 48 * (32 + i) by omega] at h32 h40
  constructor
  · rw [initSentinels_outside (by omega), h32]
  · rw [initSentinels_outside (by omega), h40]

theorem arenaCreate_spec {mem : Mem} {rs unmapped : List (Nat × Nat)} {s : State} {E : Env}
    (h : arenaCreate mem rs unmapped block page = some s) (hm : E.marked = false) (hkeep : ∀ a, E.keep a → Within rs a)
    (hmem : ∀ a, E.keep a → mem a = E.before a) :
    s.unmapped = unmapped ∧ ∃ g, Inv E g s.ar s.mem ∧ Created rs s g block page := by
  simp only [arenaCreate, Option.bind_eq_bind, Option.bind_eq_some_iff] at h
  obtain ⟨s0, hs0, hgrow⟩ := h
  obtain ⟨hfresh, rfl⟩ := allocMemory_eq.mp hs0
  have hsize : alignPage (SIZEOF_ARENA + SMALLBINS_COUNT * SIZEOF_FREE_CHUNK + LARGEBINS_COUNT * SIZEOF_FREE_CHUNK +
      SIZEOF_FREE_CHUNK) = 8192 := by decide
  rw [hsize] at hfresh hgrow
  dsimp only at hfresh hgrow
  generalize hs1 : State.mk _ _ _ _ = s1 at hgrow
  obtain ⟨-, hG⟩ := growHeap_grown (by rw [← hs1]; exact Nat.zero_le _) hgrow
  have hz : nextHeapSize s1.ar = HEAP_BASE_SIZE := by
    rw [← hs1]
    rfl
  rw [hz] at hG
  have hmem1 : s1.mem = initBins (fun a => if block ≤ a ∧ a < block + 8192 then 0 else mem a) (block + 3448) := by
    rw [← hs1]
    rfl
  have hprep : Prepared (block + 3448) s1.ar s1.mem := by
    refine ⟨by omega, ?_, ?_, ?_, ?_, ?_, ?_, ?_⟩
    · rw [← hs1]
      simp [SIZEOF_ARENA, SMALLBINS_COUNT, LARGEBINS_COUNT, SIZEOF_FREE_CHUNK]
    · rw [← hs1]
      simp [SIZEOF_ARENA, SIZEOF_FREE_CHUNK]
    · intro i
      rw [← hs1]
      simp only [SIZEOF_ARENA, SMALLBINS_COUNT, SIZEOF_FREE_CHUNK]
      omega
    · rw [← hs1]
    · rw [← hs1]
      simp
    · intro i hi
      rw [hmem1]
      exact initBins_links hi
    · intro i hi
      rw [hmem1]
      exact initBins_sorted hi
  have hmapped1 : s1.mapped = (block, 8192) :: rs := by rw [← hs1]
  have hout : ∀ a, E.keep a → ¬ (block ≤ a ∧ a < block + 8192) := by
    intro a ha hin
    exact not_within_of_fresh hfresh hin.1 hin.2 (hkeep a ha)
  have h1 : Inv E (heads (block + 3448)) s1.ar s1.mem := by
    apply hprep.inv
    · intro a ha
      have := hout a ha
      rw [hmem1, initBins_outside (by omega), if_neg this]
      exact hmem a ha
    · intro a h₁ h₂ ha
      exact hout a ha ⟨by omega, by omega⟩
  have hb1 : Backed E (heads (block + 3448)) s1 := by
    refine ⟨?_, ?_, ?_⟩
    · rintro a ⟨c, x, hc, hle, hlt⟩
      obtain ⟨rfl, i, hi, rfl⟩ := heads_cell hc
      simp only [Cell.extent_sentinel] at hlt
      exact ⟨(block, 8192), by simp [hmapped1], by dsimp only; omega, by dsimp only; omega⟩
    · rw [← hs1]
      simp
    · intro a ha
      obtain ⟨r, hr, h⟩ := hkeep a ha
      exact ⟨r, by simp [hmapped1, hr], h⟩
  refine ⟨by rw [hG.unmapped, ← hs1], _, hG.inv h1 hm hb1 (by simp [heads]) (by decide), ?_⟩
  exact Created.of_grown hfresh hmapped1 (by rw [← hs1]) hG

end Picasso.Alloc.Invariant
