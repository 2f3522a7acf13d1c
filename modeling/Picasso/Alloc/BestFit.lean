import Picasso.Alloc.Tiling

namespace Picasso.Alloc.BestFit

open Chunk Allocator Layout Arenas Custody Lib.Transition Lib.Ring Option
open Invariant hiding Inv

variable {strict : Bool} {w : World} {G : Nat → Ghost} {h : Holding} {i n page p : Nat} {s : State} {E : Env} {g : Ghost}
  {ar : Arena} {m : Mem}

def largeChunks (m : Mem) (ar : Arena) (i : Nat) : Option (List Nat) :=
  follow (nextSizeptr m) (ar.largebins i) (fuel ar) (nextSizeptr m (ar.largebins i))

def unsortedChunks (m : Mem) (ar : Arena) : Option (List Nat) :=
  follow (fd m) ar.unsortedbin (fuel ar) (fd m ar.unsortedbin)

def InLarge (m : Mem) (ar : Arena) (c : Nat) : Prop :=
  ∃ i l, i < LARGEBINS_COUNT ∧ largeChunks m ar i = some l ∧ c ∈ l

def InUnsorted (m : Mem) (ar : Arena) (c : Nat) : Prop := ∃ l, unsortedChunks m ar = some l ∧ c ∈ l

/-- The smallest chunk of all large bins with `n` bytes or more, or 0 where there is none. -/
def Best (m : Mem) (ar : Arena) (n v : Nat) : Prop :=
  if v = 0 then ∀ c, InLarge m ar c → getSize m c < n
  else InLarge m ar v ∧ n ≤ getSize m v ∧ ∀ c, InLarge m ar c → n ≤ getSize m c → getSize m v ≤ getSize m c

theorem getLargebinIndex_mono {x y i j : Nat} (hx : getLargebinIndex x = some i) (hy : getLargebinIndex y = some j)
    (hxy : x ≤ y) : i ≤ j := by
  have hlog : x ≠ 0 → x.log2 ≤ y.log2 := by
    intro h0
    rw [Nat.le_log2 (by omega)]
    exact Nat.le_trans (Nat.log2_self_le h0) hxy
  unfold getLargebinIndex at hx hy
  split_ifs at hx hy
  all_goals
    simp only [Option.some.injEq] at hx hy
    omega

section Lists

variable (hI : Invariant.Inv E g ar m)

include hI

theorem largeChunks_eq (hi : i < LARGEBINS_COUNT) : largeChunks m ar i = some (g.order i) :=
  (hI.links.order i hi).follow (List.nodup_cons.mp (hI.order_nodup hi)).1 (hI.order_lt_fuel hi)

theorem unsortedChunks_eq : unsortedChunks m ar = some (g.ring .unsorted) := by
  refine (hI.links.ring .unsorted trivial).follow (List.nodup_cons.mp (hI.ring_nodup (b := .unsorted) trivial)).1 ?_
  refine length_lt_fuel hI (hI.bins.ringNodup _) fun a ha => ?_
  simp [(hI.bins.ring _ a).mp ha]

theorem inLarge_iff {c : Nat} : InLarge m ar c ↔ ∃ i, i < LARGEBINS_COUNT ∧ c ∈ g.order i := by
  constructor
  · rintro ⟨i, l, hi, hl, hc⟩
    cases hl.symm.trans (largeChunks_eq hI hi)
    exact ⟨i, hi, hc⟩
  · rintro ⟨i, hi, hc⟩
    exact ⟨i, _, hi, largeChunks_eq hI hi, hc⟩

theorem order_size {c : Nat} (hc : c ∈ g.order i) :
    ∃ z, g.cell c = some (.chunk z) ∧ getSize m c = z ∧ getLargebinIndex z = some i := by
  obtain ⟨z, hz, -⟩ := hI.live_chunk (c := c) (by rcases (hI.bins.order i c).mp hc with hk | hk <;> simp [hk])
  have hfits := hI.bins.fits c z hz
  refine ⟨z, hz, (hI.words.own c z hz).size ?_, ?_⟩ <;>
    rcases (hI.bins.order i c).mp hc with hk | hk <;> simp_all [Kind.sized, Kind.Fits]

theorem order_sorted (i : Nat) : (g.order i).Pairwise fun a b => getSize m a ≤ getSize m b := by
  refine (hI.bins.sorted i).imp_of_mem fun ha hb hab => ?_
  obtain ⟨x, hx, hsx, -⟩ := order_size hI ha
  obtain ⟨y, hy, hsy, -⟩ := order_size hI hb
  rw [hsx, hsy]
  exact hab x y hx hy

end Lists

theorem insertIntoUnsortedbin_returns {fc : Nat} (hs : 0 < getSize m fc) : ∃ m', insertIntoUnsortedbin ar m fc = some m' := by
  have h1 : getSize (unsetCurrInuse m fc) fc = getSize m fc := by simp [getSize, unsetCurrInuse, size]
  have h2 : getSize (unsetPrevInuse (unsetCurrInuse m fc) (nextChunk (unsetCurrInuse m fc) fc)) fc = getSize m fc := by
    rw [← h1, getSize, size, unsetPrevInuse, set_of_ne (by rw [nextChunk, HEADER_SIZE, h1]; omega)]
    rfl
  simp only [insertIntoUnsortedbin, h2, setPrevSize, if_neg (Nat.ne_of_gt hs), bind_eq_bind, bind_some]
  exact ⟨_, rfl⟩

theorem handOut_returns (ar : Arena) (m : Mem) (c p : Nat) : ∃ m', handOut ar m c p = some m' := by
  unfold handOut
  dsimp only
  by_cases hrem : MIN_PAYLOAD_SIZE + HEADER_SIZE ≤ getSize m c - p
  · rw [if_pos hrem]
    simp only [MIN_PAYLOAD_SIZE, HEADER_SIZE] at hrem
    obtain ⟨m1, hm1, hs1⟩ : ∃ m1, makeRemainder m c p (getSize m c - p) = some m1 ∧
        0 < getSize m1 (c + HEADER_SIZE + p) := by
      generalize getSize m c - p = r at hrem
      simp only [makeRemainder, setPrevSize]
      rw [if_neg (by simp only [HEADER_SIZE]; omega)]
      refine ⟨_, rfl, ?_⟩
      have hsz : 0 < sizeBits (r - HEADER_SIZE + PREV_IN_USE) := by
        simp only [sizeBits, HEADER_SIZE, PREV_IN_USE]
        omega
      rw [getSize, size, set_of_ne (by simp only [nextChunk, HEADER_SIZE]; omega), setSize, set_self]
      exact hsz
    obtain ⟨m2, hm2⟩ := insertIntoUnsortedbin_returns hs1
    exact ⟨_, by rw [hm1, bind_eq_bind, bind_some, hm2]; rfl⟩
  · rw [if_neg hrem]
    exact ⟨_, rfl⟩

theorem searchLargebins_choice (hI : Invariant.Inv E g ar m) (p : Nat) {k : Nat} (hi : i + k ≤ LARGEBINS_COUNT) :
    ∃ v m', searchLargebins ar m p k i = some (v, m') ∧
      ((v = 0 ∧ ∀ j, i ≤ j → j < i + k → ∀ a ∈ g.order j, getSize m a < p) ∨
        ∃ j l1 l2, i ≤ j ∧ j < i + k ∧ g.order j = l1 ++ v :: l2 ∧ p ≤ getSize m v ∧ (∀ a ∈ l1, getSize m a < p) ∧
          ∀ j', i ≤ j' → j' < j → ∀ a ∈ g.order j', getSize m a < p) := by
  induction k generalizing i with
  | zero => exact ⟨0, m, rfl, .inl ⟨rfl, fun j h1 h2 => by omega⟩⟩
  | succ k ih =>
    rw [searchLargebins]
    rcases findFit_order hI (show i < LARGEBINS_COUNT by omega) p with ⟨hnone, hall⟩ | ⟨c, l1, l2, hl, hsome, hle, hlow⟩
    · obtain ⟨v, m', hr, hv⟩ := ih (i := i + 1) (by omega)
      have hhere : ∀ j, i ≤ j → (i + 1 ≤ j → ∀ a ∈ g.order j, getSize m a < p) → ∀ a ∈ g.order j, getSize m a < p := by
        intro j hij hj
        rcases Nat.eq_or_lt_of_le hij with rfl | hlt
        · exact hall
        · exact hj hlt
      refine ⟨v, m', by rw [hnone]; exact hr, ?_⟩
      rcases hv with ⟨rfl, hsmall⟩ | ⟨j, l1, l2, h1, h2, hl, hle, hlow, hbefore⟩
      · exact .inl ⟨rfl, fun j h1 h2 => hhere j h1 fun h3 => hsmall j h3 (by omega)⟩
      · exact .inr ⟨j, l1, l2, by omega, by omega, hl, hle, hlow,
          fun j' h3 h4 => hhere j' h3 fun h5 => hbefore j' h5 h4⟩
    · obtain ⟨m', hm'⟩ := handOut_returns ar (unlinkChunkFromSortedlist (unlinkChunkFromFdlist m c) c) c p
      refine ⟨c, m', ?_, .inr ⟨i, l1, l2, Nat.le_refl i, by omega, hl, hle, hlow, fun j' h1 h2 => by omega⟩⟩
      rw [hsome]
      simp [hm']

theorem largebinSearch_best (hI : Invariant.Inv E g ar m) (hn : 512 ≤ n) :
    ∃ v m', largebinSearch ar m n = some (v, m') ∧ Best m ar n v := by
  obtain ⟨i, hi⟩ := getLargebinIndex_of_le hn
  have hlt := getLargebinIndex_lt hi
  obtain ⟨v, m', hr, hv⟩ := searchLargebins_choice hI n (i := i) (k := LARGEBINS_COUNT - i) (by omega)
  refine ⟨v, m', by rw [largebinSearch, hi]; exact hr, ?_⟩
  -- a chunk that is large enough is not in a bin in front of that of the request
  have hlarge : ∀ c, InLarge m ar c → n ≤ getSize m c → ∃ j, i ≤ j ∧ j < LARGEBINS_COUNT ∧ c ∈ g.order j := by
    intro c hc hle
    obtain ⟨j, hj, hc⟩ := (inLarge_iff hI).mp hc
    obtain ⟨z, -, hz, hidx⟩ := order_size hI hc
    exact ⟨j, getLargebinIndex_mono hi hidx (by omega), hj, hc⟩
  rcases hv with ⟨rfl, hsmall⟩ | ⟨j, l1, l2, h1, h2, hl, hle, hlow, hbefore⟩
  · rw [Best, if_pos rfl]
    intro c hc
    by_contra hle
    obtain ⟨j, hij, hj, hc⟩ := hlarge c hc (by omega)
    exact hle (hsmall j hij (by omega) c hc)
  · have hv : v ∈ g.order j := by simp [hl]
    obtain ⟨x, hx, hsx, hidx⟩ := order_size hI hv
    have hv0 : v ≠ 0 := Nat.ne_of_gt (hI.tiled.pos v _ hx)
    rw [Best, if_neg hv0]
    refine ⟨(inLarge_iff hI).mpr ⟨j, by omega, hv⟩, hle, fun c hc hlec => ?_⟩
    obtain ⟨j', hij', hj', hc⟩ := hlarge c hc hlec
    obtain ⟨y, hy, hsy, hidy⟩ := order_size hI hc
    rcases Nat.lt_trichotomy j' j with hlt' | rfl | hgt
    · have := hbefore j' hij' hlt' c hc
      omega
    · rw [hl, List.mem_append, List.mem_cons] at hc
      rcases hc with hc | rfl | hc
      · have := hlow c hc
        omega
      · exact Nat.le_refl _
      · have hs := order_sorted hI j'
        rw [hl, List.pairwise_append] at hs
        exact (List.pairwise_cons.mp hs.2.1).1 c hc
    · by_contra hno
      have := getLargebinIndex_mono hidy hidx (by omega)
      omega

def Waiting (m : Mem) (ar : Arena) (n : Nat) : Prop := ∃ c, (InUnsorted m ar c ∨ InLarge m ar c) ∧ n ≤ getSize m c

theorem allocateChunk_fit (hI : Invariant.Inv E g s.ar s.mem) (hm : E.marked = false) (hset : g.Settled) (htop : TopOk g s.ar)
    (hp : p % 16 = 0 ∧ 512 ≤ p) (hwait : Waiting s.mem s.ar p) (page : Nat) :
    ∃ v m', allocateChunk s page p = some (v, { s with mem := m' }) := by
  simp only [allocateChunk, if_neg (show ¬ p ≤ 16 * FASTBINS_COUNT by unfold FASTBINS_COUNT; omega),
    if_neg (show ¬ p < 16 * SMALLBINS_COUNT by unfold SMALLBINS_COUNT; omega), bind_eq_bind]
  rcases unsortedbinSearch_spec hI hm hset htop ⟨hp.1, by omega⟩ with
    ⟨m1, g1, hun, h1, hsh1, hset1, htop1, hpass⟩ | ⟨u, m', hun, hfound⟩
  · -- the chunk is in a large bin, and is there still
    obtain ⟨c, hc, hle⟩ := hwait
    obtain ⟨v1, m₁, hlarge, hbest⟩ := largebinSearch_best h1 hp.2
    have hv1 : v1 ≠ 0 := by
      rintro rfl
      rw [Best, if_pos rfl] at hbest
      rcases hc with ⟨l, hl, hc⟩ | hc
      · cases hl.symm.trans (unsortedChunks_eq hI)
        have hk := (hI.bins.ring _ c).mp hc
        obtain ⟨z, hz, -⟩ := hI.live_chunk (c := c) (by simp [hk])
        have hsize : getSize s.mem c = z := (hI.words.own c z hz).size (by simp [hk, Kind.sized])
        have := hpass.1 c z hk hz
        omega
      · obtain ⟨j, hj, hc⟩ := (inLarge_iff hI).mp hc
        obtain ⟨z, hz, hsize, -⟩ := order_size hI hc
        have hk : g.kind c = .binned (.large j) := by
          rcases (hI.bins.order j c).mp hc with hk | hk
          · exact hk
          · have := hset c z hz
            simp [hk, Kind.settled] at this
        have hc1 : c ∈ g1.order j := (h1.bins.order j c).mpr (.inl (hpass.2 c j hk))
        obtain ⟨z', hz', hsize', -⟩ := order_size h1 hc1
        rw [hsh1.cell, hz, Option.some.injEq, Cell.chunk.injEq] at hz'
        have := hbest c ((inLarge_iff h1).mpr ⟨j, hj, hc1⟩)
        omega
    refine ⟨v1, m₁, ?_⟩
    simp only [hun, bind_some, hlarge]
    rw [if_neg (by simp), if_neg (by simp), if_neg (by simp), if_pos hv1]
    rfl
  · refine ⟨u, m', ?_⟩
    simp only [hun, bind_some]
    rw [if_neg (by simp), if_neg (by simp), if_pos hfound.1]
    rfl

theorem payloadSize_of_large (hn : 512 ≤ n) (hbig : n < MMAP_THRESHOLD) : n ≤ payloadSize n ∧ payloadSize n < n + 16 := by
  unfold MMAP_THRESHOLD at hbig
  unfold payloadSize align16 MIN_PAYLOAD_SIZE
  rw [Nat.mod_eq_of_lt (by omega)]
  omega

theorem waiting_payload (hI : Invariant.Inv E g ar m) (hn : 512 ≤ n) (hbig : n < MMAP_THRESHOLD) (hwait : Waiting m ar n) :
    Waiting m ar (payloadSize n) := by
  obtain ⟨c, hc, hle⟩ := hwait
  refine ⟨c, hc, ?_⟩
  obtain ⟨z, hz, hsize⟩ : ∃ z, g.cell c = some (.chunk z) ∧ getSize m c = z := by
    rcases hc with ⟨l, hl, hc⟩ | hc
    · cases hl.symm.trans (unsortedChunks_eq hI)
      have hk := (hI.bins.ring _ c).mp hc
      obtain ⟨z, hz, -⟩ := hI.live_chunk (c := c) (by simp [hk])
      exact ⟨z, hz, (hI.words.own c z hz).size (by simp [hk, Kind.sized])⟩
    · obtain ⟨j, -, hc⟩ := (inLarge_iff hI).mp hc
      obtain ⟨z, hz, hsize, -⟩ := order_size hI hc
      exact ⟨z, hz, hsize⟩
  have h16 := (hI.tiled.chunk c z hz).2.1
  have hb := (payloadSize_bounds n).1
  have hp := payloadSize_of_large hn hbig
  omega

theorem top_end (hw : Sound strict w G) (hi : w.arenas[i]? = some h) (h0 : h.ar.topChunk ≠ 0) :
    ∃ a e, (a, e) ∈ h.ar.allocedHeaps ∧ a ≤ h.ar.topChunk ∧ h.ar.topChunk + 16 + getSize w.mem h.ar.topChunk = e := by
  have hk := hw.kempt i h hi
  have ht : (G i).kind h.ar.topChunk = .top := (hw.top i h hi).resolve_left h0
  obtain ⟨z, hz⟩ := hk.inv.bins.home h.ar.topChunk (by simp [ht])
  have hsize : getSize w.mem h.ar.topChunk = z := (hk.inv.words.own _ z hz).size (by simp [ht, Kind.sized])
  obtain ⟨a, hae⟩ := hk.inv.tiled.fence _ (hk.inv.bins.top _ z ht hz).2
  obtain ⟨a', e', hae', ha', he'⟩ := hk.inv.tiled.inside _ z hz
  have hlt := (hk.inv.tiled.heap a _ hae).1
  have := hk.inv.tiled.heap_unique hae hae' (a := h.ar.topChunk + 16 + z) ⟨by omega, Nat.le_refl _⟩ ⟨by omega, by omega⟩
  cases this
  exact ⟨a, _, hae, ha', by rw [hsize]⟩

/-- The top chunk is where it was and as large as it was, and is not what has been handed out. -/
def TopKept (m : Mem) (ar : Arena) (p : Nat) (s : State) : Prop :=
  s.ar = ar ∧ (ar.topChunk ≠ 0 → p ≠ ar.topChunk + HEADER_SIZE ∧ getSize s.mem ar.topChunk = getSize m ar.topChunk)

theorem topKept_of_ar (hw : Sound false w G) (hi : w.arenas[i]? = some h) (ha : allocate (w.state h) page n = some (p, s))
    (hp : p ≠ 0) (har : s.ar = h.ar) : TopKept w.mem h.ar p s := by
  refine ⟨har, fun h0 => ?_⟩
  obtain ⟨G', -, hw'⟩ := hw.turn (a := .allocate i n page) (by simp) (by
    simp only [step, hi, ha, bind_eq_bind, bind_some, if_neg hp]
    rfl)
  have hi' : (w.put i s (⟨p, direct n⟩ :: h.live) h.gone).arenas[i]? = some ⟨s.ar, ⟨p, direct n⟩ :: h.live, h.gone⟩ :=
    List.getElem?_set_self (lt_of_arena hi)
  have hk' := hw'.kempt i _ hi'
  constructor
  · rintro rfl
    obtain ⟨c, d, hb, hd⟩ := hk'.block_of_mem (b := ⟨h.ar.topChunk + HEADER_SIZE, direct n⟩) List.mem_cons_self
    rw [Block.mk.injEq] at hb
    obtain rfl : h.ar.topChunk = c := Nat.add_right_cancel hb.1
    have ht : (G' i).kind h.ar.topChunk = .top := by
      have := (hw'.top i _ hi').resolve_left (by rw [har]; exact h0)
      rwa [har] at this
    cases d with
    | false => cases ht.symm.trans hd
    | true =>
      obtain ⟨z, hz⟩ := hd
      obtain ⟨y, hy⟩ := hk'.inv.bins.home h.ar.topChunk (by simp [ht])
      cases hz.symm.trans hy
  · obtain ⟨a, e, hae, hle, he⟩ := top_end hw hi h0
    obtain ⟨a', e', hae', hle', he'⟩ := top_end hw' hi' (by rw [har]; exact h0)
    dsimp only [World.put] at hae' hle' he'
    rw [har] at hae' hle' he'
    have := (hw.kempt i h hi).inv.tiled.heap_unique hae hae' (a := h.ar.topChunk) ⟨hle, by omega⟩ ⟨hle', by omega⟩
    cases this
    omega

/-- The large bins are sorted, the search takes the best fit over all of them,
and the top chunk is left alone while a chunk of the bins is large enough. -/
theorem large_best_fit (hr : Reachable machine w) (hi : w.arenas[i]? = some h) :
    (∀ j, j < LARGEBINS_COUNT → ∃ l, largeChunks w.mem h.ar j = some l ∧
      l.Pairwise fun a b => getSize w.mem a ≤ getSize w.mem b) ∧
    (∀ n, 512 ≤ n → ∃ v m', largebinSearch h.ar w.mem n = some (v, m') ∧ Best w.mem h.ar n v) ∧
    ∀ n page, 512 ≤ n → n < MMAP_THRESHOLD → Waiting w.mem h.ar n →
      (payloadSize n < MMAP_THRESHOLD → ∃ p s, allocate (w.state h) page n = some (p, s)) ∧
      ∀ p s, allocate (w.state h) page n = some (p, s) → TopKept w.mem h.ar p s := by
  obtain ⟨G, hw⟩ := reachable_sound hr
  have hk := hw.kempt i h hi
  refine ⟨fun j hj => ⟨_, largeChunks_eq hk.inv hj, order_sorted hk.inv j⟩, fun n hn => largebinSearch_best hk.inv hn, ?_⟩
  intro n page hn hbig hwait
  have hpay := payloadSize_of_large hn hbig
  have hb := payloadSize_bounds n
  have hwait' := waiting_payload hk.inv hn hbig hwait
  have hfit := allocateChunk_fit (s := w.state h) hk.inv rfl hk.settled (hw.top i h hi) ⟨hb.1, by omega⟩ hwait' page
  obtain ⟨v, m', hv⟩ := hfit
  by_cases hmm : MMAP_THRESHOLD ≤ payloadSize n
  · refine ⟨fun hlt => absurd hmm (by omega), fun p s ha => ?_⟩
    have ha' := ha
    rw [allocate, if_neg (by omega), if_pos hmm] at ha'
    simp only [bind_eq_bind, bind_eq_some_iff, pure_def, Option.some.injEq, Prod.mk.injEq] at ha'
    obtain ⟨s', hs', rfl, rfl⟩ := ha'
    exact topKept_of_ar hw hi ha (by simp [HEADER_SIZE]) (allocChunk_mapped hb hs').ar
  · have hall : allocate (w.state h) page n = some (v + HEADER_SIZE, { w.state h with mem := m' }) := by
      rw [allocate, if_neg (by omega), if_neg hmm, hv]
      rfl
    refine ⟨fun _ => ⟨_, _, hall⟩, fun p s ha => ?_⟩
    cases hall.symm.trans ha
    exact topKept_of_ar hw hi ha (by simp [HEADER_SIZE]) rfl

/-- Of 1024 and 2048 free bytes, a request of 1500 takes the latter. -/
theorem large_best_fit_two : ∃ w h p s, Reachable machine w ∧ w.arenas[0]? = some h ∧ Best w.mem h.ar 1500 1049696 ∧
    allocate (w.state h) 0 1500 = some (p, s) ∧ TopKept w.mem h.ar p s := by
  have hx : (walk machine [.create 4096 1048576, .allocate 0 1024 0, .allocate 0 64 0,
      .allocate 0 2048 0, .allocate 0 64 0, .release 0 ⟨1048592, false⟩, .release 0 ⟨1049712, false⟩,
      .allocate 0 10000 0] start).bind (fun w => w.arenas[0]?.map fun h => ((largebinSearch h.ar w.mem 1500).map Prod.fst,
      largeChunks w.mem h.ar 24, getSize w.mem 1049696)) = some (some 1049696, some [1049696], 2048) := by decide +kernel
  obtain ⟨w, hr, he⟩ := exec_reads_bind hx (.init rfl)
  obtain ⟨h, hi, he⟩ := map_eq_some_iff.mp he
  simp only [Prod.mk.injEq] at he
  obtain ⟨hv, hl, hsize⟩ := he
  obtain ⟨-, hsearch, hkept⟩ := large_best_fit hr hi
  obtain ⟨v, m', hv', hbest⟩ := hsearch 1500 (by omega)
  rw [hv', map_some, Option.some.injEq] at hv
  obtain ⟨hret, htop⟩ := hkept 1500 0 (by omega) (by decide) ⟨1049696, .inr ⟨24, _, by decide, hl, by simp⟩, by omega⟩
  obtain ⟨p, s, ha⟩ := hret (by decide)
  exact ⟨w, h, p, s, hr, hi, hv ▸ hbest, ha, htop p s ha⟩

end Picasso.Alloc.BestFit
