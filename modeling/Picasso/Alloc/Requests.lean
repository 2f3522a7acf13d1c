import Picasso.Alloc.Tiling

namespace Picasso.Alloc.Requests

open Chunk Allocator Layout Arenas Custody Tiling Lib.Transition Option
open Invariant hiding Inv

variable {strict : Bool} {w w' : World} {G : Nat → Ghost} {h : Holding} {i n page p : Nat} {s : State}

/-- In a region of `mmap`, and in no chunk of a heap that `_release` has passed to `munmap`. -/
def Mapped (w : World) (a : Nat) : Prop :=
  Within w.mapped a ∧ ∀ h ∈ w.arenas, ∀ c, c + HEADER_SIZE ∈ h.gone → ¬ (c ≤ a ∧ a < c + HEADER_SIZE + getSize w.mem c)

def Honoured (w : World) (b : Block) (n : Nat) : Prop :=
  n ≤ b.size w.mem ∧ ∀ a, b.ptr ≤ a → a < b.ptr + n → Mapped w a

theorem align16_of_lt (hn : n + 15 < 2 ^ 64) : n ≤ align16 n := by
  unfold align16
  rw [Nat.mod_eq_of_lt hn]
  omega

theorem align16_of_ge (hn : n < 2 ^ 64) (hbig : 2 ^ 64 ≤ n + 15) : align16 n = 0 := by
  have hmod : (n + 15) % 2 ^ 64 = n + 15 - 2 ^ 64 := by
    rw [Nat.mod_eq_sub_mod hbig, Nat.mod_eq_of_lt (by omega)]
  unfold align16
  rw [hmod]
  omega

theorem le_payloadSize_iff (hn : n < 2 ^ 64) : n ≤ payloadSize n ↔ n + 15 < 2 ^ 64 := by
  constructor
  · intro hle
    by_contra hbig
    rw [payloadSize, align16_of_ge hn (by omega), MIN_PAYLOAD_SIZE] at hle
    omega
  · exact fun hlt => Nat.le_trans (align16_of_lt hlt) (Nat.le_max_left _ _)

theorem mapped_of_payload (hw : Sound strict w G) (ht : Tallied w G) (hi : w.arenas[i]? = some h) {c a : Nat} {d : Bool}
    (hd : Handed (G i) c d) (hp : Payload (G i) c a) : Mapped w a := by
  refine ⟨(hw.kempt i h hi).owned a hp.owned, ?_⟩
  rintro h' hh' e hgone ⟨hle, hlt⟩
  obtain ⟨j, hj⟩ := List.mem_iff_getElem?.mp hh'
  have hk := hw.kempt j h' hj
  -- the lost chunk is a cell of its arena, and another one than the block
  have he : (G j).kind e = .unmapped := ((ht j h' hj).2 e).mp hgone
  obtain ⟨z, hz⟩ := hk.inv.bins.home e (by simp [he])
  have hsize : getSize w.mem e = z := (hk.inv.words.own e z hz).size (by simp [he, Kind.sized])
  rw [hsize, HEADER_SIZE] at hlt
  have hown : (G j).Owned a := owned_chunk hz (by omega)
  by_cases hji : j = i
  · subst hji
    cases hi.symm.trans hj
    obtain ⟨x, hx, -, hcle, hclt⟩ := hp
    obtain ⟨rfl, -⟩ := hk.inv.tiled.sep hx hz (o := a - c) (u := a - e) (by omega)
      (Cell.lt_chunk (by omega)) (by omega)
    cases d with
    | false => cases he.symm.trans hd
    | true =>
      obtain ⟨y, hy⟩ := hd
      cases hy.symm.trans hz
  · exact hw.apart j i hji (lt_of_arena hj) (lt_of_arena hi) a hown hp.owned

theorem allocate_block (hr : Reachable machine w) (hi : w.arenas[i]? = some h) (hn : n ≠ 0)
    (ha : allocate (w.state h) page n = some (p, s)) (hw' : w' = w.put i s (⟨p, direct n⟩ :: h.live) h.gone) :
    payloadSize n ≤ Block.size ⟨p, direct n⟩ w'.mem ∧ Block.size ⟨p, direct n⟩ w'.mem < payloadSize n + 48 ∧
      ∀ a, p ≤ a → a < p + Block.size ⟨p, direct n⟩ w'.mem → Mapped w' a := by
  obtain ⟨G, hw, ht⟩ := reachable_tallied hr
  have hp0 : p ≠ 0 := by
    rw [allocate, if_neg hn] at ha
    split_ifs at ha <;>
      simp only [bind_eq_bind, bind_eq_some_iff, pure_def, Option.some.injEq, Prod.mk.injEq] at ha
    all_goals
      obtain ⟨-, -, rfl, -⟩ := ha
      simp [HEADER_SIZE]
  have hs : step w (.allocate i n page) = some w' := by
    simp only [step, hi, ha, bind_eq_bind, bind_some, if_neg hp0, hw']
    rfl
  obtain ⟨G', hturn, hsound⟩ := hw.turn_allocate hs
  have ht' := tallied_turn hw ht hturn
  have hi' : w'.arenas[i]? = some ⟨s.ar, ⟨p, direct n⟩ :: h.live, h.gone⟩ := by
    rw [hw']
    exact List.getElem?_set_self (lt_of_arena hi)
  generalize hact : Act.allocate i n page = act at hturn
  cases hturn with
  | create | lose | store => cases hact
  | refuse =>
    cases hact
    exact absurd rfl hn
  | @gain _ _ _ c h0 s0 g' arena gained size mem block =>
    cases hact
    simp only [World.put, List.getElem?_set_self (lt_of_arena hi), Option.some.injEq, Holding.mk.injEq, List.cons.injEq,
      Block.mk.injEq, and_true] at hi'
    obtain ⟨-, ⟨rfl, -⟩, -⟩ := hi'
    have hj : (w.put i s0 (⟨c + 16, direct n⟩ :: h0.live) h0.gone).arenas[i]? = some _ :=
      List.getElem?_set_self (lt_of_arena hi)
    have hk := hsound.kempt i _ hj
    have hd : Handed (Function.update G i g' i) c (direct n) := by
      rw [Function.update_self]
      exact gained.handed
    obtain ⟨x, hx, -, hext, -⟩ := hk.handed_cell hd
    rw [Function.update_self] at hx
    have hbounds : payloadSize n ≤ x.extent - 16 ∧ x.extent - 16 < payloadSize n + 48 := by
      cases hdir : direct n with
      | true =>
        cases hx.symm.trans (block hdir)
        simp only [Cell.extent_block]
        omega
      | false =>
        obtain ⟨z, hz, hor⟩ := size hdir
        cases hx.symm.trans hz
        simp only [Cell.extent_chunk]
        omega
    simp only [Block.size, Block.chunk, HEADER_SIZE, Nat.add_sub_cancel]
    refine ⟨by omega, by omega, fun a hle hlt => ?_⟩
    exact mapped_of_payload hsound ht' hj hd (hk.payload hd hle (by omega))

/-- The block has the size that was asked for unless the rounding of the
request to a multiple of 16 wraps around. -/
theorem request_honoured (hr : Reachable machine w) (hi : w.arenas[i]? = some h) (hn : 0 < n ∧ n < 2 ^ 64)
    (ha : allocate (w.state h) page n = some (p, s)) :
    Honoured (w.put i s (⟨p, direct n⟩ :: h.live) h.gone) ⟨p, direct n⟩ n ↔ n + 15 < 2 ^ 64 := by
  obtain ⟨hle, hlt, hmapped⟩ := allocate_block hr hi (by omega) ha rfl
  rw [← le_payloadSize_iff hn.2]
  constructor
  · rintro ⟨hsize, -⟩
    rw [le_payloadSize_iff hn.2]
    by_contra hbig
    have hsmall : payloadSize n = 32 := by
      rw [payloadSize, align16_of_ge hn.2 (by omega)]
      rfl
    omega
  · intro hpay
    refine ⟨by omega, fun a h₁ h₂ => hmapped a h₁ (by dsimp only at h₂; omega)⟩

/-- A request of 1000 bytes. -/
theorem request_honoured_top : ∃ w h p s, Reachable machine w ∧ w.arenas[0]? = some h ∧
    allocate (w.state h) 0 1000 = some (p, s) ∧
      Honoured (w.put 0 s (⟨p, direct 1000⟩ :: h.live) h.gone) ⟨p, direct 1000⟩ 1000 := by
  have hx : (walk machine [.create 4096 1048576] start).bind (fun w => w.arenas[0]?.bind fun h =>
      (allocate (w.state h) 0 1000).map Prod.fst) = some 1048592 := by decide +kernel
  obtain ⟨w, hr, he⟩ := exec_reads_bind hx (.init rfl)
  obtain ⟨h, hi, he⟩ := Option.bind_eq_some_iff.mp he
  obtain ⟨⟨p, s⟩, ha, -⟩ := Option.map_eq_some_iff.mp he
  exact ⟨w, h, p, s, hr, hi, ha, (request_honoured hr hi (by omega) ha).mpr (by omega)⟩

/-- A request of all bytes is served with 32 of them. -/
theorem request_wraps : ∃ w h p s, Reachable machine w ∧ w.arenas[0]? = some h ∧
    allocate (w.state h) 0 (2 ^ 64 - 1) = some (p, s) ∧ Block.size ⟨p, direct (2 ^ 64 - 1)⟩ s.mem = 32 ∧
    ¬ Honoured (w.put 0 s (⟨p, direct (2 ^ 64 - 1)⟩ :: h.live) h.gone) ⟨p, direct (2 ^ 64 - 1)⟩ (2 ^ 64 - 1) := by
  have hx : (walk machine [.create 4096 1048576] start).bind (fun w => w.arenas[0]?.bind fun h =>
      (allocate (w.state h) 0 (2 ^ 64 - 1)).map fun r => getSize r.2.mem (r.1 - HEADER_SIZE)) = some 32 := by
    decide +kernel
  obtain ⟨w, hr, he⟩ := exec_reads_bind hx (.init rfl)
  obtain ⟨h, hi, he⟩ := Option.bind_eq_some_iff.mp he
  obtain ⟨⟨p, s⟩, ha, hsize⟩ := Option.map_eq_some_iff.mp he
  refine ⟨w, h, p, s, hr, hi, ha, hsize, ?_⟩
  rintro ⟨hle, -⟩
  rw [show Block.size ⟨p, direct (2 ^ 64 - 1)⟩ (w.put 0 s (⟨p, direct (2 ^ 64 - 1)⟩ :: h.live) h.gone).mem = 32
    from hsize] at hle
  omega

section Reuse

theorem fastbinSearch_inserted {c z k : Nat} (hc : c ≠ 0) (hz : getSize s.mem c = z) (hk : getSmallbinIndex z = some k)
    (hlt : k < FASTBINS_COUNT) (hcurr : hasFlag (s.mem (c + 8)) CURR_IN_USE = true) :
    fastbinSearch (insertIntoFastbin s c) z = (c, { s with mem := s.mem.set (c + 16) 0 }) := by
  have hfd : fd (unsetCurrInuse (s.mem.set (c + 16) (s.ar.fastbins k)) c) c = s.ar.fastbins k := by
    simp [fd, unsetCurrInuse, Mem.set]
  have hmem : setCurrInuse ((unsetCurrInuse (s.mem.set (c + 16) (s.ar.fastbins k)) c).set (c + 16) 0) c =
      s.mem.set (c + 16) 0 := by
    rw [hasFlag_iff, CURR_IN_USE] at hcurr
    funext a
    simp only [setCurrInuse, unsetCurrInuse, Chunk.size, Mem.set, withFlag_eq, withoutFlag_eq, CURR_IN_USE]
    grind
  simp [insertIntoFastbin, fastbinSearch, hz, hk, hlt, hc, hfd, hmem]

/-- A fast bin is a stack: the next request of its size gets the block that was
released last, and the arena and the memory are as before but for the first word
of the block. -/
theorem release_then_allocate (hr : Reachable machine w) (hi : w.arenas[i]? = some h) {b : Block} (hb : b ∈ h.live)
    (hn : n ≠ 0) (hsize : b.size w.mem = payloadSize n) (hsmall : payloadSize n ≤ 16 * FASTBINS_COUNT) :
    ∃ s, release (w.state h) b.ptr = some s ∧
      ∀ page, allocate s page n = some (b.ptr, { w.state h with mem := w.mem.set b.ptr 0 }) := by
  obtain ⟨G, hw⟩ := reachable_sound hr
  have hk := hw.kempt i h hi
  obtain ⟨p, d⟩ := b
  obtain ⟨c, rfl, hd⟩ := (hk.live _).mp hb
  have hz := payloadSize_bounds n
  simp only [Block.size, Block.chunk, HEADER_SIZE, Nat.add_sub_cancel] at hsize
  have hge : ¬ MMAP_THRESHOLD ≤ payloadSize n := by
    simp only [FASTBINS_COUNT, MMAP_THRESHOLD] at hsmall ⊢
    omega
  cases d with
  | true =>
    obtain ⟨z, hc⟩ := hd
    have hword : getSize w.mem c = z := hk.inv.words.block c z hc
    exact absurd (hk.block c z hc).1 (by rwa [← hword, hsize])
  | false =>
    have hlive : (G i).kind c = .live := hd
    obtain ⟨z, hc⟩ := hk.inv.bins.home c (by simp [hlive])
    have hcurr := (hk.inv.words.own c z hc).curr true (by rw [hlive]; rfl)
    have hc0 : c ≠ 0 := Nat.ne_of_gt (hk.inv.tiled.pos c _ hc)
    have hround := fastbinSearch_inserted (s := w.state h) hc0 hsize (if_neg (by omega)) (by omega) hcurr
    refine ⟨insertIntoFastbin (w.state h) c, ?_, fun page => ?_⟩
    · have hne : payloadSize n ≠ 0 := by omega
      simp [release, HEADER_SIZE, World.state, hsize, hge, hne, hsmall]
    · simp [allocate, allocateChunk, HEADER_SIZE, hn, hge, hsmall, hround, hc0, show (w.state h).mem = w.mem from rfl]

theorem release_then_allocate_small : ∃ w h s s', Reachable machine w ∧ w.arenas[0]? = some h ∧
    release (w.state h) 1048592 = some s ∧ allocate s 0 100 = some (1048592, s') := by
  have hx : (walk machine [.create 4096 1048576, .allocate 0 100 0] start).bind (fun w =>
      w.arenas[0]?.map fun h => (h.live, Block.size ⟨1048592, false⟩ w.mem)) = some ([⟨1048592, false⟩], 112) := by
    decide +kernel
  obtain ⟨w, hr, he⟩ := exec_reads_bind hx (.init rfl)
  obtain ⟨h, hi, he⟩ := map_eq_some_iff.mp he
  obtain ⟨hl, hsize⟩ := Prod.mk.inj he
  obtain ⟨s, hs, ha⟩ := release_then_allocate hr hi (b := ⟨1048592, false⟩) (by simp [hl]) (n := 100) (by decide) hsize
    (by decide)
  exact ⟨w, h, s, _, hr, hi, hs, ha 0⟩

end Reuse

end Picasso.Alloc.Requests
