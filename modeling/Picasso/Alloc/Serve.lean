import Picasso.Alloc.Insert

namespace Picasso.Alloc.Invariant

open Chunk Allocator Layout Function Ghost

attribute [local simp] Kind.settled Kind.busy Kind.plain Kind.sized Kind.curr Kind.used Kind.flat Ghost.retag

variable {E : Env} {g g' g'' : Ghost} {ar : Arena} {m : Mem}

theorem retag_retag (g : Ghost) (c : Nat) (k k' : Kind) : (g.retag c k).retag c k' = g.retag c k' := by
  simp

variable {c z r q p v : Nat}

theorem grant_spec (h : Inv E g ar m) (hc : g.cell c = some (.chunk z)) (hp : (g.kind c).plain = true)
    (hb : (g.kind c).busy = false) (hs : sizeBits (m (c + 8)) = z) :
    Inv E (g.retag c .live) ar (setPrevInuse (setCurrInuse m c) (nextChunk (setCurrInuse m c) c)) := by
  have hz := (h.tiled.chunk c z hc).2.2
  have hc' : (g.retag c .loose).cell c = some (.chunk z) := hc
  have h1 := (h.loosen hc hp hb).setLooseHead (v := withFlag (m (c + 8)) CURR_IN_USE) hc'
    (by simp) (by simp)
  have hm1 : setCurrInuse m c = m.set (c + 8) (withFlag (m (c + 8)) CURR_IN_USE) := rfl
  rw [← hm1] at h1
  generalize hm1' : setCurrInuse m c = m1 at h1
  have hw1 : m1 (c + 8) = withFlag (m (c + 8)) CURR_IN_USE := by simp [← hm1', hm1]
  rw [nextChunk_eq (z := z) (by simp [hw1, hs])]
  have h2 := h1.setNextPrev (v := withFlag (m1 (c + 16 + z + 8)) PREV_IN_USE) hc' (by simp)
    (by simp) (by simp)
  have hw2 : m1.set (c + 16 + z + 8) (withFlag (m1 (c + 16 + z + 8)) PREV_IN_USE) (c + 8) = m1 (c + 8) :=
    set_of_ne (by omega)
  rw [← retag_retag g c .loose]
  refine h2.retag hc' (by simp) rfl ⟨?_, ?_⟩ ⟨?_, ?_⟩ (by simp) (by simp)
    (by simp) (by simp)
  · intro _
    simp [hw2, hw1, hs]
  · simp [hw2, hw1]
  · simp
  · simp

theorem grantFront_spec (h : Inv E g ar m) (hc : g.cell c = some (.chunk r)) (hk : g.kind c = .carved) :
    Inv E (g.retag c .live) ar (setCurrInuse (setSize m c r (getSizeFlags m c)) c) := by
  have hal := h.tiled.chunk c r hc
  have h1 := h.setLooseHead (v := r + flagBits (m (c + 8))) hc (by simp [hk])
    (prev_add_flagBits _ hal.2.1)
  have h2 := h1.setLooseHead (v := withFlag (r + flagBits (m (c + 8))) CURR_IN_USE) hc (by simp [hk])
    (by simp)
  have hmem : setCurrInuse (setSize m c r (getSizeFlags m c)) c =
      (m.set (c + 8) (r + flagBits (m (c + 8)))).set (c + 8) (withFlag (r + flagBits (m (c + 8))) CURR_IN_USE) := by
    simp [setCurrInuse, setSize, getSizeFlags, size]
  rw [hmem]
  have hfoot := (h2.words.foot c r hc).used true (by simp [hk])
  refine h2.retag hc (by simp [hk]) rfl ⟨?_, ?_⟩ ⟨?_, ?_⟩ (by simp) (by simp)
    (by simp [hk]) (by simp)
  · intro _
    simp [sizeBits_add_flagBits _ hal.2.1]
  · simp
  · simpa using hfoot
  · simp

theorem makeRemainder_spec (h : Inv E g ar m) (hm : E.marked = false) (hc : g.cell c = some (.chunk (r + 16 + q)))
    (hk : (g.kind c).sized = false) (hr : r % 16 = 0 ∧ 32 ≤ r) (hq : q % 16 = 0 ∧ 32 ≤ q) :
    ∃ m', makeRemainder m c r (16 + q) = some m' ∧ Inv E ((g.split c r q).retag c .carved) ar m' ∧
      sizeBits (m' (c + 16 + r + 8)) = q ∧ hasFlag (m' (c + 16 + r + 8)) CURR_IN_USE = false := by
  have h0 := h.split hm hc hk hr hq
  have hne : c ≠ c + 16 + r := by omega
  have hcl : (g.split c r q).cell c = some (.chunk r) := by simp [split, hne]
  have hcr : (g.split c r q).cell (c + 16 + r) = some (.chunk q) := by simp [split]
  have hkl : (g.split c r q).kind c = .loose := by simp [split, hne]
  have hkr : (g.split c r q).kind (c + 16 + r) = g.kind c := by simp [split]
  have hsz := sizeBits_add_prev hq.1
  have h1 : Inv E (g.split c r q) ar (m.set (c + 16 + r + 8) (q + PREV_IN_USE)) := by
    refine h0.setHead hcr rfl ?_ (by simp) (.inr ⟨c, r, hcl, rfl, by simp [hkl]⟩)
    rintro w -
    rw [hkr]
    cases hkc : g.kind c <;> simp_all
    all_goals exact ⟨by simp, by simp⟩
  have hu : (g.kind c).used ≠ some false := by
    cases hkc : g.kind c <;> simp_all
  have h2 := h1.setNextPrevSize (v := q) hcr (by rwa [hkr]) (by simp [hm])
  have hw : ∀ v, (m.set (c + 16 + r + 8) (q + PREV_IN_USE)).set (c + 16 + r + 16 + q) v (c + 16 + r + 8) =
      q + PREV_IN_USE := by
    intro v
    rw [set_of_ne (by omega), set_self]
  have h3 := h2.carve hcl (by simp [hkl]) (by simp [hkl]) (by
    rw [hw]
    exact prev_add_prev hq.1)
  refine ⟨_, ?_, h3, ?_, ?_⟩
  · have hn : nextChunk (m.set (c + 16 + r + 8) (q + PREV_IN_USE)) (c + 16 + r) = c + 16 + r + 16 + q :=
      nextChunk_eq (by simp [hsz])
    have hq' : 16 + q - HEADER_SIZE = q := by
      simp [HEADER_SIZE]
    have hcr' : c + HEADER_SIZE + r = c + 16 + r := rfl
    simp only [makeRemainder, setSize, hq', hcr', hn, setPrevSize]
    rw [if_neg (by omega)]
    rfl
  · rw [hw, hsz]
  · rw [hw]
    exact curr_add_prev hq.1

def Ghost.Owned (g : Ghost) (a : Nat) : Prop := ∃ c x, g.cell c = some x ∧ c ≤ a ∧ a < c + x.extent

theorem owned_chunk {c z a : Nat} (hc : g.cell c = some (.chunk z)) (ha : c ≤ a ∧ a < c + (16 + z)) :
    g.Owned a :=
  ⟨c, _, hc, ha.1, ha.2⟩

def Ghost.SettledBut (g : Ghost) (p : Nat) : Prop :=
  ∀ c z, c ≠ p → g.cell c = some (.chunk z) → (g.kind c).settled = true

def Ghost.Settled (g : Ghost) : Prop := ∀ c z, g.cell c = some (.chunk z) → (g.kind c).settled = true

theorem Ghost.Settled.getSize (hset : g.Settled) (hI : Inv E g ar m) (hc : g.cell c = some (.chunk z)) :
    getSize m c = z := (hI.words.own c z hc).size (sized_of_settled (hset c z hc))

def TopOk (g : Ghost) (ar : Arena) : Prop := ar.topChunk = 0 ∨ g.kind ar.topChunk = .top

structure Shuffled (g g' : Ghost) : Prop where
  cell : g'.cell = g.cell
  busy : ∀ c, (g.kind c).busy = true ∨ (g'.kind c).busy = true → g'.kind c = g.kind c

/-- A request of `p` bytes has been served by the chunk `v`, with the
addresses of `fresh` new to the arena. -/
structure Served (fresh : Nat → Prop) (g g' : Ghost) (v p : Nat) : Prop where
  live : g'.kind v = .live
  idle : (g.kind v).busy = false
  size : ∃ z, g'.cell v = some (.chunk z) ∧ (z = p ∨ g.cell v = some (.chunk z) ∧ p ≤ z ∧ z < p + 48)
  busy : ∀ c, c ≠ v → (g.kind c).busy = true ∨ (g'.kind c).busy = true → g'.kind c = g.kind c ∧ g'.cell c = g.cell c
  block : ∀ c z, g'.cell c = some (.block z) ↔ g.cell c = some (.block z)
  owned : ∀ a, g'.Owned a → g.Owned a ∨ fresh a
  settled : g'.Settled

theorem Shuffled.refl (g : Ghost) : Shuffled g g := ⟨rfl, fun _ _ => rfl⟩

theorem Shuffled.trans (h : Shuffled g g') (h' : Shuffled g' g'') : Shuffled g g'' := by
  refine ⟨h'.cell.trans h.cell, fun c hc => ?_⟩
  by_cases hb : (g'.kind c).busy = true
  · have h1 := h.busy c (.inr hb)
    exact (h'.busy c (.inl hb)).trans h1
  · rcases hc with hc | hc
    · rw [← h.busy c (.inl hc)] at hc
      exact absurd hc hb
    · rw [h'.busy c (.inr hc)] at hc
      exact absurd hc hb

theorem shuffled_update {k : Kind} (hcell : g'.cell = g.cell) (hkind : g'.kind = update g.kind p k)
    (hp : (g.kind p).busy = false) (hk : k.busy = false) : Shuffled g g' := by
  refine ⟨hcell, fun c hc => ?_⟩
  by_cases hcp : c = p
  · subst hcp
    simp [hkind, hp, hk, -Kind.busy] at hc
  · simp [hkind, hcp]

theorem Shuffled.served {fresh : Nat → Prop} (h : Shuffled g g') (h' : Served fresh g' g'' v p) :
    Served fresh g g'' v p := by
  obtain ⟨live, idle, size, busy, block, owned, settled⟩ := h'
  rw [h.cell] at size block busy
  refine ⟨live, ?_, size, ?_, block, ?_, settled⟩
  · by_contra hb
    simp only [Bool.not_eq_false] at hb
    rw [h.busy v (.inl hb)] at idle
    simp [hb, -Kind.busy] at idle
  · intro c hc hb
    by_cases hb' : (g'.kind c).busy = true
    · obtain ⟨h1, h2⟩ := busy c hc (.inl hb')
      exact ⟨h1.trans (h.busy c (.inr hb')), h2⟩
    · rcases hb with hb | hb
      · rw [← h.busy c (.inl hb)] at hb
        exact absurd hb hb'
      · rw [(busy c hc (.inr hb)).1] at hb
        exact absurd hb hb'
  · intro a ha
    have := owned a ha
    unfold Ghost.Owned at this ⊢
    rwa [h.cell] at this

theorem Served.mono {fresh fresh' : Nat → Prop} (h : Served fresh g g' v p) (hf : ∀ a, fresh a → fresh' a) :
    Served fresh' g g' v p :=
  { h with owned := fun a ha => (h.owned a ha).imp_right (hf a) }

theorem served_whole (hc : g.cell c = some (.chunk z)) (hb : (g.kind c).busy = false) (hz : z = p ∨ p ≤ z ∧ z < p + 48)
    (hset : g.SettledBut c) : Served (fun _ => False) g (g.retag c .live) c p := by
  refine ⟨by simp, hb, ⟨z, hc, hz.imp_right fun hz => ⟨hc, hz⟩⟩, ?_, fun _ _ => Iff.rfl,
    fun a ha => .inl ha, ?_⟩
  · intro d hd _
    simp [hd]
  · intro d w hd
    by_cases hdc : d = c
    · simp [hdc]
    · simpa [hdc] using hset d w hdc hd

theorem owned_split (hc : g.cell c = some (.chunk (r + 16 + q))) {a : Nat} (ha : (g.split c r q).Owned a) :
    g.Owned a := by
  obtain ⟨d, x, hd, hle, hlt⟩ := ha
  simp only [split, update_apply] at hd
  by_cases h1 : d = c + 16 + r
  · rw [if_pos h1] at hd
    cases hd
    exact ⟨c, _, hc, by omega, by simp only [Cell.extent_chunk] at *; omega⟩
  · rw [if_neg h1] at hd
    by_cases h2 : d = c
    · rw [if_pos h2] at hd
      cases hd
      exact ⟨c, _, hc, by omega, by simp only [Cell.extent_chunk] at *; omega⟩
    · rw [if_neg h2] at hd
      exact ⟨d, x, hd, hle, hlt⟩

theorem served_front (g' : Ghost) {k : Kind} (hc : g.cell c = some (.chunk (r + 16 + q))) (hb : (g.kind c).busy = false)
    (hint : g.cell (c + 16 + r) = none) (hkint : g.kind (c + 16 + r) = .loose) (hset : g.SettledBut c)
    (hk : k.settled = true) (hkb : k.busy = false) (hcell : g'.cell = (g.split c r q).cell)
    (hkind : g'.kind = update (update g.kind (c + 16 + r) k) c .live) :
    Served (fun _ => False) g g' c r := by
  have hne : c + 16 + r ≠ c := by omega
  refine ⟨by simp [hkind], hb, ⟨r, by simp [hcell, split, hne.symm], .inl rfl⟩, ?_, ?_, ?_, ?_⟩
  · intro d hd hbusy
    by_cases hdr : d = c + 16 + r
    · subst hdr
      rw [hkint, hkind, update_of_ne hne, update_self, hkb] at hbusy
      simp at hbusy
    · simp [hkind, hcell, split, hd, hdr]
  · intro d w
    simp only [hcell, split, update_apply]
    by_cases h1 : d = c + 16 + r
    · simp [h1, hint]
    · by_cases h2 : d = c
      · simp [h2, hne.symm, hc]
      · simp [h1, h2]
  · intro a ha
    left
    apply owned_split hc
    unfold Ghost.Owned at ha ⊢
    rwa [hcell] at ha
  · intro d w hd
    by_cases h1 : d = c
    · simp [hkind, h1]
    · by_cases h2 : d = c + 16 + r
      · simp [hkind, h2, hne, hk, -Kind.settled]
      · simp only [hcell, split, update_of_ne h2, update_of_ne h1] at hd
        simpa [hkind, h1, h2] using hset d w h1 hd

theorem handOut_spec (h : Inv E g ar m) (hm : E.marked = false) {y : Nat} (hc : g.cell c = some (.chunk y))
    (hk : g.kind c = .detached) (hset : g.SettledBut c) (hr : r % 16 = 0 ∧ 32 ≤ r ∧ r ≤ y) (htop : TopOk g ar) :
    ∃ m' g', handOut ar m c r = some m' ∧ Inv E g' ar m' ∧ Served (fun _ => False) g g' c r ∧ TopOk g' ar := by
  have hal := h.tiled.chunk c y hc
  have hsize : sizeBits (m (c + 8)) = y := (h.words.own c y hc).size (by simp [hk])
  have hgs : getSize m c = y := hsize
  have htop' : ∀ {g' : Ghost}, (∀ d, d ≠ c → g.kind d ≠ .loose → g'.kind d = g.kind d) → TopOk g' ar := by
    intro g' hg'
    rcases htop with ht | ht
    · exact .inl ht
    · right
      rw [hg' _ (by rintro he; rw [he, hk] at ht; cases ht) (by simp [ht])]
      exact ht
  unfold handOut
  simp only [hgs]
  by_cases hrem : MIN_PAYLOAD_SIZE + HEADER_SIZE ≤ y - r
  · rw [if_pos hrem]
    simp only [MIN_PAYLOAD_SIZE, HEADER_SIZE] at hrem
    obtain ⟨q, rfl⟩ : ∃ q, y = r + 16 + q := ⟨y - r - 16, by omega⟩
    have hloose := h.loosen hc (by simp [hk]) (by simp [hk])
    have hint := h.tiled.interior hc (a := c + 16 + r) (by omega) (by simp only [Cell.extent_chunk]; omega)
    have hkint := h.kind_interior hc (o := 16 + r) (by omega) (Cell.lt_chunk (by omega))
    rw [← Nat.add_assoc] at hkint
    have hne : c + 16 + r ≠ c := by omega
    obtain ⟨m1, hm1, h1, hs1, -⟩ := makeRemainder_spec hloose hm hc (by simp)
      ⟨hr.1, hr.2.1⟩ (q := q) ⟨by omega, by omega⟩
    obtain ⟨m2, g2, hm2, h2, hcell2, hkind2, -⟩ := insertIntoUnsortedbin_spec h1 (c := c + 16 + r) (z := q)
      (by simp [split]) (by simp [split, hne])
      (by simp [split, hne]) hs1
    have h3 := grantFront_spec h2 (c := c) (r := r) (by simp [hcell2, split, hne.symm])
      (by simp [hkind2, hne.symm])
    refine ⟨_, _, ?_, h3, ?_, htop' ?_⟩
    · rw [show r + 16 + q - r = 16 + q by omega, hm1]
      simp only [Option.bind_eq_bind, Option.bind_some]
      rw [show c + HEADER_SIZE + r = c + 16 + r from rfl, hm2]
      rfl
    · apply served_front (g2.retag c .live) (k := .binned .unsorted) hc (by simp [hk]) hint hkint
        hset rfl rfl
      · simp [hcell2, split]
      · simp only [retag, hkind2, split]
        funext d
        simp only [update_apply]
        split_ifs <;> rfl
    · intro d hd hl
      have hdr : d ≠ c + 16 + r := by
        rintro rfl
        exact hl hkint
      simp [hkind2, split, hd, hdr]
  · rw [if_neg hrem]
    simp only [MIN_PAYLOAD_SIZE, HEADER_SIZE] at hrem
    refine ⟨_, _, rfl, grant_spec h hc (by simp [hk]) (by simp [hk]) hsize, ?_, htop' ?_⟩
    · exact served_whole hc (by simp [hk]) (.inr ⟨hr.2.2, by omega⟩) hset
    · intro d hd _
      simp [hd]

end Picasso.Alloc.Invariant
