import Picasso.Alloc.Serve

namespace Picasso.Alloc.Invariant

open Chunk Allocator Lib.Ring List Ghost

attribute [local simp] Kind.settled Kind.busy Kind.plain Kind.sized Kind.curr Kind.used Kind.flat

variable {E : Env} {g : Ghost} {ar : Arena} {m : Mem} {s : State} {p : Nat}

def Found (E : Env) (g : Ghost) (p v : Nat) (ar' : Arena) (m' : Mem) : Prop :=
  v ≠ 0 ∧ ∃ g', Inv E g' ar' m' ∧ Served (fun _ => False) g g' v p ∧ TopOk g' ar'

variable {c n i : Nat}

theorem topOk_of_kind {g' : Ghost} {ar' : Arena} (h : TopOk g ar) (ht : ar'.topChunk = ar.topChunk)
    (hc : g.kind c ≠ .top) (hk : ∀ d, d ≠ c → g'.kind d = g.kind d) : TopOk g' ar' := by
  rcases h with h | h
  · exact .inl (ht.trans h)
  · right
    rw [ht, hk _ (by rintro rfl; exact hc h)]
    exact h

theorem getSmallbinIndex_eq (hp : 32 ≤ p) : getSmallbinIndex p = some (p / 16 - 1) := by
  rw [getSmallbinIndex, if_neg (by omega)]

theorem exact_fit {v : Nat} (h : Inv E g ar m) (hp : p % 16 = 0 ∧ 32 ≤ p)
    (hk : g.kind v = .fast (p / 16 - 1) ∨ g.kind v = .binned (.small (p / 16 - 1))) : g.cell v = some (.chunk p) := by
  obtain ⟨z, hz, hz32⟩ := h.live_chunk (c := v) (by rcases hk with hk | hk <;> simp [hk])
  have hal := h.tiled.chunk v z hz
  have hfits : z / 16 - 1 = p / 16 - 1 := by
    have := h.bins.fits v z hz
    rcases hk with hk | hk <;> rw [hk] at this <;> have := this.2 <;> omega
  rw [hz, show z = p by omega]

theorem fastbinSearch_spec (h : Inv E g s.ar s.mem) (hset : g.Settled) (htop : TopOk g s.ar)
    (hp : p % 16 = 0 ∧ 32 ≤ p) :
    fastbinSearch s p = (0, s) ∨ ∃ v f m', fastbinSearch s p = (v, { s with mem := m', ar := { s.ar with fastbins := f } }) ∧
      Found E g p v { s.ar with fastbins := f } m' := by
  unfold fastbinSearch
  rw [getSmallbinIndex_eq hp.2]
  dsimp only
  split_ifs with hi
  · right
    obtain ⟨hi, hne⟩ := hi
    have hchain := h.links.fast _ hi
    obtain ⟨v, l, hl⟩ : ∃ v l, g.fast (p / 16 - 1) = v :: l := by
      cases hl : g.fast (p / 16 - 1) with
      | nil =>
        rw [hl] at hchain
        exact absurd hchain hne
      | cons v l => exact ⟨v, l, rfl⟩
    rw [hl] at hchain
    obtain ⟨hv, hchain⟩ := hchain
    have hk : g.kind v = .fast (p / 16 - 1) := (h.bins.fast _ v).mp (by simp [hl])
    have hz := exact_fit h hp (.inl hk)
    have hmoved : Moved v (Kind.carved = .fast (p / 16 - 1)) (g.fast (p / 16 - 1)) l := by
      have hn := h.bins.fastNodup (p / 16 - 1)
      rw [hl] at hn ⊢
      have := moved_erase (p := v) (q := Kind.carved = .fast (p / 16 - 1)) hn (by simp)
      rwa [erase_cons_head] at this
    have h1 := h.refast (k := .carved) (q := fd s.mem v) hz (.inr hk) (.inl rfl)
      ⟨by simp, by simp⟩ trivial
      hmoved hchain
    generalize hg1 : g.refast v (p / 16 - 1) .carved l = g1 at h1
    have hz1 : g1.cell v = some (.chunk p) := by simp [← hg1, refast, hz]
    have hk1 : g1.kind v = .carved := by simp [← hg1, refast]
    have h2 := h1.setBody (o := 16) hz1 (by omega) 0 (by simp [hk1]) (by simp [hk1]) (by omega)
    have hw2 : s.mem.set (v + 16) 0 (v + 8) = s.mem (v + 8) := set_of_ne (by omega)
    have h3 := h2.setLooseHead (v := withFlag (s.mem (v + 8)) CURR_IN_USE) hz1 (by simp [hk1])
      (by simp [hw2])
    have hfoot := (h3.words.foot v p hz1).used true (by simp [hk1])
    have hown := h.words.own v p hz
    rw [hk] at hown
    have h4 := h3.retag (k := .live) hz1 (by simp [hk1]) rfl
      ⟨fun _ => by simp [hown.size rfl], by simp⟩
      ⟨by simpa using hfoot, by simp⟩
      (by simp) (by simp) (by simp [hk1]) (by simp)
    have hmem : setCurrInuse (s.mem.set (v + 16) 0) v =
        (s.mem.set (v + 16) 0).set (v + 8) (withFlag (s.mem (v + 8)) CURR_IN_USE) := by
      simp [setCurrInuse, size, hw2]
    rw [← hmem] at h4
    refine ⟨v, _, _, by rw [hv], ?_, g1.retag v .live, h4, ?_, ?_⟩
    · exact fun h0 => hne (hv.trans h0)
    · have hsh : Shuffled g g1 := shuffled_update (p := v) (k := .carved) (by simp [← hg1, refast])
        (by simp [← hg1, refast])
        (by simp [hk]) rfl
      apply hsh.served
      refine served_whole hz1 (by simp [hk1]) (.inl rfl) ?_
      intro d w hd hw
      have := hset d w (hsh.cell ▸ hw)
      simpa [← hg1, refast, hd] using this
    · refine topOk_of_kind htop rfl (c := v) (by simp [hk]) ?_
      intro d hd
      simp [retag, ← hg1, refast, hd]
  · exact .inl rfl

theorem smallbinSearch_spec (h : Inv E g ar m) (hset : g.Settled) (htop : TopOk g ar) (hp : p % 16 = 0 ∧ 32 ≤ p) :
    smallbinSearch ar m p = (0, m) ∨ ∃ v m', smallbinSearch ar m p = (v, m') ∧ Found E g p v ar m' := by
  unfold smallbinSearch
  rw [getSmallbinIndex_eq hp.2]
  dsimp only
  split_ifs with hi
  · right
    obtain ⟨hi, hne⟩ := hi
    have hP := h.links.ring (.small (p / 16 - 1)) hi
    have hfirst : fd m (ar.smallbins (p / 16 - 1)) = first (g.ring (.small (p / 16 - 1))) (ar.smallbins (p / 16 - 1)) :=
      hP.next_eq
    obtain ⟨v, l, hl⟩ : ∃ v l, g.ring (.small (p / 16 - 1)) = v :: l := by
      cases hl : g.ring (.small (p / 16 - 1)) with
      | nil =>
        rw [hl] at hfirst
        exact absurd hfirst hne
      | cons v l => exact ⟨v, l, rfl⟩
    rw [hl] at hfirst
    have hv : fd m (ar.smallbins (p / 16 - 1)) = v := hfirst
    have hk : g.kind v = .binned (.small (p / 16 - 1)) := (h.bins.ring _ v).mp (by simp [hl])
    have hz := exact_fit h hp (.inr hk)
    have h1 := h.unlinkFd hk
    have hk1 : (g.unring v (.small (p / 16 - 1))).kind v = .detached := by simp [unring, Bin.outside]
    have hs1 := (h1.words.own v p hz).size (by simp [hk1])
    have h2 := grant_spec h1 (c := v) hz (by simp [hk1]) (by simp [hk1]) hs1
    rw [hv]
    have hsh : Shuffled g (g.unring v (.small (p / 16 - 1))) := shuffled_update (p := v) rfl rfl (by simp [hk])
      (by simp [Bin.outside])
    refine ⟨v, _, rfl, ?_, _, h2, ?_, ?_⟩
    · exact Nat.ne_of_gt (h.tiled.pos v _ hz)
    · apply hsh.served
      refine served_whole hz (by simp [hk1]) (.inl rfl) ?_
      intro d w hd hw
      simpa [unring, hd] using hset d w hw
    · refine topOk_of_kind htop rfl (c := v) (by simp [hk]) ?_
      intro d hd
      simp [retag, unring, hd]
  · exact .inl rfl

theorem Found.of_shuffled {g' : Ghost} {v : Nat} (h : Shuffled g g') (hf : Found E g' p v ar m) : Found E g p v ar m := by
  obtain ⟨hv, g'', h1, h2, h3⟩ := hf
  exact ⟨hv, g'', h1, h.served h2, h3⟩

theorem handOut_found (h : Inv E g ar m) (hm : E.marked = false) {y : Nat} (hc : g.cell c = some (.chunk y))
    (hk : g.kind c = .detached) (hset : g.SettledBut c) (htop : TopOk g ar) (hp : p % 16 = 0 ∧ 32 ≤ p) (hy : p ≤ y) :
    ∃ m', handOut ar m c p = some m' ∧ Found E g p c ar m' := by
  obtain ⟨m', g', hm', h', hserved, htop'⟩ := handOut_spec h hm hc hk hset ⟨hp.1, hp.2, hy⟩ htop
  exact ⟨m', hm', Nat.ne_of_gt (h.tiled.pos c _ hc), g', h', hserved, htop'⟩

theorem settledBut_of_update (g' : Ghost) {k : Kind} (hset : g.Settled) (hcell : g'.cell = g.cell)
    (hkind : g'.kind = Function.update g.kind c k) : g'.SettledBut c := by
  intro d w hd hw
  rw [hcell] at hw
  simpa [hkind, hd] using hset d w hw

theorem findFit_spec {head x : Nat} {l : List Nat} (hp : Path (nextSizeptr m) (prevSizeptr m) x l head) (hh : head ∉ l)
    (hn : l.length < n) : (findFit m head p n (first l head) = some none ∧ ∀ a ∈ l, getSize m a < p) ∨
      ∃ c l1 l2, l = l1 ++ c :: l2 ∧ findFit m head p n (first l head) = some (some c) ∧ p ≤ getSize m c ∧
        ∀ a ∈ l1, getSize m a < p := by
  induction l generalizing x n with
  | nil =>
    obtain ⟨n, rfl⟩ : ∃ k, n = k + 1 := ⟨n - 1, by simp only [length_nil] at hn; omega⟩
    exact .inl ⟨by simp [findFit, first], by simp⟩
  | cons a l ih =>
    obtain ⟨n, rfl⟩ : ∃ k, n = k + 1 := ⟨n - 1, by simp only [length_cons] at hn; omega⟩
    simp only [mem_cons, not_or] at hh
    simp only [length_cons, Nat.add_lt_add_iff_right] at hn
    have hfirst : first (a :: l) head = a := rfl
    rw [hfirst, findFit, if_neg (Ne.symm hh.1)]
    by_cases hle : p ≤ getSize m a
    · rw [if_pos hle]
      exact .inr ⟨a, [], l, rfl, rfl, hle, by simp⟩
    · have hnext : nextSizeptr m a = first l head := hp.2.2.next_eq
      have hlt : getSize m a < p := by omega
      rw [if_neg hle, hnext]
      rcases ih hp.2.2 hh.2 hn with ⟨h, hall⟩ | ⟨c, l1, l2, hl, h, hc, hlow⟩
      · exact .inl ⟨h, by simpa [hlt] using hall⟩
      · exact .inr ⟨c, a :: l1, l2, by simp [hl], h, hc, by simpa [hlt] using hlow⟩

theorem findFit_order (h : Inv E g ar m) (hi : i < LARGEBINS_COUNT) (p : Nat) :
    (findFit m (ar.largebins i) p (fuel ar) (nextSizeptr m (ar.largebins i)) = some none ∧
        ∀ a ∈ g.order i, getSize m a < p) ∨ ∃ c l1 l2, g.order i = l1 ++ c :: l2 ∧
        findFit m (ar.largebins i) p (fuel ar) (nextSizeptr m (ar.largebins i)) = some (some c) ∧ p ≤ getSize m c ∧
        ∀ a ∈ l1, getSize m a < p := by
  have hP := h.links.order i hi
  have hnodup := List.nodup_cons.mp (h.order_nodup hi)
  have hfirst : nextSizeptr m (ar.largebins i) = first (g.order i) (ar.largebins i) := hP.next_eq
  rw [hfirst]
  exact findFit_spec hP hnodup.1 (h.order_lt_fuel hi)

variable (h : Inv E g ar m) (hm : E.marked = false) (hset : g.Settled) (htop : TopOk g ar) (hp : p % 16 = 0 ∧ 32 ≤ p)

include h hm hset htop hp

theorem searchLargebins_spec (hi : i + n ≤ LARGEBINS_COUNT) : searchLargebins ar m p n i = some (0, m) ∨
      ∃ v m', searchLargebins ar m p n i = some (v, m') ∧ Found E g p v ar m' := by
  induction n generalizing i with
  | zero => exact .inl rfl
  | succ n ih =>
    have hi' : i < LARGEBINS_COUNT := by omega
    rw [searchLargebins]
    rcases findFit_order h hi' p with ⟨hnone, -⟩ | ⟨c, l1, l2, hl, hsome, hle, -⟩
    · rw [hnone]
      exact ih (by omega)
    · right
      have hc : c ∈ g.order i := by simp [hl]
      have hkc : g.kind c ≠ .loose := by
        rcases (h.bins.order i c).mp hc with hk | hk <;> simp [hk]
      obtain ⟨z, hz, -⟩ := h.live_chunk hkc
      have hk : g.kind c = .binned (.large i) := by
        rcases (h.bins.order i c).mp hc with hk | hk
        · exact hk
        · have := hset c z hz
          simp [hk] at this
      obtain ⟨g1, h1, hcell1, hkind1, -⟩ := detach_spec h hk
      have hzle : p ≤ z := by
        have : getSize m c = z := (h.words.own c z hz).size (by simp [hk])
        omega
      obtain ⟨m', hm', hfound⟩ := handOut_found h1 hm (c := c) (by rw [hcell1, hz]) (by simp [hkind1])
        (settledBut_of_update _ hset hcell1 hkind1)
        (topOk_of_kind htop rfl (c := c) (by simp [hk]) fun d hd => by simp [hkind1, hd]) hp hzle
      refine ⟨c, m', ?_, ?_⟩
      · rw [hsome]
        simp [hm']
      · exact hfound.of_shuffled (shuffled_update hcell1 hkind1 (by simp [hk]) rfl)

theorem largebinSearch_spec : largebinSearch ar m p = some (0, m) ∨
      ∃ v m', largebinSearch ar m p = some (v, m') ∧ Found E g p v ar m' := by
  unfold largebinSearch
  cases hi : getLargebinIndex p with
  | none => exact .inl rfl
  | some i =>
    have := getLargebinIndex_lt hi
    exact searchLargebins_spec h hm hset htop hp (by omega)

/-- No chunk of the unsorted bin was large enough, and those of the large bins are still there. -/
def Passing (g g' : Ghost) (p : Nat) : Prop :=
  (∀ c z, g.kind c = .binned .unsorted → g.cell c = some (.chunk z) → z < p) ∧
    ∀ c i, g.kind c = .binned (.large i) → g'.kind c = .binned (.large i)

def Searched (E : Env) (g : Ghost) (p : Nat) (ar : Arena) (r : Option (Nat × Mem)) : Prop :=
  (∃ m' g', r = some (0, m') ∧ Inv E g' ar m' ∧ Shuffled g g' ∧ g'.Settled ∧ TopOk g' ar ∧ Passing g g' p) ∨
    ∃ v m', r = some (v, m') ∧ Found E g p v ar m'

theorem searchUnsorted_spec (hn : (g.ring .unsorted).length < n) :
    Searched E g p ar (searchUnsorted ar p n m (first (g.ring .unsorted) ar.unsortedbin)) := by
  generalize hl : g.ring .unsorted = l at hn
  induction l generalizing g m n with
  | nil =>
    obtain ⟨n, rfl⟩ : ∃ k, n = k + 1 := ⟨n - 1, by simp only [length_nil] at hn; omega⟩
    refine .inl ⟨m, g, by simp [searchUnsorted, first], h, .refl g, hset, htop, ?_, fun _ _ hk => hk⟩
    intro c z hk
    simpa [hl] using (h.bins.ring _ c).mpr hk
  | cons c l ih =>
    obtain ⟨n, rfl⟩ : ∃ k, n = k + 1 := ⟨n - 1, by simp only [length_cons] at hn; omega⟩
    simp only [length_cons, Nat.add_lt_add_iff_right] at hn
    have hk : g.kind c = .binned .unsorted := (h.bins.ring _ c).mp (by simp [hl])
    obtain ⟨z, hz, -⟩ := h.live_chunk (c := c) (by simp [hk])
    have hP := h.links.ring .unsorted trivial
    rw [hl] at hP
    have hnext : fd m c = first l ar.unsortedbin := hP.2.2.next_eq
    have hhead : c ≠ ar.unsortedbin := by
      rintro rfl
      cases hk.symm.trans (h.bins.head_loose (b := .unsorted) trivial)
    have h1 := h.unlinkFd hk
    have hk1 : (g.unring c .unsorted).kind c = .detached := by simp [unring, Bin.outside]
    have hkind1 : (g.unring c .unsorted).kind = Function.update g.kind c .detached := by
      simp [unring, Bin.outside]
    have hring1 : (g.unring c .unsorted).ring .unsorted = l := by simp [unring, hl]
    have hset1 := settledBut_of_update (g.unring c .unsorted) hset rfl hkind1
    have htop1 : TopOk (g.unring c .unsorted) ar :=
      topOk_of_kind htop rfl (c := c) (by simp [hk]) fun d hd => by simp [hkind1, hd]
    have hsh1 : Shuffled g (g.unring c .unsorted) := shuffled_update rfl hkind1 (by simp [hk]) rfl
    have hsize : getSize (unlinkChunkFromFdlist m c) c = z := (h1.words.own c z hz).size (by simp [hk1])
    have hfirst : first (c :: l) ar.unsortedbin = c := rfl
    rw [hfirst, searchUnsorted, if_neg hhead, hnext]
    simp only [Option.bind_eq_bind, hsize]
    generalize unlinkChunkFromFdlist m c = m1 at h1 hsize
    generalize g.unring c .unsorted = g1 at h1 hk1 hkind1 hring1 hset1 htop1 hsh1
    have hz1 : g1.cell c = some (.chunk z) := by rw [hsh1.cell, hz]
    by_cases hle : p ≤ z
    · right
      obtain ⟨m', hm', hfound⟩ := handOut_found h1 hm hz1 hk1 hset1 htop1 hp hle
      refine ⟨c, m', ?_, hfound.of_shuffled hsh1⟩
      rw [if_pos hle, hm']
      rfl
    · have hmove : ∀ {m2 : Mem} {g2 : Ghost} {b : Bin}, Inv E g2 ar m2 → g2.cell = g1.cell →
          g2.kind = Function.update g1.kind c (.binned b) → g2.ring .unsorted = g1.ring .unsorted →
          Searched E g p ar (searchUnsorted ar p n m2 (first l ar.unsortedbin)) := by
        intro m2 g2 b h2 hcell2 hkind2 hring2
        have hsh2 : Shuffled g g2 := hsh1.trans (shuffled_update hcell2 hkind2 (by simp [hk1]) rfl)
        have hset2 : g2.Settled := by
          intro d w hw
          rw [hcell2] at hw
          by_cases hdc : d = c
          · simp [hkind2, hdc]
          · simpa [hkind2, hdc] using hset1 d w hdc hw
        have htop2 : TopOk g2 ar :=
          topOk_of_kind htop1 rfl (c := c) (by simp [hk1]) fun d hd => by simp [hkind2, hd]
        have hring : g2.ring .unsorted = l := hring2.trans hring1
        have := ih h2 hset2 htop2 (n := n) hring hn
        rcases this with ⟨m', g', hr, h', hsh', hset', htop', hpass'⟩ | ⟨v, m', hr, hf⟩
        · have hkind : ∀ d, d ≠ c → g2.kind d = g.kind d := by
            intro d hd
            simp [hkind2, hkind1, hd]
          refine .inl ⟨m', g', hr, h', hsh2.trans hsh', hset', htop', ?_, ?_⟩
          · intro d y hkd hy
            by_cases hdc : d = c
            · subst hdc
              cases hz.symm.trans hy
              omega
            · exact hpass'.1 d y ((hkind d hdc).trans hkd) (by rw [hsh2.cell, hy])
          · intro d i hkd
            refine hpass'.2 d i ?_
            rw [hkind d (by rintro rfl; simp [hk] at hkd), hkd]
        · exact .inr ⟨v, m', hr, hf.of_shuffled hsh2⟩
      rw [if_neg hle]
      by_cases hsmall : z < 16 * SMALLBINS_COUNT
      · obtain ⟨m2, g2, i, hm2, h2, hcell2, hkind2, hring2⟩ := insertIntoSmallbin_spec h1 hz1 hk1 hsmall
        rw [if_pos hsmall, hm2]
        exact hmove h2 hcell2 hkind2 hring2
      · obtain ⟨m2, g2, i, hm2, h2, hcell2, hkind2, hring2⟩ := insertIntoLargebin_spec h1 hz1 hk1 (by omega)
        rw [if_neg hsmall, hm2]
        exact hmove h2 hcell2 hkind2 hring2

theorem unsortedbinSearch_spec : Searched E g p ar (unsortedbinSearch ar m p) := by
  have hlen : (g.ring .unsorted).length < fuel ar := by
    refine length_lt_fuel h (h.bins.ringNodup _) fun a ha => ?_
    simp [(h.bins.ring _ a).mp ha]
  have hfirst : fd m ar.unsortedbin = first (g.ring .unsorted) ar.unsortedbin := (h.links.ring .unsorted trivial).next_eq
  unfold unsortedbinSearch
  rw [hfirst]
  exact searchUnsorted_spec h hm hset htop hp hlen

end Picasso.Alloc.Invariant
