import Picasso.Alloc.Allocate

namespace Picasso.Alloc.Invariant

open Chunk Allocator Layout Lib.Ring Function Option

attribute [local simp] Kind.settled Kind.busy Kind.plain Kind.sized Kind.curr Kind.used Kind.flat Ghost.retag Ghost.merge

variable {E : Env} {g g' g'' : Ghost} {ar : Arena} {m : Mem} {s : State}

structure Steady (g g' : Ghost) : Prop where
  busy : ∀ c, (g.kind c).busy = true ∨ (g'.kind c).busy = true → g'.kind c = g.kind c ∧ g'.cell c = g.cell c
  block : ∀ c z, g'.cell c = some (.block z) ↔ g.cell c = some (.block z)
  owned : ∀ a, g'.Owned a → g.Owned a
  chunk : ∀ c z, g'.cell c = some (.chunk z) → ∃ y, g.cell c = some (.chunk y)

namespace Steady

theorem refl (g : Ghost) : Steady g g := ⟨fun _ _ => ⟨rfl, rfl⟩, fun _ _ => Iff.rfl, fun _ h => h, fun _ z h => ⟨z, h⟩⟩

theorem trans (h : Steady g g') (h' : Steady g' g'') : Steady g g'' := by
  refine ⟨fun c hc => ?_, fun c z => (h'.block c z).trans (h.block c z), fun a ha => h.owned a (h'.owned a ha),
    fun c z hz => (h'.chunk c z hz).elim (h.chunk c)⟩
  by_cases hb : (g'.kind c).busy = true
  · obtain ⟨h1, h2⟩ := h.busy c (.inr hb)
    obtain ⟨h3, h4⟩ := h'.busy c (.inl hb)
    exact ⟨h3.trans h1, h4.trans h2⟩
  · rcases hc with hc | hc
    · rw [← (h.busy c (.inl hc)).1] at hc
      exact absurd hc hb
    · rw [(h'.busy c (.inr hc)).1] at hc
      exact absurd hc hb

end Steady

theorem Shuffled.steady (h : Shuffled g g') : Steady g g' := by
  refine ⟨fun c hc => ⟨h.busy c hc, by rw [h.cell]⟩, fun c z => by rw [h.cell], fun a ha => ?_,
    fun c z hz => ⟨z, h.cell ▸ hz⟩⟩
  unfold Ghost.Owned at ha ⊢
  rwa [h.cell] at ha

variable {c z y w a c' : Nat} {b : Bool}

theorem steady_retag {k : Kind} (hc : (g.kind c).busy = false) (hk : k.busy = false) : Steady g (g.retag c k) := by
  have hs : Shuffled g (g.retag c k) := shuffled_update (p := c) rfl rfl hc hk
  exact hs.steady

theorem steady_merge (hc : g.cell c = some (.chunk z)) (hn : g.cell (c + 16 + z) = some (.chunk y))
    (hb : (g.kind c).busy = false) (hb' : (g.kind (c + 16 + z)).busy = false) : Steady g (g.merge c z y) := by
  have hne : c + 16 + z ≠ c := by omega
  refine ⟨?_, ?_, ?_, ?_⟩
  · intro d hd
    by_cases h1 : d = c
    · subst h1
      simp [hb, hb', -Kind.busy] at hd
    · by_cases h2 : d = c + 16 + z
      · subst h2
        simp only [Ghost.merge, update_of_ne hne, update_self, hb'] at hd
        simp at hd
      · simp [h1, h2]
  · intro d w
    simp only [Ghost.merge, update_apply]
    by_cases h1 : d = c
    · subst h1
      simp [hc]
    · by_cases h2 : d = c + 16 + z
      · subst h2
        simp [h1, hn]
      · simp [h1, h2]
  · rintro a ⟨d, x, hd, hle, hlt⟩
    simp only [Ghost.merge, update_apply] at hd
    by_cases h1 : d = c
    · subst h1
      simp only [if_true, Option.some.injEq] at hd
      subst hd
      simp only [Cell.extent_chunk] at hlt
      by_cases hlow : a < d + 16 + z
      · exact owned_chunk hc (by omega)
      · exact owned_chunk hn (by omega)
    · by_cases h2 : d = c + 16 + z
      · simp [h2, hne] at hd
      · rw [if_neg h1, if_neg h2] at hd
        exact ⟨d, x, hd, hle, hlt⟩
  · intro d x hd
    simp only [Ghost.merge, update_apply] at hd
    by_cases h1 : d = c
    · exact ⟨z, h1 ▸ hc⟩
    · by_cases h2 : d = c + 16 + z
      · exact ⟨y, h2 ▸ hn⟩
      · rw [if_neg h1, if_neg h2] at hd
        exact ⟨x, hd⟩

theorem absorb_spec (h : Inv E g ar m) {k : Bool} (hc : g.cell c = some (.chunk z))
    (hn : g.cell (c + 16 + z) = some (.chunk w)) (hp : (g.kind c).plain = true) (hb : (g.kind c).busy = false)
    (hnp : (g.kind (c + 16 + z)).plain = true) (hnb : (g.kind (c + 16 + z)).busy = false)
    (hk : hasFlag (m (c + 8)) CURR_IN_USE = k) {v : Nat}
    (hv : E.marked = true → hasFlag v GC_MARK = hasFlag (m (c + 16 + (z + 16 + w))) GC_MARK) :
    Inv E (((g.retag (c + 16 + z) .loose).merge c z w).retag c (.held k)) ar
      ((m.set (c + 8) (z + 16 + w + flagBits (m (c + 8)))).set (c + 16 + (z + 16 + w)) v) := by
  have hal := h.tiled.chunk c z hc
  have hal' := h.tiled.chunk _ w hn
  have hne : c + 16 + z ≠ c := by omega
  have h1 := h.loosen hn hnp hnb
  have h2 := h1.merge (c := c) (z := z) (y := w) hc hn (by simpa [hne.symm] using hp)
    (by simpa [hne.symm] using hb) (by simp)
  generalize hg2 : (g.retag (c + 16 + z) .loose).merge c z w = g2 at h2
  have hc2 : g2.cell c = some (.chunk (z + 16 + w)) := by simp [← hg2]
  have hk2 : g2.kind c = .loose := by simp [← hg2]
  have hz2 : (z + 16 + w) % 16 = 0 := by omega
  have h3 := h2.setLooseHead (v := z + 16 + w + flagBits (m (c + 8))) hc2 (by simp [hk2])
    (prev_add_flagBits _ hz2)
  have h4 := h3.setNextPrevSize (v := v) hc2 (by simp [hk2]) (by
    intro hm _ _
    rw [set_of_ne (by omega)]
    exact hv hm)
  refine h4.retag hc2 (by simp [hk2]) rfl ⟨?_, ?_⟩ ⟨?_, ?_⟩ (by simp) (by simp)
    (by simp [hk2]) (by simp)
  · intro _
    rw [set_of_ne (by omega), set_self]
    exact sizeBits_add_flagBits _ hz2
  · simp only [Kind.curr, Option.some.injEq, forall_eq']
    rw [set_of_ne (by omega), set_self, curr_add_flagBits _ hz2]
    exact hk
  · simp
  · simp

/-- The chunk `c'` reaches as far as `c` did, and nothing else is in the middle of a call. -/
structure InHand (E : Env) (g g' : Ghost) (ar : Arena) (m m' : Mem) (c z c' z' : Nat) (inuse : Bool) : Prop where
  inv : Inv E g' ar m'
  cell : g'.cell c' = some (.chunk z')
  kind : g'.kind c' = .held inuse
  last : c' + 16 + z' = c + 16 + z
  first : c' ≤ c
  steady : Steady g g'
  settled : g'.SettledBut c'
  behind : g'.cell (c + 16 + z) = g.cell (c + 16 + z) ∧ g'.kind (c + 16 + z) = g.kind (c + 16 + z)
  head : m' (c + 16 + z + 8) = m (c + 16 + z + 8)
  top : ∀ d, g.kind d = .top → g'.kind d = .top
  crown : ∀ d, g'.kind d = .top → g.kind d = .top ∧ m' (d + 8) = m (d + 8)

theorem setSizes_eq (hy : y % 16 = 0) (hy0 : 0 < y) : nextChunk (setSize m c y (getSizeFlags m c)) c = c + 16 + y ∧
      ∀ f, setPrevSize (setSize m c y (getSizeFlags m c)) (c + 16 + y) y f =
        some ((m.set (c + 8) (y + flagBits (m (c + 8)))).set (c + 16 + y) (y + f)) := by
  constructor
  · exact nextChunk_eq (by simp [setSize, getSizeFlags, size, sizeBits_add_flagBits _ hy])
  · intro f
    rw [setPrevSize, if_neg (by omega)]
    rfl

def mergeSizes (m : Mem) (a n : Nat) : Option Mem :=
  let updated := getSize m a + HEADER_SIZE + getSize m n
  let m := setSize m a updated (getSizeFlags m a)
  setPrevSize m (nextChunk m a) updated (getPrevSizeFlags m (nextChunk m a))

theorem mergeSizes_eq (ha : getSize m a = y) (hn : getSize m (a + 16 + y) = w) (h16 : (y + 16 + w) % 16 = 0) :
    mergeSizes m a (a + 16 + y) = some ((m.set (a + 8) (y + 16 + w + flagBits (m (a + 8)))).set (a + 16 + (y + 16 + w))
      (y + 16 + w + flagBits (m (a + 16 + (y + 16 + w))))) := by
  obtain ⟨hnext, hset⟩ := setSizes_eq (m := m) (c := a) h16 (by omega)
  have hflags : getPrevSizeFlags (setSize m a (y + 16 + w) (getSizeFlags m a)) (a + 16 + (y + 16 + w)) =
      flagBits (m (a + 16 + (y + 16 + w))) := by
    rw [getPrevSizeFlags, prevSize, setSize, set_of_ne (by omega)]
  simp only [mergeSizes, ha, hn, show y + HEADER_SIZE + w = y + 16 + w from rfl, hnext, hflags, hset]

structure Joined (E : Env) (g g' : Ghost) (ar : Arena) (m m' : Mem) (a y w : Nat) (b : Bool) : Prop where
  inv : Inv E g' ar m'
  cell : g'.cell a = some (.chunk (y + 16 + w))
  kind : g'.kind a = .held b
  steady : Steady g g'
  settled : g'.SettledBut a
  other : ∀ d, d ≠ a → d ≠ a + 16 + y → g'.cell d = g.cell d ∧ g'.kind d = g.kind d
  head : ∀ d x, g.cell d = some x → d ≠ a → m' (d + 8) = m (d + 8)
  top : ∀ d, g.kind d = .top → g'.kind d = .top
  crown : ∀ d, g'.kind d = .top → g.kind d = .top ∧ m' (d + 8) = m (d + 8)

/-- One of two neighbours is in a bin and the other in the caller's hands, and
the first of the two takes in the second. -/
theorem join_spec (h : Inv E g ar m) {e : Nat} {bin : Bin} {k : Bool} (ha : g.cell a = some (.chunk y))
    (hn : g.cell (a + 16 + y) = some (.chunk w)) (he : g.kind e = .binned bin) (hc : g.kind c = .held b)
    (hset : g.SettledBut c) (hec : e = a ∧ c = a + 16 + y ∧ k = false ∨ c = a ∧ e = a + 16 + y ∧ k = b) :
    ∃ m' g', mergeSizes (unlinkChunkFromSortedlist (unlinkChunkFromFdlist m e) e) a (a + 16 + y) = some m' ∧
      Joined E g g' ar m m' a y w k := by
  have hal := h.tiled.chunk a y ha
  have haln := h.tiled.chunk _ w hn
  have hne : a + 16 + y ≠ a := by omega
  have h16 : (y + 16 + w) % 16 = 0 := by omega
  obtain ⟨g1, h1, hcell1, hkind1, hhead1⟩ := detach_spec h he
  generalize unlinkChunkFromSortedlist (unlinkChunkFromFdlist m e) e = m1 at h1 hhead1 ⊢
  have ha1 : g1.cell a = some (.chunk y) := by rw [hcell1, ha]
  have hn1 : g1.cell (a + 16 + y) = some (.chunk w) := by rw [hcell1, hn]
  have hka : g1.kind a = .detached ∧ k = false ∨ g1.kind a = .held k := by
    obtain ⟨rfl, rfl, rfl⟩ | ⟨rfl, rfl, rfl⟩ := hec
    · exact .inl ⟨by simp [hkind1], rfl⟩
    · exact .inr (by simp [hkind1, hne.symm, hc])
  have hkn : g1.kind (a + 16 + y) = .detached ∨ g1.kind (a + 16 + y) = .held b := by
    obtain ⟨rfl, rfl, -⟩ | ⟨rfl, rfl, -⟩ := hec
    · exact .inr (by simp [hkind1, hne, hc])
    · exact .inl (by simp [hkind1])
  have hidle : (g1.kind a).busy = false ∧ (g1.kind (a + 16 + y)).busy = false := by
    constructor
    · obtain ⟨hk, -⟩ | hk := hka <;> simp [hk]
    · obtain hk | hk := hkn <;> simp [hk]
  have hplain : (g1.kind a).plain = true ∧ (g1.kind (a + 16 + y)).plain = true := by
    constructor
    · obtain ⟨hk, -⟩ | hk := hka <;> simp [hk]
    · obtain hk | hk := hkn <;> simp [hk]
  have hsize : getSize m1 a = y ∧ getSize m1 (a + 16 + y) = w := by
    constructor
    · exact (h1.words.own a y ha1).size (by obtain ⟨hk, -⟩ | hk := hka <;> simp [hk])
    · exact (h1.words.own _ w hn1).size (by obtain hk | hk := hkn <;> simp [hk])
  have hcurr : hasFlag (m1 (a + 8)) CURR_IN_USE = k := by
    refine (h1.words.own a y ha1).curr k ?_
    obtain ⟨hk, rfl⟩ | hk := hka <;> simp [hk]
  have hinv := absorb_spec h1 (v := y + 16 + w + flagBits (m1 (a + 16 + (y + 16 + w)))) ha1 hn1 hplain.1 hidle.1
    hplain.2 hidle.2 hcurr (fun _ => mark_add_flagBits _ h16)
  generalize hg' : ((g1.retag (a + 16 + y) .loose).merge a y w).retag a (.held k) = g' at hinv
  have hcells : g'.cell a = some (.chunk (y + 16 + w)) ∧ g'.cell (a + 16 + y) = none := by
    simp [← hg', hne]
  have hkinds : g'.kind a = .held k ∧ g'.kind (a + 16 + y) = .loose := by
    simp [← hg', hne]
  have hother : ∀ d, d ≠ a → d ≠ a + 16 + y → g'.cell d = g.cell d ∧ g'.kind d = g.kind d := by
    intro d h₁ h₂
    have hde : d ≠ e := by omega
    simp [← hg', h₁, h₂, hcell1, hkind1, hde]
  have hhead : ∀ d x, g.cell d = some x → d ≠ a →
      (m1.set (a + 8) (y + 16 + w + flagBits (m1 (a + 8)))).set (a + 16 + (y + 16 + w))
        (y + 16 + w + flagBits (m1 (a + 16 + (y + 16 + w)))) (d + 8) = m (d + 8) := by
    intro d x hd hda
    have hsep : d + 8 ≠ a + 16 + (y + 16 + w) := by
      by_cases hdn : d = a + 16 + y
      · omega
      · have hge := h.tiled.extent_ge hd
        have hapart := h.tiled.apart_of_ne hd hn hdn
        rw [Cell.extent_chunk] at hapart
        omega
    rw [set_of_ne hsep, set_of_ne (by omega)]
    exact (hhead1 d x hd).2
  refine ⟨_, g', mergeSizes_eq hsize.1 hsize.2 h16, hinv, hcells.1, hkinds.1, ?_, ?_, hother, hhead, ?_, ?_⟩
  · have hs1 : Steady g g1 := (shuffled_update hcell1 hkind1 (by simp [he]) rfl).steady
    have hs2 : Steady g1 (g1.retag (a + 16 + y) .loose) := steady_retag hidle.2 rfl
    rw [← hg']
    refine hs1.trans (hs2.trans ((steady_merge (g := g1.retag (a + 16 + y) .loose) ha1 hn1 ?_ ?_).trans
      (steady_retag (k := .held k) ?_ rfl)))
    · simpa [hne.symm] using hidle.1
    · simp
    · simp
  · intro d x hd hx
    have hdn : d ≠ a + 16 + y := by
      rintro rfl
      rw [hcells.2] at hx
      cases hx
    obtain ⟨hcd, hkd⟩ := hother d hd hdn
    rw [hcd] at hx
    rw [hkd]
    exact hset d x (by omega) hx
  · intro d hd
    have hde : d ≠ e := by
      rintro rfl
      simp [he] at hd
    have hdc : d ≠ c := by
      rintro rfl
      simp [hc] at hd
    rw [(hother d (by omega) (by omega)).2]
    exact hd
  · intro d hd
    have hda : d ≠ a := by
      rintro rfl
      simp [hkinds.1] at hd
    have hdn : d ≠ a + 16 + y := by
      rintro rfl
      simp [hkinds.2] at hd
    rw [(hother d hda hdn).2] at hd
    obtain ⟨x, hx⟩ := h.bins.home d (by simp [hd])
    exact ⟨hd, hhead d _ hx hda⟩

theorem backwardCoalesce_spec (h : Inv E g ar m) (hc : g.cell c = some (.chunk z)) (hk : g.kind c = .held b)
    (hset : g.SettledBut c) :
    ∃ c' z' b' m' g', backwardCoalesce m c = some (c', m') ∧ InHand E g g' ar m m' c z c' z' b' ∧
      (b' = false ∨ b' = b ∧ hasFlag (m (c + 8)) PREV_IN_USE = true) := by
  have hal := h.tiled.chunk c z hc
  unfold backwardCoalesce
  by_cases hprev : isPrevInuse m c = true
  · rw [if_pos hprev]
    exact ⟨c, z, b, m, g, rfl, ⟨h, hc, hk, rfl, by omega, .refl g, hset, ⟨rfl, rfl⟩, rfl, fun _ hd => hd,
      fun _ hd => ⟨hd, rfl⟩⟩, .inr ⟨rfl, hprev⟩⟩
  · rw [if_neg hprev]
    -- the bit is set at the start of a heap, so there is a chunk in front, and it is in a bin
    rcases h.tiled.pred c _ hc rfl with ⟨e, he⟩ | ⟨p, y, hp, rfl⟩
    · exact absurd (h.words.start c e he) hprev
    have hpne : p ≠ p + 16 + y := by omega
    have hkp : ∃ bin, g.kind p = .binned bin := by
      have hs := hset p y hpne hp
      have hf := (h.words.foot p y hp).used
      have hprev' : hasFlag (m (p + 16 + y + 8)) PREV_IN_USE = false := by simpa [isPrevInuse, size] using hprev
      cases hkp : g.kind p <;> simp_all
    obtain ⟨bin, hkp⟩ := hkp
    have haly := h.tiled.chunk p y hp
    have hsize : getSize m p = y := (h.words.own p y hp).size (by simp [hkp])
    have hps : getPrevSize m (p + 16 + y) = y := (h.words.foot p y hp).prev (by simp [hkp])
    have hpp : prevChunk m (p + 16 + y) = p := by
      simp only [prevChunk, HEADER_SIZE, hps]
      omega
    obtain ⟨m', g', hm', hj⟩ := join_spec h hp hc hkp hk hset (.inl ⟨rfl, rfl, rfl⟩)
    obtain ⟨x, hx, -⟩ := h.tiled.next _ z hc
    refine ⟨p, y + 16 + z, false, m', g', ?_, ⟨hj.inv, hj.cell, hj.kind, by omega, by omega, hj.steady, hj.settled,
      hj.other _ (by omega) (by omega), hj.head _ x hx (by omega), hj.top, hj.crown⟩, .inl rfl⟩
    simp only [hpp]
    rw [if_neg (by omega)]
    exact congrArg (Option.bind · _) hm'

/-- The header at `n` still tells where the next one is: a cell is there, or
one was and a chunk that is not in use has taken it in. -/
def Passed (g : Ghost) (m : Mem) (n : Nat) : Prop :=
  (∃ y, g.cell n = some y ∧ y.inHeap = true) ∨
    ∃ d x w, g.cell d = some (.chunk x) ∧ (g.kind d).busy = false ∧ d + 48 ≤ n ∧ n + 16 + w = d + 16 + x ∧
      sizeBits (m (n + 8)) = w ∧ hasFlag (m (n + 8)) CURR_IN_USE = false

/-- The chunk behind is left alone, taken in, or was the top chunk and the two are the top chunk now. -/
inductive Forward (E : Env) (g : Ghost) (s : State) (c z : Nat) (b : Bool) : Nat → State → Prop
  | same : Forward E g s c z b c s
  | merged (w : Nat) (m' : Mem) (g' : Ghost) (hn : g.cell (c + 16 + z) = some (.chunk w)) (inv : Inv E g' s.ar m')
      (cell : g'.cell c = some (.chunk (z + 16 + w))) (kind : g'.kind c = .held b) (steady : Steady g g')
      (settled : g'.SettledBut c) (top : ∀ d, g.kind d = .top → g'.kind d = .top)
      (crown : ∀ d, g'.kind d = .top → g.kind d = .top ∧ m' (d + 8) = s.mem (d + 8))
      (size : sizeBits (m' (c + 16 + z + 8)) = w) (curr : hasFlag (m' (c + 16 + z + 8)) CURR_IN_USE = false) :
      Forward E g s c z b c { s with mem := m' }
  | top (w : Nat) (m' : Mem) (g' : Ghost) (hn : g.cell (c + 16 + z) = some (.chunk w))
      (inv : Inv E g' { s.ar with topChunk := c } m') (cell : g'.cell c = some (.chunk (z + 16 + w)))
      (kind : g'.kind c = .top) (steady : Steady g g') (settled : g'.Settled)
      (size : sizeBits (m' (c + 16 + z + 8)) = w) (curr : hasFlag (m' (c + 16 + z + 8)) CURR_IN_USE = false) :
      Forward E g s c z b 0 { s with mem := m', ar := { s.ar with topChunk := c } }

/-- The chunk behind one in the caller's hands is the top chunk or in a bin, if
it is free and too large for the fast bins. -/
theorem behind_kind (h : Inv E g ar m) (hc : g.cell c = some (.chunk z)) (hset : g.SettledBut c)
    (hcurr : isCurrInuse m (c + 16 + z) = false) (hbig : 16 * FASTBINS_COUNT < getSize m (c + 16 + z)) :
    ∃ w, g.cell (c + 16 + z) = some (.chunk w) ∧ getSize m (c + 16 + z) = w ∧
      (g.kind (c + 16 + z) = .top ∨ ∃ bin, g.kind (c + 16 + z) = .binned bin) := by
  -- a boundary and the chunks in use have the bit, those of the fast bins are small
  obtain ⟨x, hx, hin⟩ := h.tiled.next c z hc
  obtain ⟨w, rfl⟩ : ∃ w, x = .chunk w := by
    cases x with
    | chunk w => exact ⟨w, rfl⟩
    | bound =>
      have := (h.words.bound _ hx).2
      simp [isCurrInuse, size, this] at hcurr
    | sentinel | block => simp at hin
  have hsn := hset _ w (by omega) hx
  have hown := h.words.own _ w hx
  have hcurr' : hasFlag (m (c + 16 + z + 8)) CURR_IN_USE = false := hcurr
  refine ⟨w, hx, hown.size ?_, ?_⟩
  · cases hk : g.kind (c + 16 + z) <;> simp_all
  · cases hk : g.kind (c + 16 + z) with
    | live | unmapped =>
      have hcu := hown.curr true (by simp [hk])
      simp [hcu] at hcurr'
    | fast i =>
      have hfits := h.bins.fits _ w hx
      rw [hk] at hfits
      have h1 := hfits.1
      have h2 := hfits.2
      rw [show getSize m (c + 16 + z) = w from hown.size (by simp [hk])] at hbig
      unfold FASTBINS_COUNT at hbig h1
      omega
    | binned bin => exact .inr ⟨bin, rfl⟩
    | top => exact .inl rfl
    | ranked | detached | held | carved | loose => simp [hk] at hsn

theorem crown_spec (h : Inv E g ar m) (hc : g.cell c = some (.chunk z)) (hx : g.cell (c + 16 + z) = some (.chunk w))
    (hk : g.kind c = .held b) (hkn : g.kind (c + 16 + z) = .top) (hset : g.SettledBut c)
    (hstrict : E.strict = true → b = false) : ∃ g', Inv E g' { ar with topChunk := c }
        ((m.set (c + 8) (z + 16 + w + flagBits (m (c + 8)))).set (c + 16 + (z + 16 + w)) (z + 16 + w + 0)) ∧
      g'.cell c = some (.chunk (z + 16 + w)) ∧ g'.kind c = .top ∧ Steady g g' ∧ g'.Settled := by
  have hal := h.tiled.chunk c z hc
  have halw := h.tiled.chunk _ w hx
  have hne : c + 16 + z ≠ c := by omega
  have h16 : (z + 16 + w) % 16 = 0 := by omega
  have hused := (h.words.foot _ w hx).used true (by simp [hkn])
  have h1 := h.carve hx (by simp [hkn]) (by simp [hkn]) hused
  have h2 := h1.merge (c := c) (z := z) (y := w) hc hx (by simp [hne.symm, hk])
    (by simp [hne.symm, hk]) (by simp)
  generalize hg2 : (g.retag (c + 16 + z) .carved).merge c z w = g2 at h2
  have hc2 : g2.cell c = some (.chunk (z + 16 + w)) := by simp [← hg2]
  have hk2 : g2.kind c = .carved := by simp [← hg2]
  have hko2 : ∀ d, d ≠ c → d ≠ c + 16 + z → g2.kind d = g.kind d ∧ g2.cell d = g.cell d := by
    intro d h₁ h₂
    simp [← hg2, h₁, h₂]
  have hkn2 : g2.kind (c + 16 + z) = .loose ∧ g2.cell (c + 16 + z) = none := by
    simp [← hg2, hne]
  have hno2 : ∀ d, g2.kind d ≠ .top := by
    intro d hd
    by_cases h₁ : d = c
    · simp [h₁, hk2] at hd
    · by_cases h₂ : d = c + 16 + z
      · simp [h₂, hkn2] at hd
      · rw [(hko2 d h₁ h₂).1] at hd
        exact h₂ ((top_unique h hd).trans (top_unique h hkn).symm)
  have hb2 : g2.cell (c + 16 + (z + 16 + w)) = some .bound := by
    rw [(hko2 _ (by omega) (by omega)).2, show c + 16 + (z + 16 + w) = c + 16 + z + 16 + w by omega]
    exact (h.bins.top _ w hkn hx).2
  have h3 := h2.setLooseHead (v := z + 16 + w + flagBits (m (c + 8))) hc2 (by simp [hk2])
    (prev_add_flagBits _ h16)
  have h4 := h3.setNextPrevSize (v := z + 16 + w + 0) hc2 (by simp [hk2]) (by
    intro _ y hy
    simp [hb2] at hy)
  have h5 := h4.setTop hno2 c
  have hw5 : (m.set (c + 8) (z + 16 + w + flagBits (m (c + 8)))).set (c + 16 + (z + 16 + w)) (z + 16 + w + 0) (c + 8) =
      z + 16 + w + flagBits (m (c + 8)) := by
    rw [set_of_ne (by omega), set_self]
  have hfoot := (h5.words.foot c _ hc2).used true (by simp [hk2])
  refine ⟨_, h5.retag (k := .top) hc2 (by simp [hk2]) rfl ⟨fun _ => ?_, fun b' hb' => ?_⟩
    ⟨by simpa using hfoot, by simp⟩ (by simp) (fun _ => ⟨rfl, hb2⟩)
    (by simp [hk2]) (by simp), hc2, by simp, ?_, ?_⟩
  · rw [hw5]
    exact sizeBits_add_flagBits _ h16
  · rw [hw5, curr_add_flagBits _ h16]
    have hcb := (h.words.own c z hc).curr b (by simp [hk])
    cases hst : E.strict with
    | false => simp [hst] at hb'
    | true =>
      rw [hcb, hstrict hst]
      simpa [hst] using hb'
  · have hs1 : Steady g (g.retag (c + 16 + z) .carved) := steady_retag (by simp [hkn]) rfl
    have hs2 : Steady (g.retag (c + 16 + z) .carved) g2 := by
      rw [← hg2]
      exact steady_merge hc hx (by simp [hne.symm, hk]) (by simp)
    exact hs1.trans (hs2.trans (steady_retag (by simp [hk2]) rfl))
  · intro d y hd
    by_cases h₁ : d = c
    · simp [h₁]
    · by_cases h₂ : d = c + 16 + z
      · simp [h₂, hkn2] at hd
      · simp only [Ghost.retag, (hko2 d h₁ h₂).2, update_of_ne h₁, (hko2 d h₁ h₂).1] at hd ⊢
        exact hset d y h₁ hd

theorem forwardCoalesce_spec (h : Inv E g s.ar s.mem) (hc : g.cell c = some (.chunk z)) (hk : g.kind c = .held b)
    (hset : g.SettledBut c) (htop : s.ar.topChunk = c + 16 + z → g.kind (c + 16 + z) = .top)
    (hstrict : E.strict = true → b = true → g.kind (c + 16 + z) = .top → ∀ w, g.cell (c + 16 + z) = some (.chunk w) →
      w ≤ 16 * FASTBINS_COUNT) : ∃ c' s', forwardCoalesce s c = some (c', s') ∧ Forward E g s c z b c' s' := by
  have hal := h.tiled.chunk c z hc
  have hs : getSize s.mem c = z := (h.words.own c z hc).size (by simp [hk])
  have hn : nextChunk s.mem c = c + 16 + z := nextChunk_eq hs
  unfold forwardCoalesce
  simp only [hn]
  by_cases hkeep : isCurrInuse s.mem (c + 16 + z) = true ∨ getSize s.mem (c + 16 + z) ≤ 16 * FASTBINS_COUNT
  · rw [if_pos hkeep]
    exact ⟨c, s, rfl, .same⟩
  rw [if_neg hkeep]
  simp only [not_or, Bool.not_eq_true, Nat.not_le] at hkeep
  obtain ⟨hcurr, hbig⟩ := hkeep
  obtain ⟨w, hx, hw, hkn⟩ := behind_kind h hc hset hcurr hbig
  have halw := h.tiled.chunk _ w hx
  rcases hkn with hkn | ⟨bin, hkn⟩
  · have hfree : E.strict = true → b = false := by
      intro hst
      by_contra hb
      have := hstrict hst (by simpa using hb) hkn w hx
      omega
    obtain ⟨g', h', hcell, hkind, hsteady, hsettled⟩ := crown_spec h hc hx hk hkn hset hfree
    obtain ⟨hn2, hsp⟩ := setSizes_eq (m := s.mem) (c := c) (y := z + 16 + w) (by omega) (by omega)
    rw [if_pos (top_unique h hkn), hs, hw, show z + HEADER_SIZE + w = z + 16 + w from rfl]
    have hhead : (s.mem.set (c + 8) (z + 16 + w + flagBits (s.mem (c + 8)))).set (c + 16 + (z + 16 + w))
        (z + 16 + w + 0) (c + 16 + z + 8) = s.mem (c + 16 + z + 8) := by
      rw [set_of_ne, set_of_ne] <;> omega
    refine ⟨0, _, ?_, .top w _ g' hx h' hcell hkind hsteady hsettled (hhead ▸ hw) (hhead ▸ hcurr)⟩
    simp only [hn2, hsp]
    rfl
  · have hnt : c + 16 + z ≠ s.ar.topChunk := by
      intro he
      have := htop he.symm
      simp [hkn] at this
    rw [if_neg hnt]
    obtain ⟨m', g', hm', hj⟩ := join_spec h hc hx hkn hk hset (.inr ⟨rfl, rfl, rfl⟩)
    have hhead := hj.head _ _ hx (by omega)
    refine ⟨c, _, ?_, .merged w m' g' hx hj.inv hj.cell hj.kind hj.steady hj.settled hj.top hj.crown (hhead ▸ hw)
      (hhead ▸ hcurr)⟩
    exact congrArg (Option.bind · _) hm'

structure Freed (g g' : Ghost) (c : Nat) : Prop where
  idle : (g'.kind c).busy = false
  busy : ∀ d, d ≠ c → (g.kind d).busy = true ∨ (g'.kind d).busy = true → g'.kind d = g.kind d ∧ g'.cell d = g.cell d
  block : ∀ d z, g'.cell d = some (.block z) ↔ g.cell d = some (.block z)
  owned : ∀ a, g'.Owned a → g.Owned a
  chunk : ∀ d z, g'.cell d = some (.chunk z) → ∃ y, g.cell d = some (.chunk y)
  settled : g'.Settled

theorem Steady.freed {k : Kind} (hk : k.busy = false) (h : Steady (g.retag c k) g') (hset : g'.Settled) :
    Freed g g' c := by
  have hc : ¬ (g'.kind c).busy = true := by
    intro hb
    rw [(h.busy c (.inr hb)).1] at hb
    simp [hk, -Kind.busy] at hb
  refine ⟨by simpa using hc, ?_, h.block, h.owned, h.chunk, hset⟩
  intro d hd hb
  have := h.busy d (by simpa [hd] using hb)
  simpa [hd] using this

structure Kept (s s' : State) : Prop where
  heaps : s'.ar.allocedHeaps = s.ar.allocedHeaps
  growth : s'.ar.heapConstantGrowthIters = s.ar.heapConstantGrowthIters
  mapped : s'.mapped = s.mapped
  unmapped : s'.unmapped = s.unmapped

theorem insertIntoFastbin_spec (h : Inv E g s.ar s.mem) (hc : g.cell c = some (.chunk z)) (hp : (g.kind c).plain = true)
    (hs : (g.kind c).sized = true) (hu : (g.kind c).used = some true) (hkeep : ∀ o, o < 16 + z → ¬ E.keep (c + o))
    (hz : z ≤ 16 * FASTBINS_COUNT) :
    ∃ m' f g' i, insertIntoFastbin s c = { s with mem := m', ar := { s.ar with fastbins := f } } ∧
      Inv E g' { s.ar with fastbins := f } m' ∧ g'.cell = g.cell ∧ g'.kind = update g.kind c (.fast i) ∧
      ∀ a, a ≠ c + 8 → a ≠ c + 16 → m' a = s.mem a := by
  have hal := h.tiled.chunk c z hc
  have hsize : getSize s.mem c = z := (h.words.own c z hc).size hs
  have hi : z / 16 - 1 < FASTBINS_COUNT := by
    unfold FASTBINS_COUNT at *
    omega
  have hfoot := (h.words.foot c z hc).used true hu
  have h1 : Inv E (g.retag c .carved) s.ar s.mem := by
    refine h.retag hc hp rfl ⟨?_, ?_⟩ ⟨?_, ?_⟩ ?_ ?_ (fun _ => .inr hkeep) ?_ <;>
      simp [hfoot]
  have hk1 : (g.retag c .carved).kind c = .carved := by simp
  have h2 := h1.setBody (o := 16) hc (by omega) (s.ar.fastbins (z / 16 - 1)) (by simp)
    (by simp) (by omega)
  have hw2 : s.mem.set (c + 16) (s.ar.fastbins (z / 16 - 1)) (c + 8) = s.mem (c + 8) := set_of_ne (by omega)
  have h3 := h2.setLooseHead (v := withoutFlag (s.mem (c + 8)) CURR_IN_USE) hc (by simp)
    (by simp [hw2])
  generalize hm3 : (s.mem.set (c + 16) (s.ar.fastbins (z / 16 - 1))).set (c + 8)
    (withoutFlag (s.mem (c + 8)) CURR_IN_USE) = m3 at h3
  have hw3 : m3 (c + 8) = withoutFlag (s.mem (c + 8)) CURR_IN_USE := by simp [← hm3]
  have hfd3 : fd m3 c = s.ar.fastbins (z / 16 - 1) := by
    rw [fd, ← hm3, set_of_ne (by omega), set_self]
  have hout : c ∉ g.fast (z / 16 - 1) := by
    rw [h.bins.fast]
    intro he
    simp [he] at hp
  have h4 := h3.refast (c := c) (z := z) (i := z / 16 - 1) (q := c) (k := .fast (z / 16 - 1))
    (l := c :: g.fast (z / 16 - 1)) hc (.inl hk1) (.inr rfl)
    ⟨fun _ => by rw [hw3, sizeBits_withoutFlag_curr]; exact hsize, by simp [hw3]⟩ ⟨hi, by omega⟩
    (moved_insert (l := []) (h.bins.fastNodup _) hout rfl)
    ⟨rfl, by rw [hfd3]; exact h3.links.fast _ hi⟩
  refine ⟨m3, _, _, z / 16 - 1, ?_, h4, rfl, by simp [Ghost.refast], fun a h₁ h₂ => by
    rw [← hm3, set_of_ne h₁, set_of_ne h₂]⟩
  unfold insertIntoFastbin
  rw [hsize, getSmallbinIndex_eq (by omega)]
  dsimp only
  rw [if_pos hi]
  have hmem : unsetCurrInuse (s.mem.set (c + 16) (s.ar.fastbins (z / 16 - 1))) c = m3 := by
    rw [← hm3, unsetCurrInuse, size, hw2]
  rw [hmem]

/-- A release that would leave the in-use bit on the top chunk. -/
def Sticks (g : Ghost) (m : Mem) (c z : Nat) : Prop :=
  16 * FASTBINS_COUNT < z ∧ isPrevInuse m c = true ∧ g.kind (c + 16 + z) = .top ∧
    ∃ w, g.cell (c + 16 + z) = some (.chunk w) ∧ 16 * FASTBINS_COUNT < w

/-- The top chunk has taken `c` in, or is the old one with its in-use bit as it was. -/
def Crowned (g g' : Ghost) (m m' : Mem) (c : Nat) : Prop :=
  ∀ t x, g'.kind t = .top → g'.cell t = some (.chunk x) → t ≤ c ∧ c < t + 16 + x ∨
    g.kind t = .top ∧ hasFlag (m' (t + 8)) CURR_IN_USE = hasFlag (m (t + 8)) CURR_IN_USE

theorem passed_same (h : Inv E g ar m) (hc : g.cell c = some (.chunk z)) {m' : Mem}
    (hg : g'.cell (c + 16 + z) = g.cell (c + 16 + z)) : Passed g' m' (c + 16 + z) := by
  obtain ⟨y, hy, hin⟩ := h.tiled.next c z hc
  exact .inl ⟨y, hg.trans hy, hin⟩

theorem coalesce_eq {fc : Nat} {m' : Mem} {r : Nat × State} (hb : backwardCoalesce s.mem fc = some (c', m'))
    (hf : forwardCoalesce { s with mem := m' } c' = some r) : coalesce s fc = some r := by
  simp [coalesce, hb, hf]

structure Released (E : Env) (g g' : Ghost) (s s' : State) (c z : Nat) : Prop where
  inv : Inv E g' s'.ar s'.mem
  freed : Freed g g' c
  passed : Passed g' s'.mem (c + 16 + z)
  kept : Kept s s'
  topOk : g.kind c ≠ .top → TopOk g s.ar → TopOk g' s'.ar
  topChunk : s'.ar.topChunk = s.ar.topChunk ∨ TopOk g' s'.ar
  crowned : Crowned g g' s.mem s'.mem c

theorem released_fast (h : Inv E g s.ar s.mem) (hset : g.Settled) (hc : g.cell c = some (.chunk z))
    (hp : (g.kind c).plain = true) (hs : (g.kind c).sized = true) (hu : (g.kind c).used = some true)
    (hkeep : ∀ o, o < 16 + z → ¬ E.keep (c + o)) (hz : z ≤ 16 * FASTBINS_COUNT) :
    ∃ g', Released E g g' s (insertIntoFastbin s c) c z := by
  have hal := h.tiled.chunk c z hc
  obtain ⟨m', f, g', i, hr, h', hcell', hkind', hmem'⟩ := insertIntoFastbin_spec h hc hp hs hu hkeep hz
  rw [hr]
  refine ⟨g', h', ?_, passed_same h hc (by rw [hcell']), ⟨rfl, rfl, rfl, rfl⟩, ?_, .inl rfl, ?_⟩
  · refine ⟨by simp [hkind'], ?_, fun d w => by rw [hcell'], ?_, fun d w hw => ⟨w, hcell' ▸ hw⟩, ?_⟩
    · intro d hd _
      simp [hkind', hcell', hd]
    · intro a ha
      unfold Ghost.Owned at ha ⊢
      rwa [hcell'] at ha
    · intro d w hw
      rw [hcell'] at hw
      by_cases hd : d = c
      · simp [hkind', hd]
      · simpa [hkind', hd] using hset d w hw
  · intro hnt ht
    exact topOk_of_kind ht rfl hnt fun d hd => by simp [hkind', hd]
  · intro t x ht hx
    have htc : t ≠ c := by
      rintro rfl
      simp [hkind'] at ht
    rw [hkind', update_of_ne htc] at ht
    have := (h.tiled.chunk t x (hcell' ▸ hx)).1
    exact .inr ⟨ht, congrArg (hasFlag · CURR_IN_USE) (hmem' _ (by omega) (by omega))⟩

theorem released_unsorted {g2 : Ghost} {m2 : Mem} (h2 : Inv E g2 s.ar m2) (hc2 : g2.cell c' = some (.chunk y))
    (hk2 : g2.kind c' = .held b) (hset : g2.SettledBut c') (hsteady : Steady (g.retag c (.held true)) g2)
    (htop : ∀ d, (g.retag c (.held true)).kind d = .top → g2.kind d = .top)
    (hcrown : ∀ d, g2.kind d = .top → (g.retag c (.held true)).kind d = .top ∧ m2 (d + 8) = s.mem (d + 8))
    (hpass : ∀ {g3 : Ghost} {m3 : Mem}, g3.cell = g2.cell → (g3.kind c').busy = false →
      (∀ o, 48 ≤ o → o < 16 + y → m3 (c' + o) = m2 (c' + o)) → Passed g3 m3 (c + 16 + z)) :
    ∃ m3 g3, insertIntoUnsortedbin s.ar m2 c' = some m3 ∧ Released E g g3 s { s with mem := m3 } c z := by
  have hs2 := (h2.words.own c' y hc2).size (by simp [hk2])
  obtain ⟨m3, g3, hm3, h3, hcell3, hkind3, hdeep, hcurr3⟩ := insertIntoUnsortedbin_spec h2 hc2
    (by simp [hk2]) (by simp [hk2]) hs2
  refine ⟨m3, g3, hm3, h3, ?_, ?_, ⟨rfl, rfl, rfl, rfl⟩, ?_, .inl rfl, ?_⟩
  · refine (hsteady.trans (shuffled_update hcell3 hkind3 (by simp [hk2]) rfl).steady).freed rfl ?_
    intro d w hw
    rw [hcell3] at hw
    by_cases hd : d = c'
    · simp [hkind3, hd]
    · simpa [hkind3, hd] using hset d w hd hw
  · exact hpass hcell3 (by simp [hkind3]) hdeep
  · intro hnt ht
    rcases ht with ht | ht
    · exact .inl ht
    · right
      have hne : s.ar.topChunk ≠ c := by
        rintro he
        exact hnt (he ▸ ht)
      have h2t := htop s.ar.topChunk (by simpa [hne] using ht)
      have hne' : s.ar.topChunk ≠ c' := by
        rintro he
        simp [he, hk2] at h2t
      simpa [hkind3, hne'] using h2t
  · intro t x ht hx
    have htc' : t ≠ c' := by
      rintro rfl
      simp [hkind3] at ht
    rw [hkind3, update_of_ne htc'] at ht
    obtain ⟨ht0, hm2⟩ := hcrown t ht
    have htc : t ≠ c := by
      rintro rfl
      simp at ht0
    exact .inr ⟨by simpa [htc] using ht0, (hcurr3 t _ htc' (hcell3 ▸ hx)).trans (by rw [hm2])⟩

theorem release_spec (h : Inv E g s.ar s.mem) (hset : g.Settled) (hc : g.cell c = some (.chunk z))
    (hp : (g.kind c).plain = true) (hs : (g.kind c).sized = true) (hu : (g.kind c).used = some true)
    (hcurr : isCurrInuse s.mem c = true) (hkeep : ∀ o, o < 16 + z → ¬ E.keep (c + o)) (hz : z < MMAP_THRESHOLD)
    (htop : s.ar.topChunk = c + 16 + z → g.kind (c + 16 + z) = .top) (hstrict : E.strict = true → ¬ Sticks g s.mem c z) :
    ∃ s' g', release s (c + 16) = some s' ∧ Released E g g' s s' c z := by
  have hal := h.tiled.chunk c z hc
  have hsize : getSize s.mem c = z := (h.words.own c z hc).size hs
  have hne : c + 16 + z ≠ c := by omega
  have hrel : release s (c + 16) = if z ≤ 16 * FASTBINS_COUNT then some (insertIntoFastbin s c)
      else (coalesce s c).bind fun r => if r.1 = 0 then some r.2
        else (insertIntoUnsortedbin r.2.ar r.2.mem r.1).bind fun m => some { r.2 with mem := m } := by
    have hfc : c + 16 - HEADER_SIZE = c := by simp [HEADER_SIZE]
    simp only [release, hfc, hsize, bind_eq_bind, pure_def]
    rw [if_neg (by omega), if_neg (by omega), if_neg (by omega)]
  rw [hrel]
  by_cases hsmall : z ≤ 16 * FASTBINS_COUNT
  · obtain ⟨g', hg'⟩ := released_fast h hset hc hp hs hu hkeep hsmall
    exact ⟨_, g', if_pos hsmall, hg'⟩
  rw [if_neg hsmall]
  have h0 : Inv E (g.retag c (.held true)) s.ar s.mem := by
    refine h.retag hc hp rfl ⟨fun _ => hsize, ?_⟩ ⟨?_, ?_⟩ ?_ ?_ (fun _ => .inr hkeep) ?_ <;>
      simp
    exact hcurr
  have hk0 : (g.retag c (.held true)).kind c = .held true := by simp
  have hset0 : (g.retag c (.held true)).SettledBut c := by
    intro d w hd hw
    simpa [hd] using hset d w hw
  have hkn0 : (g.retag c (.held true)).kind (c + 16 + z) = g.kind (c + 16 + z) := by simp [hne]
  obtain ⟨c', z', b, m1, g1, hb1, hand, hb⟩ := backwardCoalesce_spec h0 hc hk0 hset0
  have hnext : c' + 16 + z' = c + 16 + z := hand.last
  have hz' : 32 ≤ z' := by
    have := hand.first
    omega
  have hkn1 : g1.kind (c + 16 + z) = g.kind (c + 16 + z) := hand.behind.2.trans hkn0
  obtain ⟨c'', s', hf1, hfw⟩ := forwardCoalesce_spec (s := { s with mem := m1 }) hand.inv hand.cell hand.kind
    hand.settled (by
      rw [hnext, hkn1]
      exact htop)
    (by
      rw [hnext, hkn1]
      intro hst hbt hkt w hw
      rcases hb with hb | ⟨-, hpv⟩
      · simp [hb] at hbt
      · by_contra hlt
        refine hstrict hst ⟨by omega, hpv, hkt, w, ?_, by omega⟩
        rw [← hw, hand.behind.1]
        rfl)
  have hc'0 : c' ≠ 0 := Nat.ne_of_gt (hand.inv.tiled.pos c' _ hand.cell)
  rw [coalesce_eq hb1 hf1, bind_some]
  cases hfw with
  | same =>
    obtain ⟨m3, g3, hm3, hg3⟩ := released_unsorted (s := s) hand.inv hand.cell hand.kind hand.settled hand.steady
      hand.top hand.crown (z := z) (by
        intro g3 m3 hcell3 _ _
        refine passed_same h hc ?_
        rw [hcell3, hand.behind.1]
        rfl)
    exact ⟨_, g3, by rw [if_neg hc'0, hm3]; rfl, hg3⟩
  | merged w m2 g2 hn inv cell kind steady settled top crown size curr =>
    obtain ⟨m3, g3, hm3, hg3⟩ := released_unsorted (s := s) inv cell kind settled (hand.steady.trans steady)
      (fun d hd => top d (hand.top d hd)) (fun d hd =>
        ⟨(hand.crown d (crown d hd).1).1, (crown d hd).2.trans (hand.crown d (crown d hd).1).2⟩) (z := z) (by
        intro g3 m3 hcell3 hb3 hdeep
        right
        have hw := hand.inv.tiled.chunk _ w hn
        have hm3 : m3 (c + 16 + z + 8) = m2 (c + 16 + z + 8) := by
          have := hdeep (16 + z' + 8) (by omega) (by omega)
          rwa [show c' + (16 + z' + 8) = c + 16 + z + 8 by omega] at this
        rw [hnext] at size curr
        exact ⟨c', z' + 16 + w, w, by rw [hcell3, cell], hb3, by omega, by omega, by rw [hm3, size],
          by rw [hm3, curr]⟩)
    exact ⟨_, g3, by rw [if_neg hc'0, hm3]; rfl, hg3⟩
  | top w m2 g2 hn inv cell kind steady settled size curr =>
    refine ⟨_, g2, if_pos rfl, inv, (hand.steady.trans steady).freed rfl settled, .inr ?_, ⟨rfl, rfl, rfl, rfl⟩, ?_,
      .inr (.inr kind), ?_⟩
    · rw [hnext] at size curr
      exact ⟨c', z' + 16 + w, w, cell, by simp [kind], by omega, by omega, size, curr⟩
    · intro _ _
      exact .inr kind
    · intro t x ht hx
      obtain rfl : t = c' := top_unique inv ht
      cases cell.symm.trans hx
      exact .inl ⟨hand.first, by omega⟩

end Picasso.Alloc.Invariant
