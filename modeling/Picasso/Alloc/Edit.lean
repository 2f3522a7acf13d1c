import Picasso.Alloc.Invariant

namespace Picasso.Alloc.Invariant

open Chunk Allocator Layout Function Ghost Kind Cell

variable {E : Env} {g : Ghost} {ar : Arena} {m m' : Mem} {heaps : List (Nat × Nat)}

@[simp] theorem set_self (m : Mem) (a v : Nat) : m.set a v a = v := by
  simp [Mem.set]

variable {a c d o v : Nat}

theorem set_of_ne {b v : Nat} (h : b ≠ a) : m.set a v b = m b := by
  simp [Mem.set, h]

theorem set_other (ht : Tiled g.cell heaps) {u : Nat} {x y : Cell} (hc : g.cell c = some x) (hd : g.cell d = some y)
    (ho : o < x.extent) (hu : u < y.extent) (hne : d ≠ c ∨ u ≠ o) : m.set (c + o) v (d + u) = m (d + u) := by
  refine set_of_ne ?_
  intro he
  have := ht.sep hd hc hu ho he
  omega

namespace Bins

variable {a i : Nat}

theorem head_loose (hb : Bins g ar) {b : Bin} (hv : b.Valid) : g.kind (b.head ar) = .loose := by
  by_contra hk
  obtain ⟨z, hz⟩ := hb.home _ hk
  cases (hb.sentinel b hv).symm.trans hz

theorem ring_node (hb : Bins g ar) (ht : Tiled g.cell heaps) {b : Bin} (hv : b.Valid)
    (ha : a = b.head ar ∨ a ∈ g.ring b) :
    ∃ y, g.cell a = some y ∧ 48 ≤ y.extent ∧ (y = .sentinel ∨ g.kind a = .binned b) := by
  rcases ha with rfl | ha
  · exact ⟨_, hb.sentinel b hv, by simp, .inl rfl⟩
  · have hk := (hb.ring b a).mp ha
    obtain ⟨z, hz⟩ := hb.home a (by simp [hk])
    have := (ht.chunk a z hz).2.2
    exact ⟨_, hz, lt_chunk (by omega), .inr hk⟩

theorem order_node (hb : Bins g ar) (ht : Tiled g.cell heaps) (hi : i < LARGEBINS_COUNT)
    (ha : a = ar.largebins i ∨ a ∈ g.order i) : ∃ y, g.cell a = some y ∧ 48 ≤ y.extent ∧
      (y = .sentinel ∨ g.kind a = .binned (.large i) ∨ g.kind a = .ranked i) := by
  rcases ha with rfl | ha
  · exact ⟨_, hb.sentinel (.large i) hi, by simp, .inl rfl⟩
  · have hk := (hb.order i a).mp ha
    obtain ⟨z, hz⟩ := hb.home a (by rcases hk with hk | hk <;> simp [hk])
    have := (ht.chunk a z hz).2.2
    exact ⟨_, hz, lt_chunk (by omega), .inr hk⟩

theorem fast_node (hb : Bins g ar) (ht : Tiled g.cell heaps) (ha : a ∈ g.fast i) :
    ∃ z, g.cell a = some (.chunk z) ∧ 32 ≤ z ∧ g.kind a = .fast i := by
  have hk := (hb.fast i a).mp ha
  obtain ⟨z, hz⟩ := hb.home a (by simp [hk])
  exact ⟨z, hz, (ht.chunk a z hz).2.2, hk⟩

end Bins

theorem Chain.congr {p : Nat} {l : List Nat} (h : Chain m p l) (hs : ∀ a ∈ l, m' (a + 16) = m (a + 16)) :
    Chain m' p l := by
  induction l generalizing p with
  | nil => exact h
  | cons c l ih =>
    refine ⟨h.1, ?_⟩
    have hfd : fd m' c = fd m c := hs c (by simp)
    rw [hfd]
    exact ih h.2 (fun a ha => hs a (by simp [ha]))

theorem Links.congr (h : Links g ar m) (hb : Bins g ar) (ht : Tiled g.cell heaps)
    (hs : ∀ a y o, g.cell a = some y → y = .sentinel ∨ (g.kind a).plain = false → 16 ≤ o → o < 48 → o < y.extent →
      m' (a + o) = m (a + o)) : Links g ar m' where
  ring b hv := by
    have hnode : ∀ o, 16 ≤ o → o < 48 → ∀ a, a = b.head ar ∨ a ∈ g.ring b → m' (a + o) = m (a + o) := by
      intro o ho ho' a ha
      obtain ⟨y, hy, he, hk⟩ := hb.ring_node ht hv ha
      exact hs a y o hy (hk.imp_right fun hk => by simp [hk, Kind.plain]) ho ho' (by omega)
    apply (h.ring b hv).congr_ring
    intro a ha
    exact ⟨hnode 16 (by omega) (by omega) a ha, hnode 24 (by omega) (by omega) a ha⟩
  order i hi := by
    have hnode : ∀ o, 16 ≤ o → o < 48 → ∀ a, a = ar.largebins i ∨ a ∈ g.order i → m' (a + o) = m (a + o) := by
      intro o ho ho' a ha
      obtain ⟨y, hy, he, hk⟩ := hb.order_node ht hi ha
      refine hs a y o hy (hk.imp_right fun hk => ?_) ho ho' (by omega)
      rcases hk with hk | hk <;> simp [hk, Kind.plain]
    apply (h.order i hi).congr_ring
    intro a ha
    exact ⟨hnode 32 (by omega) (by omega) a ha, hnode 40 (by omega) (by omega) a ha⟩
  fast i hi := by
    apply (h.fast i hi).congr
    intro a ha
    obtain ⟨z, hz, hz32, hk⟩ := hb.fast_node ht ha
    exact hs a _ 16 hz (.inr (by simp [hk, Kind.plain])) (by omega) (by omega) (lt_chunk (by omega))

theorem Links.set (h : Links g ar m) (hb : Bins g ar) (ht : Tiled g.cell heaps) {x : Cell} (hc : g.cell c = some x)
    (ho : o < x.extent) (v : Nat) (hx : o < 16 ∨ ∃ z, x = .chunk z ∧ (g.kind c).plain = true) :
    Links g ar (m.set (c + o) v) := by
  apply h.congr hb ht
  intro a y u hy hk hu _ hu'
  apply set_other ht hc hy ho hu'
  rcases hx with hx | ⟨z, rfl, hp⟩
  · right
    omega
  · left
    rintro rfl
    rw [hc] at hy
    cases hy
    simp [hp] at hk

namespace Words

variable {strict : Bool}

theorem congr (h : Words strict g heaps m) (ht : Tiled g.cell heaps)
    (hs : ∀ c x, g.cell c = some x → m' c = m c ∧ m' (c + 8) = m (c + 8))
    (hflat : ∀ c, (g.kind c).flat = true → m' (c + 32) = m (c + 32)) : Words strict g heaps m' where
  own c z hc := by
    rw [(hs c _ hc).2]
    exact h.own c z hc
  foot c z hc := by
    obtain ⟨y, hy, -⟩ := ht.next c z hc
    rw [(hs _ _ hy).1, (hs _ _ hy).2]
    exact h.foot c z hc
  start s e hh := by
    obtain ⟨-, -, z, hz⟩ := ht.heap s e hh
    rw [(hs _ _ hz).2]
    exact h.start s e hh
  bound c hc := by
    rw [(hs c _ hc).2]
    exact h.bound c hc
  block c z hc := by
    rw [(hs c _ hc).2]
    exact h.block c z hc
  flat c hk := by
    rw [hflat c hk]
    exact h.flat c hk

variable {x : Cell} (h : Words strict g heaps m) (ht : Tiled g.cell heaps) (hb : Bins g ar)

include h ht hb

theorem setHead {c v : Nat}
    (hc : g.cell c = some x) (hin : x.inHeap = true) (hown : ∀ z, x = .chunk z → Own strict (g.kind c) z v)
    (hbound : x = .bound → sizeBits v = 0 ∧ hasFlag v CURR_IN_USE = true)
    (hprev : hasFlag v PREV_IN_USE = hasFlag (m (c + 8)) PREV_IN_USE ∨
      ∃ p z, g.cell p = some (.chunk z) ∧ p + 16 + z = c ∧ (g.kind p).used = none) :
    Words strict g heaps (m.set (c + 8) v) := by
  have hx := ht.extent_ge hc
  have hother : ∀ {d y u}, g.cell d = some y → u < y.extent → d ≠ c ∨ u ≠ 8 → m.set (c + 8) v (d + u) = m (d + u) :=
    fun hd hu hne => set_other ht hc hd (by omega) hu hne
  constructor
  · intro d z hd
    have := (ht.chunk d z hd).2.2
    by_cases hdc : d = c
    · subst hdc
      rw [hc] at hd
      cases hd
      simpa using hown z rfl
    · rw [hother hd (lt_chunk (by omega)) (.inl hdc)]
      exact h.own d z hd
  · intro d z hd
    obtain ⟨y, hy, -⟩ := ht.next d z hd
    have hext := ht.extent_ge hy
    have hps : m.set (c + 8) v (d + 16 + z) = m (d + 16 + z) :=
      hother (u := 0) hy (by omega) (.inr (by omega))
    by_cases hdc : d + 16 + z = c
    · subst hdc
      rw [hps, set_self]
      refine ⟨fun b hb => ?_, (h.foot d z hd).prev⟩
      rcases hprev with hprev | ⟨p, w, hp, he, hk⟩
      · rw [hprev]
        exact (h.foot d z hd).used b hb
      · rw [ht.pred_unique hp hd he] at hk
        simp [hk] at hb
    · rw [hps, hother hy (by omega) (.inl hdc)]
      exact h.foot d z hd
  · intro s e hh
    obtain ⟨-, -, z, hz⟩ := ht.heap s e hh
    have := (ht.chunk s z hz).2.2
    by_cases hsc : s = c
    · subst hsc
      rw [set_self]
      rcases hprev with hprev | ⟨p, w, hp, he, -⟩
      · rw [hprev]
        exact h.start s e hh
      · exact absurd he (ht.start_no_pred hh hp)
    · rw [hother hz (lt_chunk (by omega)) (.inl hsc)]
      exact h.start s e hh
  · intro d hd
    by_cases hdc : d = c
    · subst hdc
      rw [hc] at hd
      cases hd
      simpa using hbound rfl
    · rw [hother hd (by simp) (.inl hdc)]
      exact h.bound d hd
  · intro d z hd
    have := (ht.block d z hd).2.2
    by_cases hdc : d = c
    · subst hdc
      rw [hc] at hd
      cases hd
      simp at hin
    · rw [hother hd (by simp only [extent_block]; omega) (.inl hdc)]
      exact h.block d z hd
  · intro d hk
    obtain ⟨z, hz⟩ := hb.home d (by rintro he; simp [he, Kind.flat] at hk)
    have := (ht.chunk d z hz).2.2
    rw [hother hz (lt_chunk (by omega)) (.inr (by omega))]
    exact h.flat d hk

theorem setPrev {c v : Nat}
    (hc : g.cell c = some x)
    (hprev : ∀ p z, g.cell p = some (.chunk z) → p + 16 + z = c → (g.kind p).used = some false → sizeBits v = z) :
    Words strict g heaps (m.set c v) := by
  have hx := ht.extent_ge hc
  have hother : ∀ {d y u}, g.cell d = some y → u < y.extent → d ≠ c ∨ u ≠ 0 → m.set c v (d + u) = m (d + u) :=
    fun hd hu hne => set_other (o := 0) ht hc hd (by omega) hu hne
  have hhead : ∀ {d y}, g.cell d = some y → m.set c v (d + 8) = m (d + 8) := by
    intro d y hd
    have := ht.extent_ge hd
    exact hother hd (by omega) (.inr (by omega))
  constructor
  · intro d z hd
    rw [hhead hd]
    exact h.own d z hd
  · intro d z hd
    obtain ⟨y, hy, -⟩ := ht.next d z hd
    have hext := ht.extent_ge hy
    rw [hhead hy]
    by_cases hdc : d + 16 + z = c
    · refine ⟨(h.foot d z hd).used, fun hu => ?_⟩
      rw [hdc, set_self]
      exact hprev d z hd hdc hu
    · have : m.set c v (d + 16 + z) = m (d + 16 + z) := set_of_ne hdc
      rw [this]
      exact h.foot d z hd
  · intro s e hh
    obtain ⟨-, -, z, hz⟩ := ht.heap s e hh
    rw [hhead hz]
    exact h.start s e hh
  · intro d hd
    rw [hhead hd]
    exact h.bound d hd
  · intro d z hd
    rw [hhead hd]
    exact h.block d z hd
  · intro d hk
    obtain ⟨z, hz⟩ := hb.home d (by rintro he; simp [he, Kind.flat] at hk)
    have := (ht.chunk d z hz).2.2
    rw [hother hz (lt_chunk (by omega)) (.inr (by omega))]
    exact h.flat d hk

theorem setBody {c o : Nat}
    (hc : g.cell c = some x) (ho : 16 ≤ o ∧ o < x.extent) (v : Nat) (hk : (g.kind c).flat = true → o ≠ 32) :
    Words strict g heaps (m.set (c + o) v) := by
  apply h.congr ht
  · intro d y hd
    have := ht.extent_ge hd
    have h0 := set_other (m := m) (v := v) (u := 0) ht hc hd ho.2 (by omega) (.inr (by omega))
    have h8 := set_other (m := m) (v := v) (u := 8) ht hc hd ho.2 (by omega) (.inr (by omega))
    exact ⟨h0, h8⟩
  · intro d hd
    obtain ⟨z, hz⟩ := hb.home d (by rintro he; simp [he, Kind.flat] at hd)
    have := (ht.chunk d z hz).2.2
    apply set_other ht hc hz ho.2 (lt_chunk (by omega))
    by_cases hdc : d = c
    · subst hdc
      exact .inr (hk hd).symm
    · exact .inl hdc

end Words

theorem Guard.set (h : Guard E g m) (ha : ¬ E.keep a)
    (hmark : E.marked = true → ∀ z, g.cell a = some (.chunk z) → hasFlag v GC_MARK = hasFlag (m a) GC_MARK) :
    Guard E g (m.set a v) where
  frame b hb := by
    rw [set_of_ne (by rintro rfl; exact ha hb)]
    exact h.frame b hb
  spare := h.spare
  marks hm c z hc := by
    by_cases hca : c = a
    · subst hca
      rw [set_self, hmark hm z hc]
      exact h.marks hm c z hc
    · rw [set_of_ne hca]
      exact h.marks hm c z hc
  strict := h.strict

namespace Inv

variable {c o v z : Nat} {x : Cell}

theorem live_chunk (h : Inv E g ar m) (hk : g.kind c ≠ .loose) : ∃ z, g.cell c = some (.chunk z) ∧ 32 ≤ z := by
  obtain ⟨z, hz⟩ := h.bins.home c hk
  exact ⟨z, hz, (h.tiled.chunk c z hz).2.2⟩

theorem kind_interior (h : Inv E g ar m) (hc : g.cell c = some x) (ho : 0 < o) (ho' : o < x.extent) :
    g.kind (c + o) = .loose := by
  by_contra hk
  obtain ⟨z, hz, -⟩ := h.live_chunk hk
  have := h.tiled.interior hc (a := c + o) (by omega) (by omega)
  simp [this] at hz

theorem setHead (h : Inv E g ar m) (hc : g.cell c = some x) (hin : x.inHeap = true)
    (hown : ∀ z, x = .chunk z → Own E.strict (g.kind c) z v)
    (hbound : x = .bound → sizeBits v = 0 ∧ hasFlag v CURR_IN_USE = true)
    (hprev : hasFlag v PREV_IN_USE = hasFlag (m (c + 8)) PREV_IN_USE ∨
      ∃ p z, g.cell p = some (.chunk z) ∧ p + 16 + z = c ∧ (g.kind p).used = none) : Inv E g ar (m.set (c + 8) v) := by
  have hx := h.tiled.extent_ge hc
  refine ⟨h.tiled, h.bins, h.words.setHead h.tiled h.bins hc hin hown hbound hprev, ?_, ?_⟩
  · exact h.links.set h.bins h.tiled hc (by omega) v (.inl (by omega))
  · apply h.guard.set (h.guard.spare c x 8 hc (by omega) (.inl (by omega)))
    simp [h.tiled.interior hc (a := c + 8) (by omega) (by omega)]

theorem setPrev (h : Inv E g ar m) (hc : g.cell c = some x)
    (hprev : ∀ p z, g.cell p = some (.chunk z) → p + 16 + z = c → (g.kind p).used = some false → sizeBits v = z)
    (hmark : E.marked = true → ∀ z, g.cell c = some (.chunk z) → hasFlag v GC_MARK = hasFlag (m c) GC_MARK) :
    Inv E g ar (m.set c v) := by
  have hx := h.tiled.extent_ge hc
  refine ⟨h.tiled, h.bins, h.words.setPrev h.tiled h.bins hc hprev, ?_, ?_⟩
  · exact h.links.set (o := 0) h.bins h.tiled hc (by omega) v (.inl (by omega))
  · exact h.guard.set (h.guard.spare c x 0 hc (by omega) (.inl (by omega))) hmark

theorem setBody (h : Inv E g ar m) (hc : g.cell c = some (.chunk z)) (ho : 16 ≤ o ∧ o < 16 + z) (v : Nat)
    (hp : (g.kind c).plain = true) (hb : (g.kind c).busy = false) (hf : (g.kind c).flat = true → o ≠ 32) :
    Inv E g ar (m.set (c + o) v) := by
  refine ⟨h.tiled, h.bins, h.words.setBody h.tiled h.bins hc ho v hf, ?_, ?_⟩
  · exact h.links.set h.bins h.tiled hc ho.2 v (.inr ⟨z, rfl, hp⟩)
  · apply h.guard.set (h.guard.spare c _ o hc ho.2 (.inr (by simp [opened, hb])))
    simp [h.tiled.interior hc (a := c + o) (by omega) (by simp only [extent_chunk]; omega)]

theorem setDeep (h : Inv E g ar m) (hc : g.cell c = some (.chunk z)) (ho : 48 ≤ o ∧ o < 16 + z) (v : Nat)
    (hb : (g.kind c).busy = false) : Inv E g ar (m.set (c + o) v) := by
  refine ⟨h.tiled, h.bins, h.words.setBody h.tiled h.bins hc ⟨by omega, ho.2⟩ v (fun _ => by omega), ?_, ?_⟩
  · apply h.links.congr h.bins h.tiled
    intro a y u hy _ _ hu hu'
    exact set_other h.tiled hc hy ho.2 hu' (.inr (by omega))
  · apply h.guard.set (h.guard.spare c _ o hc ho.2 (.inr (by simp [opened, hb])))
    simp [h.tiled.interior hc (a := c + o) (by omega) (by simp only [extent_chunk]; omega)]

end Inv

structure Placed (E : Env) (g : Ghost) (ar : Arena) (m : Mem) (d : Nat) : Prop where
  plain : (g.kind d).plain = true
  home : g.kind d ≠ .loose → ∃ z, g.cell d = some (.chunk z)
  own : ∀ z, g.cell d = some (.chunk z) → Own E.strict (g.kind d) z (m (d + 8))
  foot : ∀ z, g.cell d = some (.chunk z) → Foot (g.kind d) z (m (d + 16 + z)) (m (d + 16 + z + 8))
  flat : (g.kind d).flat = true → m (d + 32) = 0
  bound : g.cell d = some .bound → sizeBits (m (d + 8)) = 0 ∧ hasFlag (m (d + 8)) CURR_IN_USE = true
  block : ∀ z, g.cell d = some (.block z) → sizeBits (m (d + 8)) = z
  top : ∀ z, g.kind d = .top → g.cell d = some (.chunk z) →
    d = ar.topChunk ∧ g.cell (d + 16 + z) = some .bound
  spare : ∀ x o, g.cell d = some x → o < x.extent → o < 16 ∨ g.opened d x = true → ¬ E.keep (d + o)
  marks : E.marked = true → ∀ z, g.cell d = some (.chunk z) → hasFlag (m d) GC_MARK = hasFlag (E.before d) GC_MARK
  strict : g.kind d = .unmapped → E.strict = false

theorem Placed.of_none (hc : g.cell d = none) (hk : g.kind d = .loose) : Placed E g ar m d := by
  constructor <;> simp [hc, hk, Kind.plain, Kind.flat]

theorem Placed.of_unsized {z : Nat} (hc : g.cell d = some (.chunk z)) (hk : (g.kind d).sized = false)
    (hfoot : (g.kind d).used = some true → hasFlag (m (d + 16 + z + 8)) PREV_IN_USE = true)
    (hspare : ∀ o, o < 16 + z → ¬ E.keep (d + o))
    (hmark : E.marked = true → hasFlag (m d) GC_MARK = hasFlag (E.before d) GC_MARK) : Placed E g ar m d := by
  have hkd : g.kind d = .carved ∨ g.kind d = .loose := by
    cases hkd : g.kind d <;> simp_all [Kind.sized]
  have hz : ∀ w, g.cell d = some (.chunk w) → w = z := by
    intro w hw
    cases hc.symm.trans hw
    rfl
  have hspare' : ∀ x o, g.cell d = some x → o < x.extent → o < 16 ∨ g.opened d x = true → ¬ E.keep (d + o) := by
    intro x o hx ho _
    cases hc.symm.trans hx
    exact hspare o (by simpa using ho)
  have hown : ∀ w, g.cell d = some (.chunk w) → Own E.strict (g.kind d) w (m (d + 8)) := by
    intro w _
    rcases hkd with hk | hk <;> rw [hk] <;> exact ⟨by simp [Kind.sized], by simp [curr]⟩
  have hfoot' : ∀ w, g.cell d = some (.chunk w) → Foot (g.kind d) w (m (d + 16 + w)) (m (d + 16 + w + 8)) := by
    intro w hw
    rw [hz w hw]
    rcases hkd with hk | hk <;> rw [hk] at hfoot ⊢
    · exact ⟨by simpa [used] using hfoot, by simp [used]⟩
    · exact ⟨by simp [used], by simp [used]⟩
  refine ⟨?_, fun _ => ⟨z, hc⟩, hown, hfoot', ?_, ?_, ?_, ?_, hspare', fun hm _ _ => hmark hm, ?_⟩ <;>
    rcases hkd with hk | hk <;> simp [hc, hk, Kind.plain, Kind.flat]

section Reshape

variable {g' : Ghost} {ar' : Arena} {S : Nat → Prop}

/-- Only the cells in `S` change, in no list before and after. -/
structure Reshaped (E : Env) (g : Ghost) (ar : Arena) (m : Mem) (S : Nat → Prop) (g' : Ghost) (ar' : Arena) : Prop where
  tiled : Tiled g'.cell ar'.allocedHeaps
  lists : g'.ring = g.ring ∧ g'.order = g.order ∧ g'.fast = g.fast
  heads : (∀ b : Bin, b.head ar' = b.head ar) ∧ ar'.fastbins = ar.fastbins
  start : ∀ s e, (s, e) ∈ ar'.allocedHeaps → hasFlag (m (s + 8)) PREV_IN_USE = true
  out : ∀ d, ¬ S d → g'.cell d = g.cell d ∧ g'.kind d = g.kind d
  old : ∀ d, S d → (g.kind d).plain = true ∧ g.cell d ≠ some .sentinel ∧ g.cell d ≠ some .bound
  top : ∀ d, ¬ S d → g.kind d = .top → ar'.topChunk = ar.topChunk
  new : ∀ d, S d → Placed E g' ar' m d

namespace Reshaped

variable (hs : Reshaped E g ar m S g' ar')

include hs

theorem kind_iff {k : Kind} (hk : k.plain = false) : g'.kind d = k ↔ g.kind d = k := by
  by_cases hd : S d
  · have h1 := (hs.old d hd).1
    have h2 := (hs.new d hd).plain
    constructor <;> rintro rfl <;> simp_all
  · rw [(hs.out d hd).2]

theorem bins (h : Bins g ar) : Bins g' ar' := by
  obtain ⟨hr, ho, hf⟩ := hs.lists
  constructor
  · intro b c
    rw [hr, h.ring, hs.kind_iff rfl]
  · intro i c
    rw [ho, h.order, hs.kind_iff rfl, hs.kind_iff rfl]
  · intro i c
    rw [hf, h.fast, hs.kind_iff rfl]
  · exact hr ▸ h.ringNodup
  · exact ho ▸ h.orderNodup
  · exact hf ▸ h.fastNodup
  · intro d hk
    by_cases hd : S d
    · exact (hs.new d hd).home hk
    · rw [(hs.out d hd).1]
      exact h.home d ((hs.out d hd).2 ▸ hk)
  · intro d z hz
    by_cases hd : S d
    · exact fits_of_plain (hs.new d hd).plain z
    · rw [(hs.out d hd).2]
      exact h.fits d z ((hs.out d hd).1 ▸ hz)
  · intro d z hk hz
    by_cases hd : S d
    · exact (hs.new d hd).top z hk hz
    · rw [(hs.out d hd).2] at hk
      obtain ⟨hd1, hd2⟩ := h.top d z hk ((hs.out d hd).1 ▸ hz)
      refine ⟨hd1.trans (hs.top d hd hk).symm, ?_⟩
      rw [(hs.out _ fun hd => (hs.old _ hd).2.2 hd2).1]
      exact hd2
  · intro b hv
    have hb := h.sentinel b hv
    rw [hs.heads.1, (hs.out _ fun hd => (hs.old _ hd).2.1 hb).1]
    exact hb
  · intro b b' hv hv' he
    rw [hs.heads.1, hs.heads.1] at he
    exact h.sentinelInj b b' hv hv' he
  · intro i
    have hcell : ∀ a ∈ g.order i, g'.cell a = g.cell a := by
      intro a ha
      refine (hs.out a fun hd => ?_).1
      have := (hs.old a hd).1
      rcases (h.order i a).mp ha with hk | hk <;> simp [hk, Kind.plain] at this
    rw [ho]
    refine (h.sorted i).imp_of_mem fun ha hb hab x y hx hy => ?_
    exact hab x y (hcell _ ha ▸ hx) (hcell _ hb ▸ hy)

theorem words (h : Words E.strict g ar.allocedHeaps m) : Words E.strict g' ar'.allocedHeaps m := by
  constructor
  · intro d z hz
    by_cases hd : S d
    · exact (hs.new d hd).own z hz
    · rw [(hs.out d hd).2]
      exact h.own d z ((hs.out d hd).1 ▸ hz)
  · intro d z hz
    by_cases hd : S d
    · exact (hs.new d hd).foot z hz
    · rw [(hs.out d hd).2]
      exact h.foot d z ((hs.out d hd).1 ▸ hz)
  · exact hs.start
  · intro d hz
    by_cases hd : S d
    · exact (hs.new d hd).bound hz
    · exact h.bound d ((hs.out d hd).1 ▸ hz)
  · intro d z hz
    by_cases hd : S d
    · exact (hs.new d hd).block z hz
    · exact h.block d z ((hs.out d hd).1 ▸ hz)
  · intro d hk
    by_cases hd : S d
    · exact (hs.new d hd).flat hk
    · exact h.flat d ((hs.out d hd).2 ▸ hk)

theorem guard (h : Guard E g m) : Guard E g' m := by
  constructor
  · exact h.frame
  · intro d x o hx hox hopen
    by_cases hd : S d
    · exact (hs.new d hd).spare x o hx hox hopen
    · apply h.spare d x o ((hs.out d hd).1 ▸ hx) hox
      cases x with
      | chunk w => simpa only [opened, (hs.out d hd).2] using hopen
      | bound | sentinel | block => exact hopen
  · intro hm d z hz
    by_cases hd : S d
    · exact (hs.new d hd).marks hm z hz
    · exact h.marks hm d z ((hs.out d hd).1 ▸ hz)
  · intro hstrict d hk
    by_cases hd : S d
    · simp [(hs.new d hd).strict hk] at hstrict
    · exact h.strict hstrict d ((hs.out d hd).2 ▸ hk)

end Reshaped

theorem Inv.reshape (h : Inv E g ar m) (hs : Reshaped E g ar m S g' ar') : Inv E g' ar' m := by
  refine ⟨hs.tiled, hs.bins h.bins, hs.words h.words, ?_, hs.guard h.guard⟩
  obtain ⟨hr, ho, hf⟩ := hs.lists
  constructor
  · intro b hv
    rw [hr, hs.heads.1]
    exact h.links.ring b hv
  · intro i hi
    rw [ho, show ar'.largebins i = ar.largebins i from hs.heads.1 (.large i)]
    exact h.links.order i hi
  · intro i hi
    rw [hf, hs.heads.2]
    exact h.links.fast i hi

end Reshape

def Ghost.retag (g : Ghost) (c : Nat) (k : Kind) : Ghost := { g with kind := update g.kind c k }

def Ghost.split (g : Ghost) (c r q : Nat) : Ghost :=
  { g with
    cell := update (update g.cell c (some (.chunk r))) (c + 16 + r) (some (.chunk q))
    kind := update (update g.kind c .loose) (c + 16 + r) (g.kind c) }

def Ghost.merge (g : Ghost) (c z y : Nat) : Ghost :=
  { g with
    cell := update (update g.cell (c + 16 + z) none) c (some (.chunk (z + 16 + y)))
    kind := update (update g.kind (c + 16 + z) .loose) c (g.kind (c + 16 + z)) }

namespace Inv

variable {c z : Nat}

section Retag

variable (h : Inv E g ar m)

include h

theorem retag {k : Kind} (hc : g.cell c = some (.chunk z)) (hp : (g.kind c).plain = true)
    (hp' : k.plain = true) (hown : Own E.strict k z (m (c + 8)))
    (hfoot : Foot k z (m (c + 16 + z)) (m (c + 16 + z + 8))) (hflat : k.flat = true → m (c + 32) = 0)
    (htop : k = .top → c = ar.topChunk ∧ g.cell (c + 16 + z) = some .bound)
    (hopen : (g.kind c).busy = true → k.busy = true ∨ ∀ o, o < 16 + z → ¬ E.keep (c + o))
    (hstrict : k = .unmapped → E.strict = false) : Inv E (g.retag c k) ar m := by
  have hk : (g.retag c k).kind c = k := by simp [Ghost.retag]
  have hsize : ∀ w, (g.retag c k).cell c = some (.chunk w) → w = z := by
    intro w hw
    cases hc.symm.trans hw
    rfl
  refine h.reshape (S := (· = c)) ⟨h.tiled, ⟨rfl, rfl, rfl⟩, ⟨fun _ => rfl, rfl⟩, h.words.start, ?_, ?_, fun _ _ _ => rfl, ?_⟩
  · intro d hd
    exact ⟨rfl, by simp [Ghost.retag, hd]⟩
  · rintro d rfl
    exact ⟨hp, by simp [hc], by simp [hc]⟩
  · rintro d rfl
    constructor
    · rwa [hk]
    · exact fun _ => ⟨z, hc⟩
    · intro w hw
      rw [hk, hsize w hw]
      exact hown
    · intro w hw
      rw [hk, hsize w hw]
      exact hfoot
    · rw [hk]
      exact hflat
    · intro hb
      cases hc.symm.trans hb
    · intro w hb
      cases hc.symm.trans hb
    · intro w ht hw
      rw [hsize w hw]
      exact htop (hk ▸ ht)
    · intro x o hx ho hx'
      cases hc.symm.trans hx
      by_cases hbusy : (g.kind d).busy = true
      · rcases hopen hbusy with hb | hkeep
        · apply h.guard.spare d _ o hc ho
          left
          simpa [opened, hk, hb] using hx'
        · exact hkeep o (by simpa using ho)
      · exact h.guard.spare d _ o hc ho (.inr (by simpa [opened] using hbusy))
    · exact fun hm w hw => h.guard.marks hm d w hw
    · rw [hk]
      exact hstrict

theorem loosen (hc : g.cell c = some (.chunk z)) (hp : (g.kind c).plain = true)
    (hb : (g.kind c).busy = false) : Inv E (g.retag c .loose) ar m := by
  refine h.retag hc hp rfl ⟨?_, ?_⟩ ⟨?_, ?_⟩ ?_ ?_ ?_ ?_ <;> simp [Kind.sized, curr, used, Kind.flat, hb]

theorem carve (hc : g.cell c = some (.chunk z)) (hp : (g.kind c).plain = true)
    (hb : (g.kind c).busy = false) (hu : hasFlag (m (c + 16 + z + 8)) PREV_IN_USE = true) :
    Inv E (g.retag c .carved) ar m := by
  refine h.retag hc hp rfl ⟨?_, ?_⟩ ⟨?_, ?_⟩ ?_ ?_ ?_ ?_ <;>
    simp [Kind.sized, curr, used, Kind.flat, hb, hu]

theorem spare_of_open (hc : g.cell c = some (.chunk z)) (hb : (g.kind c).busy = false) {o : Nat}
    (ho : o < 16 + z) : ¬ E.keep (c + o) :=
  h.guard.spare c _ o hc (by simpa using ho) (.inr (by simp [opened, hb]))

theorem split (hm : E.marked = false) {r q : Nat} (hc : g.cell c = some (.chunk (r + 16 + q)))
    (hk : (g.kind c).sized = false) (hr : r % 16 = 0 ∧ 32 ≤ r) (hq : q % 16 = 0 ∧ 32 ≤ q) :
    Inv E (g.split c r q) ar m := by
  have hplain : (g.kind c).plain = true ∧ (g.kind c).busy = false := by
    cases hkc : g.kind c <;> simp_all [Kind.sized, Kind.plain, busy]
  have hne : c ≠ c + 16 + r := by omega
  have hint : g.cell (c + 16 + r) = none := h.tiled.interior hc (by omega) (by simp only [extent_chunk]; omega)
  have hspare : ∀ o, o < 16 + (r + 16 + q) → ¬ E.keep (c + o) := fun o ho => h.spare_of_open hc hplain.2 ho
  refine h.reshape (S := fun d => d = c ∨ d = c + 16 + r) ⟨h.tiled.split hc hr hq, ⟨rfl, rfl, rfl⟩,
    ⟨fun _ => rfl, rfl⟩, h.words.start, ?_, ?_, fun _ _ _ => rfl, ?_⟩
  · intro d hd
    simp only [not_or] at hd
    simp [Ghost.split, hd]
  · rintro d (rfl | rfl)
    · exact ⟨hplain.1, by simp [hc], by simp [hc]⟩
    · have := h.kind_interior hc (o := 16 + r) (by omega) (lt_chunk (by omega))
      rw [← Nat.add_assoc] at this
      exact ⟨by simp [this, Kind.plain], by simp [hint], by simp [hint]⟩
  · rintro d (rfl | rfl)
    · apply Placed.of_unsized (z := r)
      · simp [Ghost.split, hne]
      · simp [Ghost.split, hne, Kind.sized]
      · simp [Ghost.split, hne, used]
      · exact fun o ho => hspare o (by omega)
      · simp [hm]
    · apply Placed.of_unsized (z := q)
      · simp [Ghost.split]
      · simpa [Ghost.split] using hk
      · intro hu
        rw [show c + 16 + r + 16 + q = c + 16 + (r + 16 + q) by omega]
        exact (h.words.foot c _ hc).used true (by simpa [Ghost.split] using hu)
      · intro o ho
        have := hspare (16 + r + o) (by omega)
        rwa [show c + (16 + r + o) = c + 16 + r + o by omega] at this
      · simp [hm]

theorem merge {y : Nat} (hc : g.cell c = some (.chunk z))
    (hn : g.cell (c + 16 + z) = some (.chunk y)) (hp : (g.kind c).plain = true) (hb : (g.kind c).busy = false)
    (hk : (g.kind (c + 16 + z)).sized = false) : Inv E (g.merge c z y) ar m := by
  have hplain : (g.kind (c + 16 + z)).plain = true ∧ (g.kind (c + 16 + z)).busy = false := by
    cases hkc : g.kind (c + 16 + z) <;> simp_all [Kind.sized, Kind.plain, busy]
  have hne : c + 16 + z ≠ c := by omega
  refine h.reshape (S := fun d => d = c ∨ d = c + 16 + z) ⟨h.tiled.merge hc hn, ⟨rfl, rfl, rfl⟩,
    ⟨fun _ => rfl, rfl⟩, h.words.start, ?_, ?_, fun _ _ _ => rfl, ?_⟩
  · intro d hd
    simp only [not_or] at hd
    simp [Ghost.merge, hd]
  · rintro d (rfl | rfl)
    · exact ⟨hp, by simp [hc], by simp [hc]⟩
    · exact ⟨hplain.1, by simp [hn], by simp [hn]⟩
  · rintro d (rfl | rfl)
    · apply Placed.of_unsized (z := z + 16 + y)
      · simp [Ghost.merge]
      · simpa [Ghost.merge] using hk
      · intro hu
        rw [show d + 16 + (z + 16 + y) = d + 16 + z + 16 + y by omega]
        exact (h.words.foot _ _ hn).used true (by simpa [Ghost.merge] using hu)
      · intro o ho
        by_cases ho' : o < 16 + z
        · exact h.spare_of_open hc hb ho'
        · have := h.spare_of_open hn hplain.2 (o := o - (16 + z)) (by omega)
          rwa [show d + 16 + z + (o - (16 + z)) = d + o by omega] at this
      · exact fun hm => h.guard.marks hm d z hc
    · exact Placed.of_none (by simp [Ghost.merge, hne]) (by simp [Ghost.merge, hne])

theorem congr (hs : ∀ c x o, g.cell c = some x → o < x.extent → o < 16 ∨ g.opened c x = true → m' (c + o) = m (c + o))
    (hk : ∀ a, E.keep a → m' a = m a) : Inv E g ar m' := by
  have hhead : ∀ c x, g.cell c = some x → m' c = m c ∧ m' (c + 8) = m (c + 8) := by
    intro c x hc
    have := h.tiled.extent_ge hc
    exact ⟨hs c x 0 hc (by omega) (.inl (by omega)), hs c x 8 hc (by omega) (.inl (by omega))⟩
  refine ⟨h.tiled, h.bins, ?_, ?_, ?_⟩
  · refine h.words.congr h.tiled hhead fun c hf => ?_
    obtain ⟨z, hz, hz32⟩ := h.live_chunk (c := c) (by intro he; simp [he, Kind.flat] at hf)
    refine hs c _ 32 hz (lt_chunk (by omega)) (.inr ?_)
    cases hkc : g.kind c <;> simp_all [opened, Kind.flat, busy]
  · refine h.links.congr h.bins h.tiled fun a y o ha hp _ _ ho => hs a y o ha ho (.inr ?_)
    rcases hp with rfl | hp
    · rfl
    · obtain ⟨z, hz, -⟩ := h.live_chunk (c := a) (by intro he; simp [he, Kind.plain] at hp)
      cases ha.symm.trans hz
      cases hkc : g.kind a <;> simp_all [opened, Kind.plain, busy]
  · obtain ⟨frame, spare, marks, strict⟩ := h.guard
    refine ⟨fun a ha => (hk a ha).trans (frame a ha), spare, fun hm c z hc => ?_, strict⟩
    rw [(hhead c _ hc).1]
    exact marks hm c z hc

theorem rebase (keep : Nat → Prop) (marked : Bool)
    (hs : ∀ c x o, g.cell c = some x → o < x.extent → o < 16 ∨ g.opened c x = true → ¬ keep (c + o)) :
    Inv ⟨keep, m, E.strict, marked⟩ g ar m :=
  ⟨h.tiled, h.bins, h.words, h.links, fun _ _ => rfl, hs, fun _ _ _ _ => rfl, h.guard.strict⟩

end Retag

end Inv

end Picasso.Alloc.Invariant
