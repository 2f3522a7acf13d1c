import Picasso.Alloc.Edit
import Picasso.Lib.Intrusive

namespace Picasso.Alloc.Invariant

open Chunk Allocator Layout Lib.Ring Lib.Intrusive List Function Kind Ghost Bin

variable {E : Env} {g : Ghost} {ar : Arena} {m m' : Mem} {heaps : List (Nat × Nat)}

variable {z i p : Nat} {k : Kind} {l l1 l2 ns : List Nat} {b : Bin}

theorem getLargebinIndex_lt (h : getLargebinIndex z = some i) : i < LARGEBINS_COUNT := by
  unfold getLargebinIndex at h
  unfold LARGEBINS_COUNT
  grind

/-- Free as far as the headers tell: the states of a chunk on its way through the lists. -/
def Kind.free : Kind → Bool
  | .binned _ | .ranked _ | .detached => true
  | _ => false

theorem Kind.of_free (h : k.free = true) :
    k.sized = true ∧ (∀ strict, k.curr strict = some false) ∧ k.used = some false ∧ k.busy = false := by
  cases k <;> simp_all [free, sized, curr, used, busy]

theorem Inv.relist {g' : Ghost} (h : Inv E g ar m) (hcell : g'.cell = g.cell)
    (hkind : g'.kind = update g.kind p k) (hp : (g.kind p).free = true) (hk : k.free = true)
    (hhead : ∀ c x, g.cell c = some x → m' c = m c ∧ m' (c + 8) = m (c + 8))
    (hflat : ∀ c, (g'.kind c).flat = true → m' (c + 32) = 0) (hframe : ∀ a, E.keep a → m' a = m a) (hb : Bins g' ar)
    (hl : Links g' ar m') : Inv E g' ar m' := by
  have hdiff : ∀ c, c ≠ p → g'.kind c = g.kind c := by
    intro c hc
    simp [hkind, hc]
  obtain ⟨hs, hcu, hu, hbu⟩ := of_free hp
  obtain ⟨hs', hcu', hu', hbu'⟩ := of_free hk
  have hsame : ∀ c, (g'.kind c).sized = (g.kind c).sized ∧ (g'.kind c).curr E.strict = (g.kind c).curr E.strict ∧
      (g'.kind c).used = (g.kind c).used ∧ (g'.kind c).busy = (g.kind c).busy := by
    intro c
    by_cases hc : c = p
    · subst hc
      have hk' : g'.kind c = k := by simp [hkind]
      rw [hk', hs, hcu, hu, hbu, hs', hcu', hu', hbu']
      exact ⟨rfl, rfl, rfl, rfl⟩
    · rw [hdiff c hc]
      exact ⟨rfl, rfl, rfl, rfl⟩
  have hown : ∀ c z w, Own E.strict (g.kind c) z w → Own E.strict (g'.kind c) z w := by
    intro c z w ho
    obtain ⟨h1, h2, -, -⟩ := hsame c
    exact ⟨h1 ▸ ho.size, h2 ▸ ho.curr⟩
  have hfoot : ∀ c z ps w, Foot (g.kind c) z ps w → Foot (g'.kind c) z ps w := by
    intro c z ps w ho
    obtain ⟨-, -, h3, -⟩ := hsame c
    exact ⟨h3 ▸ ho.used, h3 ▸ ho.prev⟩
  have hbusy : ∀ c, (g'.kind c).busy = (g.kind c).busy := fun c => (hsame c).2.2.2
  have hclosed : ∀ k' : Kind, k'.free = false → ∀ c, g'.kind c = k' → g.kind c = k' := by
    intro k' hk' c hc
    by_cases hcp : c = p
    · subst hcp
      simp_all
    · rwa [hdiff c hcp] at hc
  refine ⟨hcell ▸ h.tiled, hb, ?_, hl, ?_⟩
  · obtain ⟨own, foot, start, bound, block, -⟩ := h.words
    refine ⟨?_, ?_, ?_, ?_, ?_, hflat⟩
    · intro c z hc
      rw [hcell] at hc
      rw [(hhead c _ hc).2]
      exact hown _ _ _ (own c z hc)
    · intro c z hc
      rw [hcell] at hc
      obtain ⟨y, hy, -⟩ := h.tiled.next c z hc
      rw [(hhead _ _ hy).1, (hhead _ _ hy).2]
      exact hfoot _ _ _ _ (foot c z hc)
    · intro s e hh
      obtain ⟨-, -, z, hz⟩ := h.tiled.heap s e hh
      rw [(hhead _ _ hz).2]
      exact start s e hh
    · intro c hc
      rw [hcell] at hc
      rw [(hhead _ _ hc).2]
      exact bound c hc
    · intro c z hc
      rw [hcell] at hc
      rw [(hhead _ _ hc).2]
      exact block c z hc
  · obtain ⟨frame, spare, marks, strict⟩ := h.guard
    refine ⟨?_, ?_, ?_, ?_⟩
    · intro a ha
      rw [hframe a ha]
      exact frame a ha
    · intro c x o hc ho hx
      rw [hcell] at hc
      apply spare c x o hc ho
      cases x with
      | chunk z => simpa only [opened, hbusy] using hx
      | bound | sentinel | block => exact hx
    · intro hm c z hc
      rw [hcell] at hc
      rw [(hhead _ _ hc).1]
      exact marks hm c z hc
    · intro hs c hc
      exact strict hs c (hclosed .unmapped rfl c hc)

namespace Bin

/-- What a chunk of the bin is when it is out of the fd list. -/
def outside : Bin → Kind
  | .large i => .ranked i
  | _ => .detached

end Bin

theorem Inv.valid (h : Inv E g ar m) (hk : g.kind p = .binned b) : b.Valid := by
  obtain ⟨z, hz⟩ := h.bins.home p (by simp [hk])
  have hfits := h.bins.fits p z hz
  rw [hk] at hfits
  cases b with
  | unsorted => trivial
  | small i => exact hfits.1
  | large i => exact getLargebinIndex_lt hfits

/-- Apart from the link words of the nodes `ns` the memory is as it was. -/
def Touches (m m' : Mem) (f b : Nat) (ns : List Nat) : Prop :=
  ∀ a, (∀ n ∈ ns, a ≠ n + f ∧ a ≠ n + b) → m' a = m a

def Nodes (g : Ghost) (ns : List Nat) : Prop :=
  ∀ n ∈ ns, ∃ y, g.cell n = some y ∧ 48 ≤ y.extent ∧ g.opened n y = true

theorem Nodes.sep (hn : Nodes g ns) (ht : Tiled g.cell heaps) {f b : Nat} (hf : f < 48) (hb : b < 48)
    (hne : f ≠ b) : ∀ x ∈ ns, ∀ y ∈ ns, x + f ≠ y + b := by
  intro x hx y hy he
  obtain ⟨cx, hcx, hex, -⟩ := hn x hx
  obtain ⟨cy, hcy, hey, -⟩ := hn y hy
  exact hne (ht.sep hcx hcy (by omega) (by omega) he).2

section Touches

variable {f b : Nat}

theorem Touches.cell (h : Touches m m' f b ns) (hn : Nodes g ns) (ht : Tiled g.cell heaps) (hf : f < 48) (hb : b < 48)
    {d o : Nat} {y : Cell} (hd : g.cell d = some y) (ho : o < y.extent) (hne : d ∉ ns ∨ o ≠ f ∧ o ≠ b) :
    m' (d + o) = m (d + o) := by
  apply h
  intro n hmem
  obtain ⟨x, hx, hext, -⟩ := hn n hmem
  constructor <;> intro he
  · obtain ⟨rfl, rfl⟩ := ht.sep hd hx ho (by omega) he
    simp [hmem] at hne
  · obtain ⟨rfl, rfl⟩ := ht.sep hd hx ho (by omega) he
    simp [hmem] at hne

theorem Touches.head (h : Touches m m' f b ns) (hn : Nodes g ns) (ht : Tiled g.cell heaps) (hf : 16 ≤ f ∧ f < 48)
    (hb : 16 ≤ b ∧ b < 48) {c : Nat} {x : Cell} (hc : g.cell c = some x) : m' c = m c ∧ m' (c + 8) = m (c + 8) := by
  have hx := ht.extent_ge hc
  have h0 := h.cell hn ht hf.2 hb.2 hc (o := 0) (by omega) (.inr (by omega))
  have h8 := h.cell hn ht hf.2 hb.2 hc (o := 8) (by omega) (.inr (by omega))
  exact ⟨h0, h8⟩

theorem Touches.frame (h : Touches m m' f b ns) (hn : Nodes g ns) (hg : Guard E g m) (hf : f < 48) (hb : b < 48)
    {a : Nat} (ha : E.keep a) : m' a = m a := by
  apply h
  intro n hmem
  obtain ⟨x, hx, hext, hopen⟩ := hn n hmem
  constructor <;> rintro rfl
  · exact hg.spare n x f hx (by omega) (.inr hopen) ha
  · exact hg.spare n x b hx (by omega) (.inr hopen) ha

theorem touches_of_out {p : Nat} (hs : SplicedOut m m' f b p) (hp : p ∈ ns) (hu : m (p + b) ∈ ns)
    (hv : m (p + f) ∈ ns) : Touches m m' f b ns :=
  fun _ ha => hs.other (ha p hp) (ha _ hu).1 (ha _ hv).2

theorem touches_of_in {p u v : Nat} (hs : SplicedIn m m' f b p u v) (hp : p ∈ ns) (hu : u ∈ ns) (hv : v ∈ ns) :
    Touches m m' f b ns :=
  fun _ ha => hs.other (ha p hp) (ha u hu).1 (ha v hv).2

end Touches

namespace Inv

theorem ring_nodes (h : Inv E g ar m) (hv : b.Valid) : Nodes g (b.head ar :: g.ring b) := by
  intro n hn
  obtain ⟨y, hy, hext, hk⟩ := h.bins.ring_node h.tiled hv (by simpa using hn)
  refine ⟨y, hy, hext, ?_⟩
  rcases hk with rfl | hk
  · rfl
  · obtain ⟨z, hz⟩ := h.bins.home n (by simp [hk])
    cases hy.symm.trans hz
    simp [opened, hk, busy]

theorem ring_nodup (h : Inv E g ar m) (hv : b.Valid) : (b.head ar :: g.ring b).Nodup := by
  refine nodup_cons.mpr ⟨fun hm => ?_, h.bins.ringNodup b⟩
  simp [h.bins.ring, h.bins.head_loose hv] at hm

theorem order_nodes (h : Inv E g ar m) {i : Nat} (hi : i < LARGEBINS_COUNT) :
    Nodes g (ar.largebins i :: g.order i) := by
  intro n hn
  obtain ⟨y, hy, hext, hk⟩ := h.bins.order_node h.tiled hi (by simpa using hn)
  refine ⟨y, hy, hext, ?_⟩
  rcases hk with rfl | hk
  · rfl
  · obtain ⟨z, hz⟩ := h.bins.home n (by rcases hk with hk | hk <;> simp [hk])
    cases hy.symm.trans hz
    rcases hk with hk | hk <;> simp [opened, hk, busy]

theorem order_nodup (h : Inv E g ar m) {i : Nat} (hi : i < LARGEBINS_COUNT) : (ar.largebins i :: g.order i).Nodup := by
  refine nodup_cons.mpr ⟨fun hm => ?_, h.bins.orderNodup i⟩
  have hk : g.kind (ar.largebins i) = .loose := h.bins.head_loose (b := .large i) hi
  simp [h.bins.order, hk] at hm

end Inv

section SplicedOut

variable (ht : Tiled g.cell heaps) (hn : Nodes g ns)

include ht hn

theorem Nodes.ne_zero {n : Nat} (hm : n ∈ ns) : n ≠ 0 := by
  rintro rfl
  obtain ⟨y, hy, -, -⟩ := hn 0 hm
  exact absurd (ht.pos 0 y hy) (by simp)

theorem unlinkFd_splicedOut (hp : p ∈ ns) (hu : bk m p ∈ ns) (hv : fd m p ∈ ns) :
    SplicedOut m (unlinkChunkFromFdlist m p) 16 24 p := by
  have hsep := hn.sep ht (f := 16) (b := 24) (by omega) (by omega) (by omega)
  have h1 := hsep p hp _ hv
  have h2 := hsep _ hu _ hv
  have h3 := hsep _ hu p hp
  intro a
  unfold unlinkChunkFromFdlist
  rw [if_neg (by simp [hn.ne_zero ht hu, hn.ne_zero ht hv])]
  simp only [fd, bk, setFdbkTo, Mem.set] at *
  grind

theorem unlinkSorted_splicedOut (hp : p ∈ ns) (hu : prevSizeptr m p ∈ ns) (hv : nextSizeptr m p ∈ ns) :
    SplicedOut m (unlinkChunkFromSortedlist m p) 32 40 p := by
  have hsep := hn.sep ht (f := 32) (b := 40) (by omega) (by omega) (by omega)
  have h1 := hsep p hp _ hv
  have h2 := hsep _ hu _ hv
  have h3 := hsep _ hu p hp
  intro a
  unfold unlinkChunkFromSortedlist
  rw [if_neg (by simp [hn.ne_zero ht hu, hn.ne_zero ht hv])]
  simp only [nextSizeptr, prevSizeptr, setNextprevSizeptrTo, Mem.set] at *
  grind

omit ht hn in
theorem erase_middle (hn : (l1 ++ p :: l2).Nodup) : (l1 ++ p :: l2).erase p = l1 ++ l2 := by
  rw [erase_append_right _ (fun hm => ?_), erase_cons_head]
  exact (nodup_append.mp hn).2.2 p hm p (by simp) rfl

omit hn in
theorem splice_of_path {f b q : Nat} (hnodes : Nodes g (q :: l)) (hnodup : (q :: l).Nodup) (hf : f < 48) (hb : b < 48)
    (hne : f ≠ b) (hP : Path (fun x => m (x + f)) (fun x => m (x + b)) q l q) (hp : p ∈ l)
    (hout : m (p + b) ∈ q :: l → m (p + f) ∈ q :: l → SplicedOut m m' f b p) : SplicedOut m m' f b p ∧
      Touches m m' f b (q :: l) ∧ Path (fun x => m' (x + f)) (fun x => m' (x + b)) q (l.erase p) q := by
  obtain ⟨l1, l2, rfl⟩ := append_of_mem hp
  obtain ⟨hu, hw⟩ := hP.link_mem
  have hs := hout hu hw
  rw [erase_middle (nodup_cons.mp hnodup).2]
  exact ⟨hs, touches_of_out hs (mem_cons_of_mem _ hp) hu hw, hs.path hP hnodup (hnodes.sep ht hf hb hne)⟩

end SplicedOut

theorem insertFd_splicedIn {head : Nat} (ht : Tiled g.cell heaps) (hn : Nodes g (p :: ns))
    (hh : head ∈ ns) (hv : fd m head ∈ ns) (hp : p ∉ ns) :
    SplicedIn m (insertIntoFdlist m head p) 16 24 p head (fd m head) := by
  have hsep := hn.sep ht (f := 16) (b := 24) (by omega) (by omega) (by omega)
  have h1 := hsep head (by simp [hh]) p (by simp)
  have h2 := hsep head (by simp [hh]) _ (mem_cons_of_mem p hv)
  have h3 := hsep p (by simp) _ (mem_cons_of_mem p hv)
  have h4 : head ≠ p := by
    rintro rfl
    exact hp hh
  have h5 : fd m head ≠ p := by
    intro he
    exact hp (he ▸ hv)
  intro a
  unfold insertIntoFdlist
  simp only [fd, Mem.set] at *
  grind

theorem Inv.node_of_free (h : Inv E g ar m) (hk : (g.kind p).free = true) : Nodes g [p] := by
  intro n hn
  obtain rfl := mem_singleton.mp hn
  obtain ⟨z, hz, hz32⟩ := h.live_chunk (c := n) (by intro he; simp [he, free] at hk)
  exact ⟨_, hz, Cell.lt_chunk (by omega), by simp [opened, (of_free hk).2.2.2]⟩

theorem Nodes.cons (hp : Nodes g [p]) (hn : Nodes g ns) : Nodes g (p :: ns) := by
  intro n hmem
  rcases mem_cons.mp hmem with rfl | hmem
  · exact hp n (by simp)
  · exact hn n hmem

theorem Inv.links_of_ring (h : Inv E g ar m) (hv : b.Valid) (hk : g.kind p = .binned b ∨ g.kind p = b.outside)
    (hT : Touches m m' 16 24 (p :: b.head ar :: g.ring b)) (hP : Path (fd m') (bk m') (b.head ar) l (b.head ar))
    (κ : Nat → Kind) : Links { g with kind := κ, ring := update g.ring b l } ar m' := by
  have hfree : (g.kind p).free = true := by
    rcases hk with hk | hk <;> rw [hk]
    · rfl
    · cases b <;> rfl
  have hN := (h.node_of_free hfree).cons (h.ring_nodes hv)
  have hcell := fun {d o : Nat} {y : Cell} => hT.cell hN h.tiled (by omega) (by omega) (d := d) (o := o) (y := y)
  constructor
  · intro b' hv'
    by_cases hbb : b' = b
    · subst hbb
      simpa using hP
    · have hout : ∀ a, a = b'.head ar ∨ a ∈ g.ring b' → a ∉ p :: b.head ar :: g.ring b := by
        intro a ha
        have hka : g.kind a = .loose ∨ g.kind a = .binned b' := by
          rcases ha with rfl | ha
          · exact .inl (h.bins.head_loose hv')
          · exact .inr ((h.bins.ring b' a).mp ha)
        simp only [mem_cons, not_or]
        refine ⟨?_, ?_, ?_⟩
        · rintro rfl
          rcases hka with hka | hka <;> rcases hk with hk | hk <;> rw [hka] at hk
          · cases hk
          · cases b <;> cases hk
          · cases hk
            exact hbb rfl
          · cases b <;> cases hk
        · rintro rfl
          rcases ha with ha | ha
          · exact hbb (h.bins.sentinelInj b' b hv' hv ha.symm)
          · simp [h.bins.ring, h.bins.head_loose hv] at ha
        · intro hm
          rw [h.bins.ring b a] at hm
          rcases hka with hka | hka <;> rw [hka] at hm <;> cases hm
          exact hbb rfl
      simp only [update_of_ne hbb]
      apply (h.links.ring b' hv').congr_ring
      intro a ha
      obtain ⟨y, hy, hext, -⟩ := h.bins.ring_node h.tiled hv' ha
      exact ⟨hcell hy (by omega) (.inl (hout a ha)), hcell hy (by omega) (.inl (hout a ha))⟩
  · intro i hi
    apply (h.links.order i hi).congr_ring
    intro a ha
    obtain ⟨y, hy, hext, -⟩ := h.bins.order_node h.tiled hi ha
    exact ⟨hcell hy (by omega) (.inr (by omega)), hcell hy (by omega) (.inr (by omega))⟩
  · intro i hi
    apply (h.links.fast i hi).congr
    intro a ha
    obtain ⟨z, hz, hz32, hka⟩ := h.bins.fast_node h.tiled ha
    refine hcell hz (Cell.lt_chunk (by omega)) (.inl ?_)
    simp only [mem_cons, not_or]
    refine ⟨?_, ?_, ?_⟩
    · rintro rfl
      rcases hk with hk | hk <;> rw [hka] at hk
      · cases hk
      · cases b <;> simp [outside] at hk
    · rintro rfl
      simp [h.bins.head_loose hv] at hka
    · intro hm
      simp [h.bins.ring b a, hka] at hm

theorem Inv.links_of_order (h : Inv E g ar m) (hi : i < LARGEBINS_COUNT)
    (hk : g.kind p = .detached ∨ g.kind p = .ranked i) (hT : Touches m m' 32 40 (p :: ar.largebins i :: g.order i))
    (hP : Path (nextSizeptr m') (prevSizeptr m') (ar.largebins i) l (ar.largebins i)) (κ : Nat → Kind) :
    Links { g with kind := κ, order := update g.order i l } ar m' := by
  have hfree : (g.kind p).free = true := by
    rcases hk with hk | hk <;> rw [hk] <;> rfl
  have hN := (h.node_of_free hfree).cons (h.order_nodes hi)
  have hcell := fun {d o : Nat} {y : Cell} => hT.cell hN h.tiled (by omega) (by omega) (d := d) (o := o) (y := y)
  constructor
  · intro b hv
    apply (h.links.ring b hv).congr_ring
    intro a ha
    obtain ⟨y, hy, hext, -⟩ := h.bins.ring_node h.tiled hv ha
    exact ⟨hcell hy (by omega) (.inr (by omega)), hcell hy (by omega) (.inr (by omega))⟩
  · intro j hj
    by_cases hij : j = i
    · subst hij
      simpa using hP
    · have hloose : ∀ {j}, j < LARGEBINS_COUNT → g.kind (ar.largebins j) = .loose :=
        fun {j} hj => h.bins.head_loose (b := .large j) hj
      have hout : ∀ a, a = ar.largebins j ∨ a ∈ g.order j → a ∉ p :: ar.largebins i :: g.order i := by
        intro a ha
        have hka : g.kind a = .loose ∨ g.kind a = .binned (.large j) ∨ g.kind a = .ranked j := by
          rcases ha with rfl | ha
          · exact .inl (hloose hj)
          · exact .inr ((h.bins.order j a).mp ha)
        simp only [mem_cons, not_or]
        refine ⟨?_, ?_, ?_⟩
        · rintro rfl
          rcases hka with hka | hka | hka <;> rcases hk with hk | hk <;> rw [hka] at hk <;> cases hk
          exact hij rfl
        · rintro rfl
          rcases ha with ha | ha
          · cases h.bins.sentinelInj (.large j) (.large i) hj hi ha.symm
            exact hij rfl
          · simp [h.bins.order, hloose hi] at ha
        · intro hm
          rw [h.bins.order i a] at hm
          rcases hka with hka | hka | hka <;> rcases hm with hm | hm <;> rw [hka] at hm <;> cases hm <;> exact hij rfl
      simp only [update_of_ne hij]
      apply (h.links.order j hj).congr_ring
      intro a ha
      obtain ⟨y, hy, hext, -⟩ := h.bins.order_node h.tiled hj ha
      exact ⟨hcell hy (by omega) (.inl (hout a ha)), hcell hy (by omega) (.inl (hout a ha))⟩
  · intro j hj
    apply (h.links.fast j hj).congr
    intro a ha
    obtain ⟨z, hz, hz32, -⟩ := h.bins.fast_node h.tiled ha
    exact hcell hz (Cell.lt_chunk (by omega)) (.inr (by omega))

def Ghost.unring (g : Ghost) (p : Nat) (b : Bin) : Ghost :=
  { g with kind := update g.kind p b.outside, ring := update g.ring b ((g.ring b).erase p) }

def Ghost.enring (g : Ghost) (p : Nat) (b : Bin) : Ghost :=
  { g with kind := update g.kind p (.binned b), ring := update g.ring b (p :: g.ring b) }

def Ghost.unrank (g : Ghost) (p i : Nat) : Ghost :=
  { g with kind := update g.kind p .detached, order := update g.order i ((g.order i).erase p) }

def Ghost.enrank (g : Ghost) (p i : Nat) (l : List Nat) : Ghost :=
  { g with kind := update g.kind p (.ranked i), order := update g.order i l }

def Moved (p : Nat) (mem : Prop) (l l' : List Nat) : Prop :=
  l'.Nodup ∧ ∀ c, c ∈ l' ↔ c = p ∧ mem ∨ c ≠ p ∧ c ∈ l

theorem moved_refl {mem : Prop} (hn : l.Nodup) (hp : p ∈ l ↔ mem) : Moved p mem l l := by
  refine ⟨hn, fun c => ?_⟩
  by_cases hc : c = p
  · subst hc
    simp [hp]
  · simp [hc]

theorem moved_erase {q : Prop} (hn : l.Nodup) (hm : ¬ q) : Moved p q l (l.erase p) := by
  refine ⟨hn.erase p, fun c => ?_⟩
  simp [hn.mem_erase_iff, hm]

theorem moved_insert {mem : Prop} {k : List Nat} (hn : (l ++ k).Nodup) (hp : p ∉ l ++ k) (hm : mem) :
    Moved p mem (l ++ k) (l ++ p :: k) := by
  refine ⟨nodup_middle.mpr (nodup_cons.mpr ⟨hp, hn⟩), fun c => ?_⟩
  simp only [mem_append, mem_cons] at hp ⊢
  by_cases hc : c = p
  · simp [hc, hm]
  · simp [hc]

theorem Bins.relist {g' : Ghost} (h : Bins g ar) (hcell : g'.cell = g.cell)
    (hkind : g'.kind = update g.kind p k) (hp : g.cell p = some (.chunk z)) (hfits : k.Fits z)
    (htop : k ≠ .top) (hring : ∀ b, Moved p (k = .binned b) (g.ring b) (g'.ring b))
    (horder : ∀ i, Moved p (k = .binned (.large i) ∨ k = .ranked i) (g.order i) (g'.order i))
    (hfast : ∀ i, Moved p (k = .fast i) (g.fast i) (g'.fast i)) (hsorted : ∀ i, (g'.order i).Pairwise g.NotLarger) :
    Bins g' ar := by
  have hself : g'.kind p = k := by simp [hkind]
  have hother : ∀ c, c ≠ p → g'.kind c = g.kind c := by
    intro c hc
    simp [hkind, hc]
  obtain ⟨ring, order, fast, -, -, -, home, fits, top, sent, inj, -⟩ := h
  constructor
  · intro b c
    rw [(hring b).2 c]
    by_cases hc : c = p
    · simp [hc, hself]
    · simp [hc, ring, hother c hc]
  · intro i c
    rw [(horder i).2 c]
    by_cases hc : c = p
    · simp [hc, hself]
    · simp [hc, order, hother c hc]
  · intro i c
    rw [(hfast i).2 c]
    by_cases hc : c = p
    · simp [hc, hself]
    · simp [hc, fast, hother c hc]
  · exact fun b => (hring b).1
  · exact fun i => (horder i).1
  · exact fun i => (hfast i).1
  · intro c hc
    rw [hcell]
    by_cases hcp : c = p
    · exact ⟨z, hcp ▸ hp⟩
    · exact home c (hother c hcp ▸ hc)
  · intro c w hw
    rw [hcell] at hw
    by_cases hcp : c = p
    · subst hcp
      cases hp.symm.trans hw
      exact hself ▸ hfits
    · exact hother c hcp ▸ fits c w hw
  · intro c w hc hw
    rw [hcell] at hw ⊢
    by_cases hcp : c = p
    · subst hcp
      exact absurd (hself.symm.trans hc) htop
    · exact top c w (hother c hcp ▸ hc) hw
  · rw [hcell]
    exact sent
  · exact inj
  · unfold Ghost.NotLarger
    rw [hcell]
    exact hsorted

theorem Kind.ne_loose_of_flat (h : k.flat = true) : k ≠ .loose := by
  rintro rfl
  simp [flat] at h

section Relisting

variable (h : Inv E g ar m)

include h

theorem Inv.relist_of_touches {f b : Nat} (g' : Ghost) (hT : Touches m m' f b ns)
    (hN : Nodes g ns) (hf : 16 ≤ f ∧ f < 48) (hb : 16 ≤ b ∧ b < 48) (hcell : g'.cell = g.cell)
    (hkind : g'.kind = update g.kind p k) (hp : (g.kind p).free = true) (hk : k.free = true)
    (hflat : k.flat = true → m' (p + 32) = 0) (hother : ∀ c, c ≠ p → (g.kind c).flat = true → c ∉ ns ∨ 32 ≠ f ∧ 32 ≠ b)
    (hbins : Bins g' ar) (hl : Links g' ar m') : Inv E g' ar m' := by
  refine h.relist hcell hkind hp hk (fun c x hc => hT.head hN h.tiled hf hb hc) ?_
    (fun a ha => hT.frame hN h.guard hf.2 hb.2 ha) hbins hl
  intro c hc
  by_cases hcp : c = p
  · subst hcp
    exact hflat (by simpa [hkind] using hc)
  · have hc : (g.kind c).flat = true := by simpa [hkind, hcp] using hc
    obtain ⟨w, hw, hw32⟩ := h.live_chunk (ne_loose_of_flat hc)
    rw [hT.cell hN h.tiled hf.2 hb.2 hw (Cell.lt_chunk (by omega)) (hother c hcp hc)]
    exact h.words.flat c hc

theorem Inv.unlinkFd_splice (hk : g.kind p = .binned b) (hm' : unlinkChunkFromFdlist m p = m') :
    SplicedOut m m' 16 24 p ∧ Touches m m' 16 24 (b.head ar :: g.ring b) ∧
      Path (fd m') (bk m') (b.head ar) ((g.ring b).erase p) (b.head ar) := by
  have hv := h.valid hk
  have hN := h.ring_nodes hv
  have hp : p ∈ g.ring b := (h.bins.ring b p).mpr hk
  exact splice_of_path h.tiled hN (h.ring_nodup hv) (by omega) (by omega) (by omega) (h.links.ring b hv) hp fun hu hw =>
    hm' ▸ unlinkFd_splicedOut h.tiled hN (mem_cons_of_mem _ hp) hu hw

theorem Inv.rering (hv : b.Valid)
    (hk : g.kind p = .binned b ∧ k = b.outside ∨ g.kind p = b.outside ∧ k = .binned b)
    (hz : g.cell p = some (.chunk z)) (hfits : k.Fits z) (hT : Touches m m' 16 24 (p :: b.head ar :: g.ring b))
    (hm : Moved p (k = .binned b) (g.ring b) l) (hP : Path (fd m') (bk m') (b.head ar) l (b.head ar)) :
    Inv E { g with kind := update g.kind p k, ring := update g.ring b l } ar m' := by
  have hfree : (g.kind p).free = true ∧ k.free = true := by
    rcases hk with ⟨hk, rfl⟩ | ⟨hk, rfl⟩ <;> rw [hk] <;> cases b <;> exact ⟨rfl, rfl⟩
  have hN := (h.node_of_free hfree.1).cons (h.ring_nodes hv)
  have hz32 := (h.tiled.chunk p z hz).2.2
  refine h.relist_of_touches _ hT hN (by omega) (by omega) rfl rfl hfree.1 hfree.2 ?_
    (fun _ _ _ => .inr (by omega)) ?_ (h.links_of_ring hv (hk.imp (·.1) (·.1)) hT hP _)
  · intro hflat
    rw [hT.cell hN h.tiled (by omega) (by omega) hz (Cell.lt_chunk (by omega)) (.inr (by omega))]
    apply h.words.flat p
    rcases hk with ⟨hk, rfl⟩ | ⟨hk, rfl⟩ <;> rw [hk] <;> cases b <;> simp_all [outside, flat]
  · refine h.bins.relist rfl rfl hz hfits ?_ ?_ ?_ ?_ h.bins.sorted
    · rcases hk with ⟨-, rfl⟩ | ⟨-, rfl⟩ <;> cases b <;> simp [outside]
    · intro b'
      by_cases hb : b' = b
      · subst hb
        simpa using hm
      · simp only [update_of_ne hb]
        apply moved_refl (h.bins.ringNodup b')
        rw [h.bins.ring]
        rcases hk with ⟨hk, rfl⟩ | ⟨hk, rfl⟩ <;> rw [hk] <;> cases b <;> simp [outside, Ne.symm hb]
    · intro i
      apply moved_refl (h.bins.orderNodup i)
      rw [h.bins.order]
      rcases hk with ⟨hk, rfl⟩ | ⟨hk, rfl⟩ <;> rw [hk] <;> cases b <;> simp [outside]
    · intro i
      apply moved_refl (h.bins.fastNodup i)
      rw [h.bins.fast]
      rcases hk with ⟨hk, rfl⟩ | ⟨hk, rfl⟩ <;> rw [hk] <;> cases b <;> simp [outside]

theorem Inv.unlinkFd (hk : g.kind p = .binned b) : Inv E (g.unring p b) ar (unlinkChunkFromFdlist m p) := by
  obtain ⟨-, hT, hpath⟩ := h.unlinkFd_splice hk rfl
  obtain ⟨z, hz, -⟩ := h.live_chunk (c := p) (by simp [hk])
  have hfits := h.bins.fits p z hz
  rw [hk] at hfits
  refine h.rering (h.valid hk) (.inl ⟨hk, rfl⟩) hz ?_ (fun a ha => hT a fun n hn => ha n (mem_cons_of_mem _ hn))
    (moved_erase (h.bins.ringNodup b) ?_) hpath
  · cases b <;> simp_all [outside, Kind.Fits]
  · cases b <;> simp [outside]

theorem Inv.insertFd_splice (hv : b.Valid) (hk : g.kind p = b.outside)
    (hz : g.cell p = some (.chunk z)) : p ∉ b.head ar :: g.ring b ∧ Nodes g (p :: b.head ar :: g.ring b) ∧
      SplicedIn m (insertIntoFdlist m (b.head ar) p) 16 24 p (b.head ar) (fd m (b.head ar)) ∧
      Touches m (insertIntoFdlist m (b.head ar) p) 16 24 (p :: b.head ar :: g.ring b) := by
  have hfree : (g.kind p).free = true := by
    rw [hk]
    cases b <;> rfl
  have hN := (h.node_of_free hfree).cons (h.ring_nodes hv)
  have hpn : p ∉ b.head ar :: g.ring b := by
    simp only [mem_cons, not_or]
    constructor
    · rintro rfl
      simp [h.bins.sentinel b hv] at hz
    · rw [h.bins.ring, hk]
      cases b <;> simp [outside]
  have hw : fd m (b.head ar) ∈ b.head ar :: g.ring b := by
    rw [show fd m (b.head ar) = first (g.ring b) (b.head ar) from (h.links.ring b hv).next_eq]
    simpa [or_comm] using first_mem (g.ring b) (b.head ar)
  have hs := insertFd_splicedIn h.tiled hN (mem_cons_self) hw hpn
  exact ⟨hpn, hN, hs, touches_of_in hs mem_cons_self (mem_cons_of_mem _ mem_cons_self)
    (mem_cons_of_mem _ hw)⟩

theorem Inv.insertFd_deep {o : Nat} (hv : b.Valid) (hk : g.kind p = b.outside)
    (hz : g.cell p = some (.chunk z)) (ho : 48 ≤ o) (ho' : o < 16 + z) :
    insertIntoFdlist m (b.head ar) p (p + o) = m (p + o) := by
  obtain ⟨-, hN, -, hT⟩ := h.insertFd_splice hv hk hz
  exact hT.cell hN h.tiled (by omega) (by omega) hz (by simpa using ho') (.inr (by omega))

theorem Inv.insertFd (hv : b.Valid) (hk : g.kind p = b.outside)
    (hz : g.cell p = some (.chunk z)) (hfits : (binned b).Fits z) :
    Inv E (g.enring p b) ar (insertIntoFdlist m (b.head ar) p) := by
  obtain ⟨hpn, hN, hs, hT⟩ := h.insertFd_splice hv hk hz
  have hP := h.links.ring b hv
  have hnext : fd m (b.head ar) = first (g.ring b) (b.head ar) := hP.next_eq
  have hprev : bk m (first (g.ring b) (b.head ar)) = b.head ar := hP.prev_first
  have hpath : Path (fd (insertIntoFdlist m (b.head ar) p)) (bk (insertIntoFdlist m (b.head ar) p)) (b.head ar)
      (p :: g.ring b) (b.head ar) :=
    hs.path (l := []) hnext (hnext ▸ hprev.symm) hP (h.ring_nodup hv) hpn
      (hN.sep h.tiled (by omega) (by omega) (by omega))
  refine h.rering hv (.inr ⟨hk, rfl⟩) hz hfits hT ?_ hpath
  exact moved_insert (l := []) (h.bins.ringNodup b) (fun hm => hpn (mem_cons_of_mem _ hm)) rfl

theorem Inv.unlinkSorted_flat (hk : (g.kind p).flat = true) : unlinkChunkFromSortedlist m p = m := by
  unfold unlinkChunkFromSortedlist
  rw [if_pos (.inr (h.words.flat p hk))]

theorem Inv.ranked_valid (hk : g.kind p = .ranked i) : i < LARGEBINS_COUNT := by
  obtain ⟨z, hz, -⟩ := h.live_chunk (c := p) (by simp [hk])
  have := h.bins.fits p z hz
  rw [hk] at this
  exact getLargebinIndex_lt this

theorem Inv.unlinkSorted_splice (hk : g.kind p = .ranked i) (hm' : unlinkChunkFromSortedlist m p = m') :
    SplicedOut m m' 32 40 p ∧ Touches m m' 32 40 (ar.largebins i :: g.order i) ∧
      Path (nextSizeptr m') (prevSizeptr m') (ar.largebins i) ((g.order i).erase p) (ar.largebins i) := by
  have hi := h.ranked_valid hk
  have hN := h.order_nodes hi
  have hp : p ∈ g.order i := (h.bins.order i p).mpr (.inr hk)
  exact splice_of_path h.tiled hN (h.order_nodup hi) (by omega) (by omega) (by omega) (h.links.order i hi) hp fun hu hw =>
    hm' ▸ unlinkSorted_splicedOut h.tiled hN (mem_cons_of_mem _ hp) hu hw

theorem Inv.rerank (hi : i < LARGEBINS_COUNT)
    (hk : g.kind p = .ranked i ∧ k = .detached ∨ g.kind p = .detached ∧ k = .ranked i)
    (hz : g.cell p = some (.chunk z)) (hfits : k.Fits z)
    (hT : Touches m m' 32 40 (p :: ar.largebins i :: g.order i)) (hflat : k.flat = true → m' (p + 32) = 0)
    (hm : Moved p (k = .ranked i) (g.order i) l) (hsorted : l.Pairwise g.NotLarger)
    (hP : Path (nextSizeptr m') (prevSizeptr m') (ar.largebins i) l (ar.largebins i)) :
    Inv E { g with kind := update g.kind p k, order := update g.order i l } ar m' := by
  have hfree : (g.kind p).free = true ∧ k.free = true := by
    rcases hk with ⟨hk, rfl⟩ | ⟨hk, rfl⟩ <;> rw [hk] <;> exact ⟨rfl, rfl⟩
  have hlarge : ∀ j, k ≠ .binned (.large j) := by
    rcases hk with ⟨-, rfl⟩ | ⟨-, rfl⟩ <;> simp
  have hN := (h.node_of_free hfree.1).cons (h.order_nodes hi)
  refine h.relist_of_touches _ hT hN (by omega) (by omega) rfl rfl hfree.1 hfree.2 hflat ?_ ?_
    (h.links_of_order hi (hk.symm.imp (·.1) (·.1)) hT hP _)
  · intro c hcp hflat
    left
    intro hm
    rcases mem_cons.mp hm with rfl | hm
    · exact hcp rfl
    rcases mem_cons.mp hm with rfl | hm
    · exact ne_loose_of_flat hflat (h.bins.head_loose (b := .large i) hi)
    · rcases (h.bins.order i c).mp hm with hk' | hk' <;> simp [hk', flat] at hflat
  · refine h.bins.relist rfl rfl hz hfits ?_ ?_ ?_ ?_ ?_
    · rcases hk with ⟨-, rfl⟩ | ⟨-, rfl⟩ <;> simp
    · intro b
      apply moved_refl (h.bins.ringNodup b)
      rw [h.bins.ring]
      rcases hk with ⟨hk, rfl⟩ | ⟨hk, rfl⟩ <;> simp [hk]
    · intro j
      by_cases hj : j = i
      · subst hj
        simpa [hlarge] using hm
      · simp only [update_of_ne hj]
        apply moved_refl (h.bins.orderNodup j)
        rw [h.bins.order]
        rcases hk with ⟨hk, rfl⟩ | ⟨hk, rfl⟩ <;> simp [hk, Ne.symm hj]
    · intro j
      apply moved_refl (h.bins.fastNodup j)
      rw [h.bins.fast]
      rcases hk with ⟨hk, rfl⟩ | ⟨hk, rfl⟩ <;> simp [hk]
    · intro j
      by_cases hj : j = i
      · subst hj
        simpa using hsorted
      · simpa only [update_of_ne hj] using h.bins.sorted j

theorem Inv.unlinkSorted (hk : g.kind p = .ranked i) : Inv E (g.unrank p i) ar (unlinkChunkFromSortedlist m p) := by
  obtain ⟨z, hz, -⟩ := h.live_chunk (c := p) (by simp [hk])
  obtain ⟨hs, hT, hpath⟩ := h.unlinkSorted_splice hk rfl
  exact h.rerank (h.ranked_valid hk) (.inl ⟨hk, rfl⟩) hz trivial (fun a ha => hT a fun n hn => ha n (mem_cons_of_mem _ hn))
    (fun _ => by simp [hs (p + 32)]) (moved_erase (h.bins.orderNodup i) (by simp))
    ((h.bins.sorted i).sublist erase_sublist) hpath

theorem Inv.insertSorted (hi : getLargebinIndex z = some i) (hk : g.kind p = .detached)
    (hz : g.cell p = some (.chunk z)) (hl : g.order i = l1 ++ l2) (hlow : ∀ a ∈ l1, g.NotLarger a p)
    (hhigh : ∀ a ∈ l2, g.NotLarger p a) {ceil floor : Nat} (hceil : ceil = first l2 (ar.largebins i))
    (hfloor : floor = prevSizeptr m ceil) : Inv E (g.enrank p i (l1 ++ p :: l2)) ar
      ((((m.set (p + 32) ceil).set (p + 40) floor).set (ceil + 40) p).set (floor + 32) p) := by
  have hi' := getLargebinIndex_lt hi
  have hfree : (g.kind p).free = true := by
    rw [hk]
    rfl
  have hN := (h.node_of_free hfree).cons (h.order_nodes hi')
  have hpn : p ∉ ar.largebins i :: g.order i := by
    simp only [mem_cons, not_or]
    constructor
    · rintro rfl
      cases (h.bins.sentinel (.large i) hi').symm.trans hz
    · simp [h.bins.order, hk]
  have hP := h.links.order i hi'
  have hceilm : ceil ∈ ar.largebins i :: g.order i := by
    have := first_mem l2 (ar.largebins i)
    rw [hceil, hl]
    simp only [mem_cons, mem_append, not_mem_nil] at this ⊢
    tauto
  have hfloorm : floor ∈ ar.largebins i :: g.order i := by
    have := Path.prev_mem (hl ▸ hP)
    rw [hfloor, hceil, hl]
    simp only [mem_cons, mem_append] at this ⊢
    tauto
  have hsep := hN.sep h.tiled (f := 32) (b := 40) (by omega) (by omega) (by omega)
  have hs : SplicedIn m ((((m.set (p + 32) ceil).set (p + 40) floor).set (ceil + 40) p).set (floor + 32) p)
      32 40 p floor ceil := by
    have h1 := hsep floor (mem_cons_of_mem _ hfloorm) ceil (mem_cons_of_mem _ hceilm)
    have h2 := hsep p mem_cons_self ceil (mem_cons_of_mem _ hceilm)
    have h3 := hsep floor (mem_cons_of_mem _ hfloorm) p mem_cons_self
    have h4 : ceil ≠ p := fun he => hpn (he ▸ hceilm)
    have h5 : floor ≠ p := fun he => hpn (he ▸ hfloorm)
    intro a
    simp only [Mem.set]
    grind
  have hT := touches_of_in hs mem_cons_self (mem_cons_of_mem _ hfloorm) (mem_cons_of_mem _ hceilm)
  have hpath := hs.path hceil hfloor (hl ▸ hP) (hl ▸ h.order_nodup hi') (hl ▸ hpn) (hl ▸ hsep)
  refine h.rerank hi' (.inr ⟨hk, rfl⟩) hz hi hT (by simp [flat]) ?_ ?_ hpath
  · have hr := h.bins.orderNodup i
    rw [hl] at hr hpn ⊢
    exact moved_insert hr (fun hm => hpn (mem_cons_of_mem _ hm)) rfl
  · have hsorted := h.bins.sorted i
    rw [hl, pairwise_append] at hsorted
    refine pairwise_append.mpr ⟨hsorted.1, pairwise_cons.mpr ⟨hhigh, hsorted.2.1⟩, fun a ha b hb => ?_⟩
    rcases mem_cons.mp hb with rfl | hb
    · exact hlow a ha
    · exact hsorted.2.2 a ha b hb

end Relisting

theorem Bins.congr_arena {a ar' : Arena} (h : Bins g a) (htop : ar'.topChunk = a.topChunk)
    (hheads : ∀ b : Bin, b.head ar' = b.head a) : Bins g ar' := by
  obtain ⟨ring, order, fast, rn, odn, fn, home, fits, top, sent, inj, sorted⟩ := h
  refine ⟨ring, order, fast, rn, odn, fn, home, fits, ?_, ?_, ?_, sorted⟩
  · rwa [htop]
  · intro b hv
    rw [hheads]
    exact sent b hv
  · intro b b' hv hv' he
    rw [hheads, hheads] at he
    exact inj b b' hv hv' he

def Ghost.refast (g : Ghost) (c i : Nat) (k : Kind) (l : List Nat) : Ghost :=
  { g with kind := update g.kind c k, fast := update g.fast i l }

theorem Inv.refast (h : Inv E g ar m) {c q : Nat} (hc : g.cell c = some (.chunk z))
    (hk : g.kind c = .carved ∨ g.kind c = .fast i) (hk' : k = .carved ∨ k = .fast i)
    (hown : Own E.strict k z (m (c + 8))) (hfits : k.Fits z) (hm : Moved c (k = .fast i) (g.fast i) l)
    (hl : Chain m q l) : Inv E (g.refast c i k l) { ar with fastbins := update ar.fastbins i q } m := by
  have hheads : ∀ b : Bin, b.head { ar with fastbins := update ar.fastbins i q } = b.head ar := by
    intro b
    cases b <;> rfl
  have hused : ∀ k : Kind, k = .carved ∨ k = .fast i → k.used = some true ∧ k.flat = false ∧ k.busy = false := by
    rintro k (rfl | rfl) <;> exact ⟨rfl, rfl, rfl⟩
  have hself : (g.refast c i k l).kind c = k := by simp [Ghost.refast]
  have hother : ∀ d, d ≠ c → (g.refast c i k l).kind d = g.kind d := by
    intro d hd
    simp [Ghost.refast, hd]
  constructor
  · exact h.tiled
  · refine Bins.congr_arena (a := ar) (h.bins.relist rfl rfl hc hfits ?_ ?_ ?_ ?_ h.bins.sorted) rfl hheads
    · rcases hk' with rfl | rfl <;> simp
    · intro b
      apply moved_refl (h.bins.ringNodup b)
      rw [h.bins.ring]
      rcases hk with hk | hk <;> rcases hk' with rfl | rfl <;> simp [hk]
    · intro j
      apply moved_refl (h.bins.orderNodup j)
      rw [h.bins.order]
      rcases hk with hk | hk <;> rcases hk' with rfl | rfl <;> simp [hk]
    · intro j
      by_cases hj : j = i
      · subst hj
        simpa [Ghost.refast] using hm
      · simp only [Ghost.refast, update_of_ne hj]
        apply moved_refl (h.bins.fastNodup j)
        rw [h.bins.fast]
        rcases hk with hk | hk <;> rcases hk' with rfl | rfl <;> simp [hk, Ne.symm hj]
  · obtain ⟨own, foot, start, bound, block, flat⟩ := h.words
    refine ⟨?_, ?_, start, bound, block, ?_⟩
    · intro d w hd
      by_cases hdc : d = c
      · subst hdc
        cases hc.symm.trans hd
        rwa [hself]
      · rw [hother d hdc]
        exact own d w hd
    · intro d w hd
      by_cases hdc : d = c
      · subst hdc
        have hf := (foot d w hd).used true (hused _ hk).1
        rw [hself]
        exact ⟨by simp [(hused _ hk').1, hf], by simp [(hused _ hk').1]⟩
      · rw [hother d hdc]
        exact foot d w hd
    · intro d hd
      by_cases hdc : d = c
      · subst hdc
        simp [hself, (hused _ hk').2.1] at hd
      · exact flat d (hother d hdc ▸ hd)
  · constructor
    · intro b hv
      rw [hheads]
      exact h.links.ring b hv
    · exact h.links.order
    · intro j hj
      by_cases hji : j = i
      · subst hji
        simpa [Ghost.refast] using hl
      · simpa [Ghost.refast, hji] using h.links.fast j hj
  · obtain ⟨frame, spare, marks, strict⟩ := h.guard
    refine ⟨frame, ?_, ?_, ?_⟩
    · intro d x o hd ho hx
      apply spare d x o hd ho
      cases x with
      | chunk w =>
        by_cases hdc : d = c
        · subst hdc
          simp [opened, (hused _ hk).2.2]
        · simpa only [opened, hother d hdc] using hx
      | bound | sentinel | block => exact hx
    · exact fun hma d w hd => marks hma d w hd
    · intro hs d hd
      by_cases hdc : d = c
      · subst hdc
        rw [hself] at hd
        rcases hk' with rfl | rfl <;> simp at hd
      · exact strict hs d (hother d hdc ▸ hd)

end Picasso.Alloc.Invariant
