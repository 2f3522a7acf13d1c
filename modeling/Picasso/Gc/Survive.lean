import Picasso.Gc.Sweep

namespace Picasso.Gc.Survive

open Alloc.Chunk Alloc.Layout Alloc.Arenas Alloc.Custody Collector Sweep List Function
open Alloc.Invariant hiding Inv

variable {strict : Bool} {w w' w₁ : World} {G G₁ : Nat → Ghost} {g' : Ghost} {h : Holding} {i scan : Nat}

variable {s c j n : Nat} {h' : Holding} {k : Cursor} {cs : List Cursor}

theorem spot (hw : Upkeep strict w G) (hi : w.arenas[i]? = some h) {e : Nat} (hh : (s, e) ∈ h.ar.allocedHeaps)
    (hs : s ≤ scan) (he : scan < e) (hp : Passed (G i) w.mem scan) :
    ∃ d x, (G i).cell d = some (.chunk x) ∧ scan + 16 + getSize w.mem scan = d + 16 + x ∧
      (scan = d ∨ d + 48 ≤ scan ∧ ((G i).kind d).busy = false) := by
  have hk := hw.kempt i h hi
  rcases passed_cases hk.inv hh hs he hp with ⟨z, hc, -⟩ | ⟨d, x, y, hd, hb, hle, hn, -, hz, -⟩
  · have hsize : getSize w.mem scan = z := hk.settled.getSize hk.inv hc
    exact ⟨scan, z, hc, by rw [hsize], .inl rfl⟩
  · have hsize : getSize w.mem scan = y := hz
    exact ⟨d, x, hd, by rw [hsize, hn], .inr ⟨hle, hb⟩⟩

section Spot

variable (hw : Upkeep strict w G) (hi : w.arenas[i]? = some h) {d x : Nat} (hd : (G i).cell d = some (.chunk x))
  (hn : scan + 16 + getSize w.mem scan = d + 16 + x) (hor : scan = d ∨ d + 48 ≤ scan ∧ ((G i).kind d).busy = false)

include hd hn hor

theorem spot_owned : (G i).Owned scan := owned_chunk hd (by omega)

include hw hi

theorem spot_not_payload {c : Nat} : ¬ Payload (G i) c scan := by
  rintro ⟨y, hy, hop, hle, hlt⟩
  obtain ⟨rfl, -⟩ := (hw.kempt i h hi).inv.tiled.sep hy hd (o := scan - c) (u := scan - d) (by omega)
    (Cell.lt_chunk (by omega)) (by omega)
  cases hy.symm.trans hd
  rcases hor with hs | ⟨-, hb⟩
  · omega
  · simp [Ghost.opened, hb] at hop

theorem spot_next {c : Nat} {y : Cell} (hc : (G i).cell c = some y) (hle : scan ≤ c) (hne : c ≠ scan) :
    scan + 16 + getSize w.mem scan ≤ c := by
  have hdc : d < c := by omega
  have := (hw.kempt i h hi).inv.tiled.apart d c _ y hd hc hdc
  simp only [Cell.extent_chunk] at this
  omega

end Spot

section Cells

variable (hw : Upkeep strict w G)

include hw

theorem live_cell (hi : w.arenas[i]? = some h) (hl : (G i).kind c = .live) :
    ∃ z, (G i).cell c = some (.chunk z) := (hw.kempt i h hi).inv.bins.home c (by simp [hl])

theorem visit_keeps (hi : w.arenas[i]? = some h) (hown : (G i).Owned scan)
    (hpay : ∀ c, ¬ Payload (G i) c scan) (hv : Visit strict w G i h scan w' g') {d : Bool} (hj : j < w.arenas.length)
    (hd : Handed (G j) c d) (hmark : d = false → j = i → c = scan → hasFlag (w.mem scan) GC_MARK = true) :
    Handed (update G i g' j) c d ∧ (update G i g' j).cell c = (G j).cell c ∧
      ∀ a, Payload (G j) c a → w'.mem a = w.mem a := by
  cases hv with
  | clear marked =>
    rw [update_eq_self]
    refine ⟨hd, rfl, fun a ha => if_neg ?_⟩
    rintro rfl
    by_cases hji : j = i
    · subst hji
      exact hpay c ha
    · exact hw.apart j i hji hj (lt_of_arena hi) a ha.owned hown
  | pass => rw [update_eq_self]; exact ⟨hd, rfl, fun _ _ => rfl⟩
  | drop gone unmarked curr cell dropped =>
    have hframe := dropped.inv.guard.frame
    by_cases hji : j = i
    · subst hji
      have hne : c ≠ scan := by
        rintro rfl
        cases d with
        | false => simp [hmark rfl rfl rfl] at unmarked
        | true =>
          obtain ⟨z, hz⟩ := hd
          cases hz.symm.trans cell
      rw [update_self]
      exact ⟨(dropped.lost.toAside.handed hne d).mpr hd, dropped.lost.toAside.cell hne hd,
        fun a ha => hframe a (.inr ⟨c, hne, ha⟩)⟩
    · rw [update_of_ne hji]
      exact ⟨hd, rfl, fun a ha => hframe a (.inl ⟨j, hji, hj, ha.owned⟩)⟩

theorem visit_live (hi : w.arenas[i]? = some h) (hown : (G i).Owned scan)
    (hv : Visit strict w G i h scan w' g') (hj : w.arenas[j]? = some h')
    (hl : (update G i g' j).kind c = .live) :
    (G j).kind c = .live ∧ (j = i → c = scan → hasFlag (w.mem c) GC_MARK = true) ∧
      ((j = i → c ≠ scan) → hasFlag (w'.mem c) GC_MARK = hasFlag (w.mem c) GC_MARK) := by
  cases hv with
  | clear marked =>
    rw [update_eq_self] at hl
    refine ⟨hl, ?_, fun hne => ?_⟩
    · rintro - rfl
      exact marked
    · obtain ⟨z, hz⟩ := live_cell hw hj hl
      have hcs : c ≠ scan := by
        rintro rfl
        by_cases hji : j = i
        · exact hne hji rfl
        · exact hw.apart j i hji (lt_of_arena hj) (lt_of_arena hi) c
            (owned_chunk hz (by omega)) hown
      exact congrArg (hasFlag · GC_MARK) (if_neg hcs)
  | pass unmarked curr =>
    rw [update_eq_self] at hl
    refine ⟨hl, ?_, fun _ => rfl⟩
    rintro rfl rfl
    obtain ⟨z, hz⟩ := live_cell hw hi hl
    have hcur : isCurrInuse w.mem c = true :=
      ((hw.kempt j h hi).inv.words.own c z hz).curr true (by simp [hl, Kind.curr])
    simp [hcur] at curr
  | drop gone unmarked curr cell dropped =>
    by_cases hji : j = i
    · subst hji
      rw [update_self] at hl
      have hne : c ≠ scan := by
        rintro rfl
        exact dropped.lost.idle false hl
      obtain ⟨z, hz⟩ := dropped.inv.bins.home c (by simp [hl])
      refine ⟨?_, fun _ hc => absurd hc hne, fun _ => dropped.inv.guard.marks rfl c z hz⟩
      rw [← (dropped.lost.toAside.busy c hne (.inr (by simp [hl, Kind.busy]))).1, hl]
    · rw [update_of_ne hji] at hl
      refine ⟨hl, fun h _ => absurd h hji, fun _ => ?_⟩
      obtain ⟨z, hz⟩ := live_cell hw hj hl
      rw [show (w.put i _ _ gone).mem c = w.mem c from dropped.inv.guard.frame c (.inl ⟨j, hji, lt_of_arena hj,
        (owned_chunk hz (by omega))⟩)]

theorem visit_back (hi : w.arenas[i]? = some h) (hown : (G i).Owned scan)
    (hv : Visit strict w G i h scan w' g') {d : Bool} (hj : w.arenas[j]? = some h')
    (hd : Handed (update G i g' j) c d) :
    Handed (G j) c d ∧ (d = false → j = i → c = scan → hasFlag (w.mem scan) GC_MARK = true) := by
  cases d with
  | false =>
    obtain ⟨hl, hmark, -⟩ := visit_live hw hi hown hv hj hd
    refine ⟨hl, ?_⟩
    rintro - hji rfl
    exact hmark hji rfl
  | true =>
    refine ⟨?_, by simp⟩
    cases hv with
    | clear | pass => rwa [update_eq_self] at hd
    | drop gone unmarked curr cell dropped =>
      by_cases hji : j = i
      · subst hji
        rw [update_self] at hd
        refine (dropped.lost.toAside.handed ?_ true).mp hd
        rintro rfl
        exact dropped.lost.idle true hd
      · rwa [update_of_ne hji] at hd

def Ahead (cs : List Cursor) (i c : Nat) : Prop := ∃ k ∈ cs, k.arena = i ∧ k.scan ≤ c ∧ c < k.stop

/-- The sweep will not stand in front of a stale top chunk. -/
def TopFine (w : World) (G : Nat → Ghost) (cs : List Cursor) : Prop :=
  ∀ (i : Nat) (h : Holding), w.arenas[i]? = some h →
    TopOk (G i) h.ar ∨ ∀ k ∈ cs, k.arena = i → ¬ (k.scan < h.ar.topChunk ∧ h.ar.topChunk ≤ k.stop)

def Distinct (cs : List Cursor) : Prop := cs.Pairwise fun k k' => k.arena = k'.arena → k.stop ≠ k'.stop

structure Sweeping (w₁ : World) (G₁ : Nat → Ghost) (w : World) (G : Nat → Ghost) (cs : List Cursor) : Prop where
  upkeep : Upkeep false w G
  length : w.arenas.length = w₁.arenas.length
  head : ∀ k ∈ cs.head?, At w G k
  tail : ∀ k ∈ cs.tail, Begins w k
  distinct : Distinct cs
  top : TopFine w G cs
  survive : ∀ i c d, i < w₁.arenas.length → Handed (G₁ i) c d → (d = false → hasFlag (w₁.mem c) GC_MARK = true) →
    Handed (G i) c d ∧ (G i).cell c = (G₁ i).cell c ∧ ∀ a, Payload (G₁ i) c a → w.mem a = w₁.mem a
  ahead : ∀ i c, i < w₁.arenas.length → (G i).kind c = .live →
    Ahead cs i c → hasFlag (w.mem c) GC_MARK = hasFlag (w₁.mem c) GC_MARK
  behind : ∀ i c, i < w₁.arenas.length → (G i).kind c = .live → hasFlag (w₁.mem c) GC_MARK = false → Ahead cs i c

theorem distinct_cursors : Distinct (cursors w) := by
  refine pairwise_flatMap.mpr ⟨?_, ?_⟩
  · rintro ⟨h, i⟩ hi
    have hT := (hw.kempt i h (mem_zipIdx_iff_getElem?.mp hi)).inv.tiled
    refine pairwise_map.mpr (hT.disjoint.imp_of_mem ?_)
    rintro ⟨s, e⟩ ⟨s', e'⟩ hh hh' hd -
    have := (hT.heap s e hh).1
    have := (hT.heap s' e' hh').1
    dsimp only at hd ⊢
    omega
  · have hnd : (w.arenas.zipIdx.map Prod.snd).Nodup := by
      rw [zipIdx_map_snd]
      exact nodup_range'
    refine (pairwise_map.mp hnd).imp ?_
    rintro ⟨h, i⟩ ⟨h', i'⟩ hne k hk k' hk' hkk
    obtain ⟨r, -, rfl⟩ := mem_map.mp hk
    obtain ⟨r', -, rfl⟩ := mem_map.mp hk'
    exact absurd hkk hne

theorem ahead_cursors (hi : w.arenas[i]? = some h) {c z : Nat}
    (hz : (G i).cell c = some (.chunk z)) : Ahead (cursors w) i c := by
  obtain ⟨s, e, hse, hs, he⟩ := (hw.kempt i h hi).inv.tiled.inside c z hz
  refine ⟨⟨i, s, e⟩, mem_flatMap.mpr ⟨(h, i), ?_, mem_map.mpr ⟨(s, e), hse, rfl⟩⟩, rfl, hs, ?_⟩
  · exact mem_zipIdx_iff_getElem?.mpr hi
  · dsimp only
    omega

end Cells

theorem sweeping_init (hw : Sound false w G) : Sweeping w G w G (cursors w) := by
  have hbegins : ∀ k ∈ cursors w, Begins w k := fun k hk => begins_cursors hk
  refine ⟨hw.toUpkeep, rfl, fun k hk => (hbegins k (mem_of_mem_head? hk)).at hw.toUpkeep,
    fun k hk => hbegins k (mem_of_mem_tail hk), distinct_cursors hw.toUpkeep, fun i h hi => .inl (hw.top i h hi),
    fun i c d _ hd _ => ⟨hd, rfl, fun _ _ => rfl⟩, fun _ _ _ _ _ => rfl, ?_⟩
  intro i c hi hl _
  have hh := getElem?_eq_getElem hi
  obtain ⟨z, hz⟩ := live_cell hw.toUpkeep hh hl
  exact ahead_cursors hw.toUpkeep hh hz

theorem Ahead.advance (hle : k.scan ≤ n) (ha : Ahead ({ k with scan := n } :: cs) j c) : Ahead (k :: cs) j c := by
  obtain ⟨k', hk', hj, hs, he⟩ := ha
  rcases mem_cons.mp hk' with rfl | hk'
  · exact ⟨k, mem_cons_self, hj, Nat.le_trans hle hs, he⟩
  · exact ⟨k', mem_cons_of_mem _ hk', hj, hs, he⟩

theorem topFine_visit (hS : Sweeping w₁ G₁ w G (k :: cs)) (hi : w.arenas[k.arena]? = some h)
    (hh : (s, k.stop) ∈ h.ar.allocedHeaps) (hs : s ≤ k.scan) (he : k.scan < k.stop) (hn : k.scan < n)
    (hv : Visit false w G k.arena h k.scan w' g') :
    TopFine w' (update G k.arena g') ({ k with scan := n } :: cs) := by
  have hrest : ∀ t j, (∀ k' ∈ k :: cs, k'.arena = j → ¬ (k'.scan < t ∧ t ≤ k'.stop)) →
      ∀ k' ∈ { k with scan := n } :: cs, k'.arena = j → ¬ (k'.scan < t ∧ t ≤ k'.stop) := by
    intro t j hall k' hk' hj hbad
    rcases mem_cons.mp hk' with rfl | hk'
    · exact hall k mem_cons_self hj ⟨Nat.lt_trans hn hbad.1, hbad.2⟩
    · exact hall k' (mem_cons_of_mem _ hk') hj hbad
  intro j h' hj
  cases hv with
  | clear | pass =>
    rw [update_eq_self]
    exact (hS.top j h' hj).imp_right (hrest _ _)
  | drop gone unmarked curr cell dropped =>
    by_cases hji : j = k.arena
    · subst hji
      simp only [World.put, getElem?_set_self (lt_of_arena hi), Option.some.injEq] at hj
      subst hj
      rw [update_self]
      refine or_iff_not_imp_left.mpr fun hno => ?_
      have hsame := dropped.moved.resolve_right hno
      simp only [hsame]
      by_cases hkind : (G k.arena).kind k.scan = .top
      · have hT := (hS.upkeep.kempt k.arena h hi).inv
        rw [← (hT.bins.top k.scan _ hkind cell).1]
        intro k' hk' hj hbad
        rcases mem_cons.mp hk' with rfl | hk'
        · dsimp only at hbad
          omega
        · obtain ⟨h', hi', hh'⟩ := hS.tail k' hk'
          rw [hj] at hi'
          cases hi.symm.trans hi'
          have := hT.tiled.heap_unique hh hh' (a := k.scan) ⟨hs, by omega⟩ ⟨by omega, hbad.2⟩
          exact (pairwise_cons.mp hS.distinct).1 k' hk' hj.symm (Prod.mk.inj this).2
      · refine hrest _ _ ((hS.top k.arena h hi).resolve_left fun hok => hno (dropped.top hkind hok))
    · rw [update_of_ne hji]
      rw [World.put, getElem?_set_ne (Ne.symm hji)] at hj
      exact (hS.top j h' hj).imp_right (hrest _ _)

theorem not_ahead_scan (hw : Upkeep strict w G) (hi : w.arenas[k.arena]? = some h)
    (hh : (s, k.stop) ∈ h.ar.allocedHeaps) (hs : s ≤ k.scan) (hlt : k.scan < k.stop) (htail : ∀ k' ∈ cs, Begins w k')
    (hdist : Distinct (k :: cs)) (hn : k.scan < n) : ¬ Ahead ({ k with scan := n } :: cs) k.arena k.scan := by
  rintro ⟨k', hk', hka, hle, hlt'⟩
  rcases mem_cons.mp hk' with rfl | hk'
  · dsimp only at hle
    omega
  · obtain ⟨h'', hi'', hh''⟩ := htail k' hk'
    rw [hka] at hi''
    cases hi.symm.trans hi''
    have := (hw.kempt _ h hi).inv.tiled.heap_unique hh hh'' (a := k.scan) ⟨hs, by omega⟩ ⟨hle, by omega⟩
    exact (pairwise_cons.mp hdist).1 k' hk' hka.symm (Prod.mk.inj this).2

theorem ahead_next {d x : Nat} {y : Cell} (hw : Upkeep strict w G) (hi : w.arenas[k.arena]? = some h)
    (hd : (G k.arena).cell d = some (.chunk x)) (hn : k.scan + 16 + getSize w.mem k.scan = d + 16 + x)
    (hor : k.scan = d ∨ d + 48 ≤ k.scan ∧ ((G k.arena).kind d).busy = false) (hc : (G j).cell c = some y)
    (hne : j = k.arena → c ≠ k.scan) (ha : Ahead (k :: cs) j c) :
    Ahead ({ k with scan := k.scan + 16 + getSize w.mem k.scan } :: cs) j c := by
  obtain ⟨k', hk', rfl, hle, hlt'⟩ := ha
  rcases mem_cons.mp hk' with rfl | hk'
  · exact ⟨_, mem_cons_self, rfl, spot_next hw hi hd hn hor hc hle (hne rfl), hlt'⟩
  · exact ⟨k', mem_cons_of_mem _ hk', rfl, hle, hlt'⟩

theorem Sweeping.visit (hS : Sweeping w₁ G₁ w G (k :: cs)) (hlt : k.scan < k.stop) :
    ∃ h w' g', w.arenas[k.arena]? = some h ∧ Visit false w G k.arena h k.scan w' g' ∧
      sweepStep w (k :: cs) = some (w', { k with scan := k.scan + 16 + getSize w.mem k.scan } :: cs) ∧
      Sweeping w₁ G₁ w' (update G k.arena g') ({ k with scan := k.scan + 16 + getSize w.mem k.scan } :: cs) := by
  have hw := hS.upkeep
  obtain ⟨h, s, hi, hh, hs, -, hp⟩ := hS.head k (by simp)
  obtain ⟨d, x, hd, hn, hor⟩ := spot hw hi hh hs hlt hp
  have hown := spot_owned hd hn hor
  have htop : ∀ z, (G k.arena).cell k.scan = some (.chunk z) → h.ar.topChunk = k.scan + 16 + z →
      (G k.arena).kind (k.scan + 16 + z) = .top := by
    intro z hz he
    rw [← he]
    obtain ⟨s', e', hh', hs', he'⟩ := (hw.kempt _ h hi).inv.tiled.inside k.scan z hz
    cases (hw.kempt _ h hi).inv.tiled.heap_unique hh hh' (a := k.scan) ⟨hs, by omega⟩ ⟨hs', by omega⟩
    rcases hS.top _ h hi with (h0 | hok) | hno
    · omega
    · exact hok
    · exact absurd ⟨by omega, by omega⟩ (hno k mem_cons_self rfl)
  obtain ⟨w', g', hrun, hv, hu, hpass, hstop⟩ := Sweep.visit hw hi hh hs hlt hp htop (by simp)
  have hpos : k.scan < k.scan + 16 + getSize w.mem k.scan := by omega
  have hlen : w'.arenas.length = w.arenas.length := by cases hv <;> simp [World.put]
  have harena : ∀ j, j < w₁.arenas.length → ∃ h', w.arenas[j]? = some h' := fun j hj =>
    ⟨_, getElem?_eq_getElem (hS.length ▸ hj)⟩
  refine ⟨h, w', g', hi, hv, by simp [sweepStep, hlt, hrun, HEADER_SIZE], hu, hlen.trans hS.length, ?_,
    fun k' hk' => (hS.tail k' hk').congr (hv.sameHeaps hi),
    pairwise_cons.mpr (pairwise_cons.mp hS.distinct), topFine_visit hS hi hh hs hlt hpos hv, ?_, ?_, ?_⟩
  · intro k' hk'
    cases hk'
    obtain ⟨h', hi', heq⟩ := hv.sameHeaps hi _ h hi
    refine ⟨h', s, hi', by rwa [heq], by dsimp only; omega, hstop, ?_⟩
    rw [update_self]
    exact hpass
  · intro j c b hj hb hm
    obtain ⟨hb', hcell, hmem⟩ := hS.survive j c b hj hb hm
    have hmark : b = false → j = k.arena → c = k.scan → hasFlag (w.mem k.scan) GC_MARK = true := by
      rintro rfl rfl rfl
      rw [hS.ahead _ _ hj hb' ⟨k, mem_cons_self, rfl, Nat.le_refl _, hlt⟩, hm rfl]
    obtain ⟨hb'', hcell', hmem'⟩ := visit_keeps hw hi hown (fun c => spot_not_payload hw hi hd hn hor) hv
      (hS.length ▸ hj) hb' hmark
    have hop : ∀ a, Payload (G₁ j) c a → Payload (G j) c a := by
      obtain ⟨h', hj'⟩ := harena j hj
      obtain ⟨y, hy, hopen, -⟩ := (hw.kempt j h' hj').handed_cell hb'
      rintro a ⟨y', hy', -, hle, hlt⟩
      cases (hcell.symm.trans hy).symm.trans hy'
      exact ⟨y, hy, hopen, hle, hlt⟩
    exact ⟨hb'', hcell'.trans hcell, fun a ha => (hmem' a (hop a ha)).trans (hmem a ha)⟩
  · intro j c hj hl ha
    obtain ⟨h', hj'⟩ := harena j hj
    obtain ⟨hl', -, hsame⟩ := visit_live hw hi hown hv hj' hl
    rw [hsame ?_, hS.ahead j c hj hl' (ha.advance (Nat.le_of_lt hpos))]
    rintro rfl rfl
    exact not_ahead_scan hw hi hh hs hlt hS.tail hS.distinct hpos ha
  · intro j c hj hl hm
    obtain ⟨h', hj'⟩ := harena j hj
    obtain ⟨hl', hstand, -⟩ := visit_live hw hi hown hv hj' hl
    have hold := hS.behind j c hj hl' hm
    obtain ⟨z, hz⟩ := live_cell hw hj' hl'
    refine ahead_next hw hi hd hn hor hz (fun hja hc => ?_) hold
    have := hstand hja hc
    rw [hS.ahead _ c hj hl' hold, hm] at this
    cases this

theorem Sweeping.pop (hS : Sweeping w₁ G₁ w G (k :: cs)) (hlt : ¬ k.scan < k.stop) : Sweeping w₁ G₁ w G cs := by
  refine ⟨hS.upkeep, hS.length, fun k' hk' => (hS.tail k' (mem_of_mem_head? hk')).at hS.upkeep,
    fun k' hk' => hS.tail k' (mem_of_mem_tail hk'), (pairwise_cons.mp hS.distinct).2, ?_, hS.survive, ?_, ?_⟩
  · intro i h hi
    exact (hS.top i h hi).imp_right fun hno k' hk' => hno k' (mem_cons_of_mem _ hk')
  · rintro i c hi hl ⟨k', hk', hr⟩
    exact hS.ahead i c hi hl ⟨k', mem_cons_of_mem _ hk', hr⟩
  · intro i c hi hl hm
    obtain ⟨k', hk', hj, hle, hlt'⟩ := hS.behind i c hi hl hm
    rcases mem_cons.mp hk' with rfl | hk'
    · omega
    · exact ⟨k', hk', hj, hle, hlt'⟩

theorem Sweeping.run (n : Nat) (hS : Sweeping w₁ G₁ w G cs) (hn : (cs.map fun c => c.stop - c.scan + 1).sum < n) :
    ∃ w' G', sweepFrom n w cs = some w' ∧ Sweeping w₁ G₁ w' G' [] := by
  induction n generalizing w G cs with
  | zero => omega
  | succ n ih =>
    cases cs with
    | nil => exact ⟨w, G, rfl, hS⟩
    | cons k cs =>
      simp only [map_cons, sum_cons] at hn
      by_cases hlt : k.scan < k.stop
      · obtain ⟨-, w', g', -, -, hstep, hS'⟩ := hS.visit hlt
        obtain ⟨w'', G'', hrun, hend⟩ := ih hS' (by simp only [map_cons, sum_cons]; omega)
        exact ⟨w'', G'', by simp [sweepFrom, hstep, hrun], hend⟩
      · obtain ⟨w'', G'', hrun, hend⟩ := ih (hS.pop hlt) (by omega)
        exact ⟨w'', G'', by simp [sweepFrom, sweepStep, hlt, hrun], hend⟩

theorem gcSweep_spec (hw : Sound false w G) : ∃ w' G', gcSweep w = some w' ∧ Sweeping w G w' G' [] :=
  (sweeping_init hw).run _ (Nat.lt_succ_self _)

end Picasso.Gc.Survive
