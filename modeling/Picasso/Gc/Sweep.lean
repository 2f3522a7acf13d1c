import Picasso.Alloc.Runs
import Picasso.Gc.Collector

namespace Picasso.Gc.Sweep

open Alloc.Chunk Alloc.Allocator Alloc.Layout Alloc.Arenas Alloc.Custody Collector Function
open Alloc.Invariant hiding Inv

variable {strict : Bool} {w w' : World} {G : Nat → Ghost} {g' : Ghost} {h : Holding} {i scan : Nat}

inductive Visit (strict : Bool) (w : World) (G : Nat → Ghost) (i : Nat) (h : Holding) (scan : Nat) : World → Ghost → Prop
  | clear (marked : hasFlag (w.mem scan) GC_MARK = true) :
      Visit strict w G i h scan { w with mem := w.mem.set scan (withoutFlag (w.mem scan) GC_MARK) } (G i)
  | drop {z : Nat} {s : State} {g' : Ghost} (gone : List Nat) (unmarked : hasFlag (w.mem scan) GC_MARK = false)
      (curr : isCurrInuse w.mem scan = true) (cell : (G i).cell scan = some (.chunk z))
      (dropped : Dropped strict true w G i h scan z s g') :
      Visit strict w G i h scan (w.put i s (h.live.erase ⟨scan + 16, false⟩) gone) g'
  | pass (unmarked : hasFlag (w.mem scan) GC_MARK = false) (curr : isCurrInuse w.mem scan = false) :
      Visit strict w G i h scan w (G i)

variable {E : Env} {g : Ghost} {ar : Arena} {m : Mem} {c : Cursor}

theorem passed_cases (hI : Alloc.Invariant.Inv E g ar m) {s e : Nat} (hh : (s, e) ∈ ar.allocedHeaps) (hs : s ≤ scan)
    (he : scan < e) (hp : Passed g m scan) : (∃ z, g.cell scan = some (.chunk z) ∧ scan + 16 + z ≤ e) ∨
      ∃ d x y, g.cell d = some (.chunk x) ∧ (g.kind d).busy = false ∧ d + 48 ≤ scan ∧ scan + 16 + y = d + 16 + x ∧
        d + 16 + x ≤ e ∧ sizeBits (m (scan + 8)) = y ∧ hasFlag (m (scan + 8)) CURR_IN_USE = false := by
  rcases hp with ⟨y, hy, hin⟩ | ⟨d, x, y, hd, hb, hle, hn, hz, hc⟩
  · left
    cases y with
    | chunk z =>
      obtain ⟨s', e', hh', hs', he'⟩ := hI.tiled.inside scan z hy
      cases hI.tiled.heap_unique hh hh' (a := scan) ⟨hs, by omega⟩ ⟨hs', by omega⟩
      exact ⟨z, hy, he'⟩
    | bound =>
      obtain ⟨s', hh'⟩ := hI.tiled.fence scan hy
      have hse := (hI.tiled.heap s' scan hh').1
      cases hI.tiled.heap_unique hh hh' (a := scan) ⟨hs, by omega⟩ ⟨by omega, Nat.le_refl scan⟩
      omega
    | sentinel | block z => cases hin
  · right
    obtain ⟨s', e', hh', hs', he'⟩ := hI.tiled.inside d x hd
    cases hI.tiled.heap_unique hh hh' (a := scan) ⟨hs, by omega⟩ ⟨by omega, by omega⟩
    exact ⟨d, x, y, hd, hb, hle, hn, he', hz, hc⟩

theorem next_passed {m' : Mem} (hI : Alloc.Invariant.Inv E g ar m) {d x : Nat} (hd : g.cell d = some (.chunk x)) :
    Passed g m' (d + 16 + x) := by
  obtain ⟨y, hy, hin⟩ := hI.tiled.next d x hd
  exact .inl ⟨y, hy, hin⟩

theorem set_mark_inv (hI : Alloc.Invariant.Inv E g ar m) {c v : Nat} {x : Cell} (hc : g.cell c = some x)
    (hv : sizeBits v = sizeBits (m c)) (hm : E.marked = false) : Alloc.Invariant.Inv E g ar (m.set c v) := by
  refine hI.setPrev hc ?_ (by simp [hm])
  rintro p z hp rfl hu
  rw [hv]
  exact (hI.words.foot p z hp).prev hu

theorem sweepChunk_clear (hi : w.arenas[i]? = some h) (hm : hasFlag (w.mem scan) GC_MARK = true) :
    sweepChunk w i scan = some { w with mem := w.mem.set scan (withoutFlag (w.mem scan) GC_MARK) } := by
  simp [sweepChunk, hi, prevSize, hm]

theorem sweepChunk_pass (hi : w.arenas[i]? = some h) (hm : hasFlag (w.mem scan) GC_MARK = false)
    (hc : isCurrInuse w.mem scan = false) : sweepChunk w i scan = some w := by
  simp [sweepChunk, hi, prevSize, hm, hc]

theorem sweepChunk_drop (hi : w.arenas[i]? = some h) (hm : hasFlag (w.mem scan) GC_MARK = false)
    (hc : isCurrInuse w.mem scan = true) {t : State} (ht : release (w.state h) (scan + 16) = some t) :
    ∃ gone, sweepChunk w i scan = some (w.put i t (h.live.erase ⟨scan + 16, false⟩) gone) := by
  simp [sweepChunk, hi, prevSize, hm, hc, World.free, HEADER_SIZE, ht]

theorem curr_kind (hI : Alloc.Invariant.Inv E g ar m) (hset : g.Settled) {c z : Nat} (hc : g.cell c = some (.chunk z))
    (hcurr : isCurrInuse m c = true) : g.kind c = .live ∨ g.kind c = .unmapped ∨ g.kind c = .top := by
  have hown := (hI.words.own c z hc).curr
  have hfalse : ∀ {k : Kind}, g.kind c = k → k.curr E.strict = some false → False := by
    intro k hk hf
    have := hown false (by rw [hk, hf])
    rw [show hasFlag (m (c + 8)) CURR_IN_USE = true from hcurr] at this
    cases this
  have hs := hset c z hc
  cases hk : g.kind c with
  | live => exact .inl rfl
  | unmapped => exact .inr (.inl rfl)
  | top => exact .inr (.inr rfl)
  | fast i | binned b => exact (hfalse hk rfl).elim
  | ranked i | detached | held b | carved | loose => simp [hk, Kind.settled] at hs

theorem visit (hw : Upkeep strict w G) (hi : w.arenas[i]? = some h) {s e : Nat} (hh : (s, e) ∈ h.ar.allocedHeaps)
    (hs : s ≤ scan) (he : scan < e) (hp : Passed (G i) w.mem scan)
    (htop : ∀ z, (G i).cell scan = some (.chunk z) → h.ar.topChunk = scan + 16 + z → (G i).kind (scan + 16 + z) = .top)
    (hsm : strict = true → hasFlag (w.mem scan) GC_MARK = false → isCurrInuse w.mem scan = true →
      Smooth w h ⟨scan + 16, false⟩) :
    ∃ w' g', sweepChunk w i scan = some w' ∧ Visit strict w G i h scan w' g' ∧ Upkeep strict w' (update G i g') ∧
      Passed g' w'.mem (scan + 16 + getSize w.mem scan) ∧ scan + 16 + getSize w.mem scan ≤ e := by
  have hk := hw.kempt i h hi
  rcases passed_cases hk.inv hh hs he hp with ⟨z, hc, hle⟩ | ⟨d, x, y, hd, hb, hle, hn, hxe, hz, hcur⟩
  · have hsize : getSize w.mem scan = z := hk.settled.getSize hk.inv hc
    rw [hsize]
    cases hm : hasFlag (w.mem scan) GC_MARK with
    | true =>
      refine ⟨_, _, sweepChunk_clear hi hm, .clear hm, ?_, next_passed hk.inv hc, hle⟩
      rw [update_eq_self]
      refine hw.rewrite hi (owned_chunk hc (by omega)) ?_
      exact set_mark_inv hk.inv hc (sizeBits_withoutFlag_mark _) rfl
    | false =>
      cases hcurr : isCurrInuse w.mem scan with
      | false =>
        refine ⟨w, G i, sweepChunk_pass hi hm hcurr, .pass hm hcurr, ?_, next_passed hk.inv hc, hle⟩
        rw [update_eq_self]
        exact hw
      | true =>
        obtain ⟨t, g', hD⟩ := hw.drop hi true hc (curr_kind hk.inv hk.settled hc hcurr) hcurr (htop z hc)
          fun hst => hk.not_sticks hc (sized_of_settled (hk.settled scan z hc)) (hsm hst hm hcurr)
        obtain ⟨gone, hsweep⟩ := sweepChunk_drop hi hm hcurr hD.run
        exact ⟨_, g', hsweep, .drop gone hm hcurr hc hD, hD.upkeep gone, hD.passed, hle⟩
  · -- the remains of a chunk that has been merged: nothing but a mark to clear
    have hsize : getSize w.mem scan = y := hz
    rw [hsize, hn]
    cases hm : hasFlag (w.mem scan) GC_MARK with
    | true =>
      refine ⟨_, _, sweepChunk_clear hi hm, .clear hm, ?_, next_passed hk.inv hd, hxe⟩
      rw [update_eq_self]
      refine hw.rewrite hi (owned_chunk hd (by omega)) ?_
      have hdeep := hk.inv.setDeep hd (o := scan - d) (by omega) (withoutFlag (w.mem scan) GC_MARK) hb
      rwa [show d + (scan - d) = scan by omega] at hdeep
    | false =>
      have hcurr : isCurrInuse w.mem scan = false := hcur
      refine ⟨w, G i, sweepChunk_pass hi hm hcurr, .pass hm hcurr, ?_, next_passed hk.inv hd, hxe⟩
      rw [update_eq_self]
      exact hw

def At (w : World) (G : Nat → Ghost) (c : Cursor) : Prop :=
  ∃ (h : Holding) (s : Nat), w.arenas[c.arena]? = some h ∧ (s, c.stop) ∈ h.ar.allocedHeaps ∧ s ≤ c.scan ∧ c.scan ≤ c.stop ∧
    Passed (G c.arena) w.mem c.scan

def Begins (w : World) (c : Cursor) : Prop :=
  ∃ h : Holding, w.arenas[c.arena]? = some h ∧ (c.scan, c.stop) ∈ h.ar.allocedHeaps

theorem Begins.at (hw : Upkeep strict w G) (hb : Begins w c) : At w G c := by
  obtain ⟨h, hi, hh⟩ := hb
  obtain ⟨hlt, -, z, hz⟩ := (hw.kempt _ h hi).inv.tiled.heap c.scan c.stop hh
  exact ⟨h, c.scan, hi, hh, Nat.le_refl _, by omega, .inl ⟨_, hz, rfl⟩⟩

theorem begins_cursors (hc : c ∈ cursors w) : Begins w c := by
  obtain ⟨⟨h, i⟩, hi, hc⟩ := List.mem_flatMap.mp hc
  obtain ⟨heap, hh, rfl⟩ := List.mem_map.mp hc
  have := List.mem_zipIdx_iff_getElem?.mp hi
  exact ⟨h, this, hh⟩

def SameHeaps (w w' : World) : Prop :=
  ∀ (j : Nat) (h : Holding), w.arenas[j]? = some h → ∃ h', w'.arenas[j]? = some h' ∧ h'.ar.allocedHeaps = h.ar.allocedHeaps

theorem Begins.congr (hs : SameHeaps w w') (hb : Begins w c) : Begins w' c := by
  obtain ⟨h, hi, hh⟩ := hb
  obtain ⟨h', hi', heq⟩ := hs _ h hi
  exact ⟨h', hi', by rwa [heq]⟩

theorem Visit.sameHeaps (hi : w.arenas[i]? = some h) (hv : Visit strict w G i h scan w' g') : SameHeaps w w' := by
  intro j h' hj
  cases hv with
  | clear => exact ⟨h', hj, rfl⟩
  | pass => exact ⟨h', hj, rfl⟩
  | drop gone unmarked curr cell dropped =>
    by_cases hji : j = i
    · subst hji
      cases hi.symm.trans hj
      exact ⟨_, List.getElem?_set_self (lt_of_arena hi), dropped.heaps⟩
    · exact ⟨h', by simpa only [World.put, List.getElem?_set_ne (Ne.symm hji)] using hj, rfl⟩

end Picasso.Gc.Sweep
