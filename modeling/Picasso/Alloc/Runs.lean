import Picasso.Alloc.Turns

namespace Picasso.Alloc.Custody

open Chunk Allocator Arenas Lib.Transition Option
open Invariant hiding Inv

variable {strict : Bool} {w w' : World} {g g' : Ghost} {G G' : Nat → Ghost} {h : Holding} {i : Nat}

/-- The chunk behind `b` is released without a trace: it is small enough for
its heap to take it back, and it does not become the top chunk as it is. -/
def Smooth (w : World) (h : Holding) (b : Block) : Prop :=
  b.direct = false → b.size w.mem < MMAP_THRESHOLD ∧
    ¬ (16 * FASTBINS_COUNT < b.size w.mem ∧ isPrevInuse w.mem b.chunk = true ∧
      nextChunk w.mem b.chunk = h.ar.topChunk ∧ 16 * FASTBINS_COUNT < getSize w.mem h.ar.topChunk)

instance (w : World) (h : Holding) (b : Block) : Decidable (Smooth w h b) :=
  inferInstanceAs (Decidable (_ → _))

theorem Kempt.not_sticks (hk : Kempt strict w g h) {c z : Nat} (hc : g.cell c = some (.chunk z))
    (hs : (g.kind c).sized = true) (hsm : Smooth w h ⟨c + 16, false⟩) : z < MMAP_THRESHOLD ∧ ¬ Sticks g w.mem c z := by
  have hsize : getSize w.mem c = z := (hk.inv.words.own c z hc).size hs
  have hsz : (⟨c + 16, false⟩ : Block).size w.mem = z := hsize
  obtain ⟨hlt, hno⟩ := hsm rfl
  rw [hsz] at hlt hno
  refine ⟨hlt, ?_⟩
  rintro ⟨hbig, hprev, htop, y, hy, hybig⟩
  have hnext : nextChunk w.mem c = c + 16 + z := by
    unfold nextChunk HEADER_SIZE
    rw [hsize]
  have hty : getSize w.mem (c + 16 + z) = y := (hk.inv.words.own _ y hy).size (by simp [htop, Kind.sized])
  have htc := top_unique hk.inv htop
  refine hno ⟨hbig, hprev, hnext.trans htc, ?_⟩
  rw [← htc, hty]
  exact hybig

/-- All that a step does to what the memory stands for. -/
inductive Turn (w : World) (G : Nat → Ghost) : Act → World → (Nat → Ghost) → Prop
  | create {block page : Nat} {s : State} {g : Ghost} (idle : ∀ c, (g.kind c).busy = false)
      (none : ∀ c z, g.cell c ≠ some (.block z))
      (mem : ∀ j, j < w.arenas.length → ∀ a, (G j).Owned a → s.mem a = w.mem a) :
      Turn w G (.create block page) ⟨s.mem, s.mapped, s.unmapped, w.arenas ++ [⟨s.ar, [], []⟩]⟩
        (Function.update G w.arenas.length g)
  | refuse {i page : Nat} : Turn w G (.allocate i 0 page) w G
  | gain {i n page c : Nat} {h : Holding} {s : State} {g' : Ghost} (arena : w.arenas[i]? = some h)
      (gained : Gained (Newly w.mapped s.mapped) (G i) g' c (direct n))
      (size : direct n = false → ∃ z, g'.cell c = some (.chunk z) ∧ (z = payloadSize n ∨
        (G i).cell c = some (.chunk z) ∧ payloadSize n ≤ z ∧ z < payloadSize n + 48))
      (mem : ∀ a, Others w G i 0 a → s.mem a = w.mem a)
      (block : direct n = true → g'.cell c = some (.block (payloadSize n))) :
      Turn w G (.allocate i n page) (w.put i s (⟨c + 16, direct n⟩ :: h.live) h.gone) (Function.update G i g')
  | lose {i c : Nat} {d : Bool} {h : Holding} {s : State} {g' : Ghost} (arena : w.arenas[i]? = some h)
      (handed : Handed (G i) c d) (lost : Lost (G i) g' c) (mem : ∀ a, Others w G i c a → s.mem a = w.mem a) :
      Turn w G (.release i ⟨c + 16, d⟩)
        (w.put i s (h.live.erase ⟨c + 16, d⟩) (if g'.kind c = .unmapped then (c + 16) :: h.gone else h.gone))
        (Function.update G i g')
  | store {i c a v : Nat} {d : Bool} {h : Holding} (arena : w.arenas[i]? = some h) (handed : Handed (G i) c d)
      (payload : Payload (G i) c a) : Turn w G (.store i ⟨c + 16, d⟩ a v) { w with mem := w.mem.set a v } G

theorem put_self (hi : w.arenas[i]? = some h) : w.put i (w.state h) h.live h.gone = w := by
  obtain ⟨hlt, hh⟩ := List.getElem?_eq_some_iff.mp hi
  have hset : w.arenas.set i h = w.arenas := by rw [← hh, List.set_getElem_self]
  cases w
  cases h
  simp only [World.put, World.state] at hset ⊢
  rw [hset]

theorem Kempt.block_of_mem (hk : Kempt strict w g h) {b : Block} (hb : b ∈ h.live) :
    ∃ c d, b = ⟨c + 16, d⟩ ∧ Handed g c d := by
  obtain ⟨c, hp, hd⟩ := (hk.live b).mp hb
  exact ⟨c, b.direct, block_eq hk.inv hp hd hd, hd⟩

theorem Sound.turn_allocate (hw : Sound strict w G) {n page : Nat} (hs : step w (.allocate i n page) = some w') :
    ∃ G', Turn w G (.allocate i n page) w' G' ∧ Sound strict w' G' := by
  simp only [step, bind_eq_bind, bind_eq_some_iff] at hs
  obtain ⟨h, hi, ⟨p, s⟩, hr, hs⟩ := hs
  simp only [pure_def, Option.some.injEq] at hs
  by_cases hn : n = 0
  · subst hn
    simp only [allocate, if_true, Option.some.injEq, Prod.mk.injEq] at hr
    obtain ⟨rfl, rfl⟩ := hr
    rw [if_pos rfl, put_self hi] at hs
    subst hs
    exact ⟨G, .refuse, hw⟩
  · rw [allocate, if_neg hn] at hr
    by_cases hbig : MMAP_THRESHOLD ≤ payloadSize n
    · rw [if_pos hbig] at hr
      simp only [bind_eq_bind, bind_eq_some_iff, pure_def, Option.some.injEq, Prod.mk.injEq] at hr
      obtain ⟨s', hr, rfl, rfl⟩ := hr
      have hb := payloadSize_bounds n
      obtain ⟨hg, hsound, hI, -⟩ := hw.mapped hi ⟨hb.1, hbig, hb.2.2⟩ hr
      have hd : direct n = true := by simp [direct, hbig]
      rw [if_neg (by simp [HEADER_SIZE])] at hs
      subst hs
      rw [← hd] at hg hsound
      exact ⟨_, .gain hi hg (by simp [hd]) (fun a ha => hI.guard.frame a ha) (by simp [Ghost.map]), hsound⟩
    · rw [if_neg hbig] at hr
      simp only [bind_eq_bind, bind_eq_some_iff, pure_def, Option.some.injEq, Prod.mk.injEq] at hr
      obtain ⟨⟨v, s'⟩, hr, rfl, rfl⟩ := hr
      obtain ⟨g', hg, hsound, hI, -, hsize⟩ := hw.served hi (by omega) hr
      have hd : direct n = false := by simp [direct, hbig]
      rw [if_neg (by simp [HEADER_SIZE])] at hs
      subst hs
      rw [← hd] at hg hsound
      exact ⟨_, .gain hi hg (fun _ => hsize) (fun a ha => hI.guard.frame a ha) (by simp [hd]), hsound⟩

theorem Sound.top_next (hw : Sound strict w G) (hi : w.arenas[i]? = some h) {c z : Nat}
    (he : h.ar.topChunk = c + 16 + z) : (G i).kind (c + 16 + z) = .top := by
  rcases hw.top i h hi with ht | ht
  · omega
  · rw [← he]
    exact ht

theorem Sound.turn_free (hw : Sound strict w G) (hi : w.arenas[i]? = some h) {b : Block} (hb : b ∈ h.live)
    (hsm : strict = true → Smooth w h b) :
    ∃ w' G', w.free i h b = some w' ∧ Turn w G (.release i b) w' G' ∧ Sound strict w' G' := by
  have hK := hw.kempt i h hi
  obtain ⟨c, d, rfl, hd⟩ := hK.block_of_mem hb
  cases d with
  | false =>
    have hl : (G i).kind c = .live := hd
    obtain ⟨z, hc⟩ := hK.inv.bins.home c (by simp [hl])
    obtain ⟨s, g', hD⟩ := hw.toUpkeep.drop hi false hc (.inl hl)
      ((hK.inv.words.own c z hc).curr true (by simp [hl, Kind.curr])) (hw.top_next hi)
      fun hs => hK.not_sticks hc (by simp [hl, Kind.sized]) (hsm hs)
    have hgone : (if s.unmapped ≠ w.unmapped ∧ (⟨c + 16, false⟩ : Block).direct = false then (c + 16) :: h.gone
        else h.gone) = if g'.kind c = .unmapped then (c + 16) :: h.gone else h.gone := by
      simp only [hD.gone hl, hD.unmapped]
      by_cases hz : MMAP_THRESHOLD ≤ z <;> simp [hz]
    refine ⟨_, _, ?_, .lose hi hd hD.lost (fun a ha => hD.inv.guard.frame a ha),
      hw.of_put hi (hD.upkeep _) (hD.top (by simp [hl]) (hw.top i h hi))⟩
    rw [← hgone]
    simp only [World.free, hD.run, bind_eq_bind, bind_some, pure_def]
  | true =>
    obtain ⟨z, hc⟩ := hd
    obtain ⟨hrun, hlost, hsound⟩ := hw.unmap_block hi hc h.gone
    have hkind : ((G i).unmap c).kind c ≠ .unmapped := by
      intro hu
      obtain ⟨y, hy⟩ := hK.inv.bins.home c (by rw [show (G i).kind c = .unmapped from hu]; simp)
      cases hy.symm.trans hc
    refine ⟨_, _, ?_, ?_, hsound⟩
    · simp only [World.free, hrun, bind_eq_bind, bind_some, pure_def]
      simp
    · have ht := Turn.lose (s := munmap (w.state h) c (z + 16)) hi (d := true) ⟨z, hc⟩ hlost fun _ _ => rfl
      rwa [if_neg hkind] at ht

theorem Sound.turn (hw : Sound strict w G) {a : Act}
    (hsm : strict = true → ∀ i h b, a = .release i b → w.arenas[i]? = some h → Smooth w h b)
    (hs : step w a = some w') : ∃ G', Turn w G a w' G' ∧ Sound strict w' G' := by
  cases a with
  | create block page =>
    simp only [step] at hs
    split_ifs at hs
    simp only [bind_eq_bind, bind_eq_some_iff, pure_def, Option.some.injEq] at hs
    obtain ⟨s, hr, rfl⟩ := hs
    obtain ⟨g, hidle, hblock, hmem, hsound⟩ := hw.create hr
    exact ⟨_, .create hidle hblock hmem, hsound⟩
  | allocate i n page => exact hw.turn_allocate hs
  | release i b =>
    simp only [step, bind_eq_bind, bind_eq_some_iff] at hs
    obtain ⟨h, hi, hs⟩ := hs
    split_ifs at hs with hb
    obtain ⟨w'', G', hr, hturn, hsound⟩ := hw.turn_free hi hb fun hst => hsm hst i h b rfl hi
    cases hr.symm.trans hs
    exact ⟨G', hturn, hsound⟩
  | store i b a v =>
    simp only [step, bind_eq_bind, bind_eq_some_iff] at hs
    obtain ⟨h, hi, hs⟩ := hs
    split_ifs at hs with hb
    simp only [pure_def, Option.some.injEq] at hs
    subst hs
    have hK := hw.kempt i h hi
    obtain ⟨c, d, rfl, hd⟩ := hK.block_of_mem hb.1
    have hp : Payload (G i) c a := hK.payload hd hb.2.1 hb.2.2.1
    exact ⟨G, .store hi hd hp, hw.store hi hp v⟩

theorem sound_start : Sound strict start fun _ =>
    ⟨fun _ => none, fun _ => .loose, fun _ => [], fun _ => [], fun _ => []⟩ := by
  refine ⟨⟨?_, ?_, List.Pairwise.nil⟩, ?_⟩ <;> simp [start]

theorem reachable_sound (hr : Reachable machine w) : ∃ G, Sound false w G := by
  refine Run.invariant (I := fun w => ∃ G, Sound false w G) ?_ ?_ hr
  · rintro w rfl
    exact ⟨_, sound_start⟩
  · rintro w a w' ⟨G, hw⟩ - hs
    obtain ⟨G', -, hw'⟩ := hw.turn (by simp) hs
    exact ⟨G', hw'⟩

end Picasso.Alloc.Custody
