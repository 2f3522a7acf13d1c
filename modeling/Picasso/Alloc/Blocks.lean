import Picasso.Alloc.Release

namespace Picasso.Alloc.Invariant

open Chunk Allocator Layout Lib.Ring Option

variable {E : Env} {g : Ghost} {s s' : State} {page z c : Nat}

def Ghost.map (g : Ghost) (page z : Nat) : Ghost := { g with cell := Function.update g.cell page (some (.block z)) }

def Ghost.unmap (g : Ghost) (c : Nat) : Ghost := { g with cell := Function.update g.cell c none }

structure Mapped (s s' : State) (page z : Nat) : Prop where
  fresh : Fresh s.mapped page (16 + z)
  mapped : s'.mapped = (page, 16 + z) :: s.mapped
  unmapped : s'.unmapped = s.unmapped
  ar : s'.ar = s.ar
  outside : ∀ a, ¬ (page ≤ a ∧ a < page + (16 + z)) → s'.mem a = s.mem a
  head : sizeBits (s'.mem (page + 8)) = z

theorem allocChunk_mapped (hz : z % 16 = 0 ∧ 32 ≤ z ∧ z < 2 ^ 64) (h : allocChunk s page z = some s') :
    Mapped s s' page z := by
  simp only [allocChunk, bind_eq_bind, bind_eq_some_iff] at h
  obtain ⟨s0, hs0, hs1⟩ := h
  obtain ⟨hfresh, rfl⟩ := allocMemory_eq.mp hs0
  cases hs1
  have hsize : align16 ((z + HEADER_SIZE) % 2 ^ 64) = 16 + z := by
    have hpos := hfresh.2.2.1
    unfold align16 HEADER_SIZE at *
    omega
  refine ⟨hsize ▸ hfresh, by rw [hsize], rfl, rfl, ?_, ?_⟩
  · intro a ha
    rw [← hsize] at ha
    have hpos := hfresh.2.2.1
    simp only [setFdbkTo, setSize, Mem.set]
    split_ifs <;> first | rfl | omega
  · simp only [setFdbkTo, setSize, Mem.set, MMAP_ALLOCATED]
    simp only [Nat.add_right_inj, Nat.reduceEqDiff, if_false, if_true, sizeBits]
    omega

theorem allocChunk_some (hz : z % 16 = 0 ∧ z + 16 < 2 ^ 64) (hf : Fresh s.mapped page (16 + z)) :
    ∃ s', allocChunk s page z = some s' := by
  have hsize : align16 ((z + HEADER_SIZE) % 2 ^ 64) = 16 + z := by
    unfold align16 HEADER_SIZE
    omega
  obtain ⟨s', hs', -⟩ := allocChunk_fresh hsize hf
  exact ⟨s', hs'⟩

theorem Mapped.inv (hM : Mapped s s' page z) (h : Inv E g s.ar s.mem) (hb : Backed E g s) (hz : z % 16 = 0 ∧ 32 ≤ z) :
    Inv E (g.map page z) s'.ar s'.mem := by
  have hpage : page % 16 = 0 ∧ 0 < page := by
    have h₁ := hM.fresh.1
    have h2 := hM.fresh.2.1
    unfold PAGE_SIZE at h₁
    omega
  have hcell : ∀ d y, g.cell d = some y → d + y.extent ≤ page ∨ page + (16 + z) ≤ d :=
    fun d y hd => cell_apart hb h.tiled hM.fresh hd
  obtain ⟨hnone, hkind⟩ := none_of_fresh h hb hM.fresh (d := page) (by omega) (by omega)
  have h1 : Inv E g s.ar s'.mem := by
    refine h.congr (fun c x o hc ho _ => hM.outside _ ?_) (fun a ha => hM.outside _ ?_)
    · have := hcell c x hc
      omega
    · intro hin
      exact not_within_of_fresh hM.fresh hin.1 hin.2 (hb.keep a ha)
  rw [hM.ar]
  have hc : (g.map page z).cell page = some (.block z) := by simp [Ghost.map]
  have hk : (g.map page z).kind page = .loose := hkind
  refine h1.reshape (S := (· = page)) ⟨h.tiled.map hpage hz hcell, ⟨rfl, rfl, rfl⟩, ⟨fun _ => rfl, rfl⟩, h1.words.start,
    ?_, ?_, fun _ _ _ => rfl, ?_⟩
  · intro d hd
    exact ⟨by simp [Ghost.map, hd], rfl⟩
  · rintro d rfl
    simp [hkind, hnone, Kind.plain]
  · rintro d rfl
    constructor
    · simp [hk, Kind.plain]
    · simp [hk]
    · simp [hc]
    · simp [hc]
    · simp [hk, Kind.flat]
    · simp [hc]
    · intro w hw
      cases hc.symm.trans hw
      exact hM.head
    · simp [hk]
    · intro x o hx ho _
      cases hc.symm.trans hx
      intro hkeep
      exact not_within_of_fresh hM.fresh (a := d + o) (by omega) (by simp only [Cell.extent_block] at ho; omega)
        (hb.keep _ hkeep)
    · simp [hc]
    · simp [hk]

theorem Inv.unmap {ar : Arena} {m : Mem} (h : Inv E g ar m) (hc : g.cell c = some (.block z)) :
    Inv E (g.unmap c) ar m := by
  have hk : g.kind c = .loose := by
    by_contra hk
    obtain ⟨w, hw⟩ := h.bins.home c hk
    simp [hc] at hw
  refine h.reshape (S := (· = c)) ⟨h.tiled.unmap hc, ⟨rfl, rfl, rfl⟩, ⟨fun _ => rfl, rfl⟩, h.words.start, ?_, ?_,
    fun _ _ _ => rfl, ?_⟩
  · intro d hd
    exact ⟨by simp [Ghost.unmap, hd], rfl⟩
  · rintro d rfl
    simp [hk, hc, Kind.plain]
  · rintro d rfl
    exact Placed.of_none (by simp [Ghost.unmap]) hk

theorem Inv.abandon {ar : Arena} {m : Mem} (h : Inv E g ar m) (hs : E.strict = false)
    (hc : g.cell c = some (.chunk z)) (hk : g.kind c = .live) : Inv E (g.retag c .unmapped) ar m := by
  have hown := h.words.own c z hc
  have hfoot := h.words.foot c z hc
  rw [hk] at hown hfoot
  exact h.retag hc (by simp [hk, Kind.plain]) rfl ⟨hown.size, hown.curr⟩ ⟨hfoot.used, hfoot.prev⟩
    (by simp [Kind.flat]) (by simp) (fun _ => .inl rfl) (fun _ => hs)

theorem release_munmap (hs : getSize s.mem c = z) (hz : MMAP_THRESHOLD ≤ z) :
    release s (c + 16) = some (munmap s c (z + 16)) := by
  have hfc : c + 16 - HEADER_SIZE = c := by simp [HEADER_SIZE]
  unfold MMAP_THRESHOLD at hz
  simp only [release, hfc, hs, bind_eq_bind, pure_def]
  rw [if_neg (by omega), if_neg (by omega), if_pos (by unfold MMAP_THRESHOLD; omega)]
  rfl

end Picasso.Alloc.Invariant
