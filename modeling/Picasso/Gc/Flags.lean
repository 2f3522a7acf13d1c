import Picasso.Gc.Marks

namespace Picasso.Gc.Flags

open Alloc.Chunk Alloc.Arenas Alloc.Custody Alloc.Tiling Collector Sweep Marks Lib.Transition Function Option
open Alloc.Invariant hiding Inv

variable {w w' : World} {G : Nat → Ghost} {g' : Ghost} {h : Holding} {i scan : Nat} {strict : Bool}

/-- The program and the heaps that a collection has still to sweep. The world
is stopped while there are any. -/
structure Collecting where
  world : World
  todo : List Cursor

inductive GcAct
  | mutate (a : Act)
  | mark (tasks : List Task)
  | sweep

def gcStep (s : Collecting) : GcAct → Option Collecting
  | .mutate a => if s.todo.isEmpty then (step s.world a).map fun w => ⟨w, []⟩ else none
  | .mark tasks => if s.todo.isEmpty then (gcMark s.world tasks).map fun w => ⟨w, cursors w⟩ else none
  | .sweep => if s.todo.isEmpty then none else (sweepStep s.world s.todo).map fun r => ⟨r.1, r.2⟩

def gcMachine : Machine Collecting GcAct := ⟨(· = ⟨start, []⟩), gcStep⟩

def Doomed (w : World) (c : Cursor) : Prop :=
  c.scan < c.stop ∧ hasFlag (prevSize w.mem c.scan) GC_MARK = false ∧ isCurrInuse w.mem c.scan = true

instance (w : World) (c : Cursor) : Decidable (Doomed w c) := inferInstanceAs (Decidable (_ ∧ _))

def Calm (s : Collecting) : GcAct → Prop
  | .mutate (.release i b) => ∀ h ∈ s.world.arenas[i]?, Smooth s.world h b
  | .sweep => ∀ c ∈ s.todo.head?, Doomed s.world c →
      ∀ h ∈ s.world.arenas[c.arena]?, Smooth s.world h ⟨c.scan + HEADER_SIZE, false⟩
  | _ => True

instance (s : Collecting) : (a : GcAct) → Decidable (Calm s a)
  | .mutate (.release ..) => inferInstanceAs (Decidable (∀ _ ∈ _, _))
  | .sweep => inferInstanceAs (Decidable (∀ _ ∈ _, _))
  | .mark .. | .mutate (.create ..) | .mutate (.allocate ..) | .mutate (.store ..) => inferInstanceAs (Decidable True)

/-- The in-use bit of a chunk says that it is handed out, and the sweep
releases only what is. -/
structure Exact (s : Collecting) : Prop where
  flag : ∀ (i : Nat) (h : Holding), s.world.arenas[i]? = some h → ∀ heap ∈ h.ar.allocedHeaps,
    ∃ l, heapChunks s.world.mem h.ar heap = some l ∧
      ∀ c ∈ l, isCurrInuse s.world.mem c = true ↔ c + HEADER_SIZE ∈ h.live.map Block.ptr
  top : ∀ (i : Nat) (h : Holding), s.world.arenas[i]? = some h → h.ar.topChunk ≠ 0 →
    isCurrInuse s.world.mem h.ar.topChunk = false
  sweep : ∀ c ∈ s.todo.head?, Doomed s.world c →
    ∃ h, s.world.arenas[c.arena]? = some h ∧ (⟨c.scan + HEADER_SIZE, false⟩ : Block) ∈ h.live

theorem live_of_curr (hk : Kempt true w g' h) {c z : Nat} (hc : g'.cell c = some (.chunk z))
    (hcurr : isCurrInuse w.mem c = true) : g'.kind c = .live := by
  rcases curr_kind hk.inv hk.settled hc hcurr with hl | hu | ht
  · exact hl
  · exact absurd hu (hk.inv.guard.strict rfl c)
  · have := (hk.inv.words.own c z hc).curr false (by simp [ht, Kind.curr])
    rw [show hasFlag (w.mem (c + 8)) CURR_IN_USE = true from hcurr] at this
    cases this

structure Inv (s : Collecting) (G : Nat → Ghost) : Prop where
  sound : Sound true s.world G
  head : ∀ c ∈ s.todo.head?, At s.world G c
  tail : ∀ c ∈ s.todo.tail, Begins s.world c

variable {s : Collecting}

theorem doomed_live (hI : Inv s G) {c : Cursor} (hc : c ∈ s.todo.head?) (hd : Doomed s.world c) :
    ∃ h, s.world.arenas[c.arena]? = some h ∧ (G c.arena).kind c.scan = .live := by
  obtain ⟨h, e, hi, hh, hle, -, hp⟩ := hI.head c hc
  have hk := hI.sound.kempt _ h hi
  refine ⟨h, hi, ?_⟩
  rcases passed_cases hk.inv hh hle hd.1 hp with ⟨z, hz, -⟩ | ⟨-, -, -, -, -, -, -, -, -, hcur⟩
  · exact live_of_curr hk hz hd.2.2
  · have := hd.2.2
    rw [isCurrInuse, size, hcur] at this
    cases this

theorem Inv.exact (hI : Inv s G) : Exact s := by
  refine ⟨?_, ?_, ?_⟩
  · rintro i h hi ⟨a, e⟩ hh
    have hk := hI.sound.kempt i h hi
    obtain ⟨l, hl, hcells⟩ := heapChunks_spec hk.inv hk.settled hh
    refine ⟨l, hl, fun c hc => ?_⟩
    obtain ⟨-, -, z, hz⟩ := (hcells c).mp hc
    rw [HEADER_SIZE, mem_ptr hk hz]
    refine ⟨fun hcurr => live_of_curr hk hz hcurr, fun hl => ?_⟩
    exact (hk.inv.words.own c z hz).curr true (by simp [hl, Kind.curr])
  · intro i h hi h0
    have hk := hI.sound.kempt i h hi
    have ht : (G i).kind h.ar.topChunk = .top := (hI.sound.top i h hi).resolve_left h0
    obtain ⟨z, hz⟩ := hk.inv.bins.home h.ar.topChunk (by simp [ht])
    exact (hk.inv.words.own _ z hz).curr false (by simp [ht, Kind.curr])
  · intro c hc hd
    obtain ⟨h, hi, hl⟩ := doomed_live hI hc hd
    exact ⟨h, hi, ((hI.sound.kempt _ h hi).live _).mpr ⟨c.scan, rfl, hl⟩⟩

theorem Visit.top (hw : Sound true w G) (hi : w.arenas[i]? = some h) (hv : Visit true w G i h scan w' g')
    (hu : Upkeep true w' (update G i g')) : Sound true w' (update G i g') := by
  cases hv with
  | clear marked | pass unmarked curr =>
    refine ⟨hu, ?_⟩
    rw [update_eq_self]
    exact hw.top
  | drop gone unmarked curr cell dropped =>
    have hl := live_of_curr (hw.kempt i h hi) cell curr
    exact hw.of_put hi hu (dropped.top (by simp [hl]) (hw.top i h hi))

theorem inv_visit {c : Cursor} {cs : List Cursor} (hI : Inv s G) (htodo : s.todo = c :: cs) (hcalm : Calm s .sweep)
    (hlt : c.scan < c.stop) :
    ∃ h w' g' n, s.world.arenas[c.arena]? = some h ∧ Visit true s.world G c.arena h c.scan w' g' ∧ c.scan < n ∧
      gcStep s .sweep = some ⟨w', { c with scan := n } :: cs⟩ ∧
      Inv ⟨w', { c with scan := n } :: cs⟩ (update G c.arena g') := by
  obtain ⟨h, e, hi, hh, hle, -, hp⟩ := hI.head c (by simp [htodo])
  obtain ⟨w', g', hrun, hv, hu, hpass, hstop⟩ := visit hI.sound.toUpkeep hi hh hle hlt hp
    (fun z _ => hI.sound.top_next hi) fun _ hm hcur => hcalm c (by simp [htodo]) ⟨hlt, hm, hcur⟩ h hi
  have hsame := Visit.sameHeaps hi hv
  refine ⟨h, w', g', c.scan + HEADER_SIZE + getSize s.world.mem c.scan, hi, hv, by dsimp only [HEADER_SIZE]; omega, ?_,
    Visit.top hI.sound hi hv hu, ?_, ?_⟩
  · simp only [gcStep, htodo, List.isEmpty_cons, Bool.false_eq_true, if_false, sweepStep, if_pos hlt, hrun,
      bind_eq_bind, bind_some, pure_def, map_some]
  · intro c' hc'
    cases hc'
    obtain ⟨h', hi', heq⟩ := hsame _ h hi
    refine ⟨h', e, hi', by rwa [heq], ?_, hstop, ?_⟩
    · dsimp only [HEADER_SIZE]
      omega
    · rw [update_self]
      exact hpass
  · intro c' hc'
    exact (hI.tail c' (by rw [htodo]; exact hc')).congr hsame

theorem inv_sweep (hI : Inv s G) (hcalm : Calm s .sweep) (hne : s.todo ≠ []) :
    ∃ s' G', gcStep s .sweep = some s' ∧ Inv s' G' := by
  obtain ⟨c, cs, htodo⟩ := List.exists_cons_of_ne_nil hne
  by_cases hlt : c.scan < c.stop
  · obtain ⟨h, w', g', n, -, -, -, hrun, hI'⟩ := inv_visit hI htodo hcalm hlt
    exact ⟨_, _, hrun, hI'⟩
  · refine ⟨⟨s.world, cs⟩, G, ?_, hI.sound, ?_, ?_⟩
    · simp only [gcStep, htodo, List.isEmpty_cons, Bool.false_eq_true, if_false, sweepStep, if_neg hlt, map_some]
    · intro c' hc'
      exact (hI.tail c' (by rw [htodo]; exact List.mem_of_mem_head? hc')).at hI.sound.toUpkeep
    · intro c' hc'
      exact hI.tail c' (by rw [htodo]; exact List.mem_of_mem_tail hc')

theorem inv_mark (hI : Inv s G) (hnil : s.todo = []) (tasks : List Task) :
    ∃ s', gcStep s (.mark tasks) = some s' ∧ Inv s' G := by
  obtain ⟨m, hm, hby⟩ := gcMark_spec hI.sound.toUpkeep tasks
  refine ⟨⟨{ s.world with mem := m }, cursors { s.world with mem := m }⟩, ?_, ⟨hby.upkeep, hI.sound.top⟩, ?_, ?_⟩
  · simp only [gcStep, hnil, List.isEmpty_nil, if_true, hm, map_some]
  · intro c hc
    exact (begins_cursors (List.mem_of_mem_head? hc)).at hby.upkeep
  · intro c hc
    exact begins_cursors (List.mem_of_mem_tail hc)

theorem inv_step {s' : Collecting} {a : GcAct} (hI : Inv s G) (hcalm : Calm s a) (hs : gcStep s a = some s') :
    ∃ G', Inv s' G' := by
  cases a with
  | mutate a =>
    simp only [gcStep] at hs
    split_ifs at hs with hnil
    obtain ⟨w, hw, rfl⟩ := map_eq_some_iff.mp hs
    obtain ⟨G', -, hsound⟩ := hI.sound.turn (fun _ i h b hab hi => by subst hab; exact hcalm h hi) hw
    exact ⟨G', hsound, by simp, by simp⟩
  | mark tasks =>
    have hnil : s.todo = [] := by
      by_contra hne
      simp [gcStep, hne] at hs
    obtain ⟨s'', hr, hI'⟩ := inv_mark hI hnil tasks
    cases hr.symm.trans hs
    exact ⟨G, hI'⟩
  | sweep =>
    have hne : s.todo ≠ [] := by
      rintro hnil
      simp [gcStep, hnil] at hs
    obtain ⟨s'', G', hr, hI'⟩ := inv_sweep hI hcalm hne
    cases hr.symm.trans hs
    exact ⟨G', hI'⟩

/-- In every run whose releases are smooth the in-use bits are exact, and no
step of a collection fails. -/
theorem in_use_exact {s : Collecting} (hr : Run gcMachine Calm s) :
    Exact s ∧ (s.todo = [] → ∀ tasks, ∃ s', gcStep s (.mark tasks) = some s') ∧
      (s.todo ≠ [] → Calm s .sweep → ∃ s', gcStep s .sweep = some s') := by
  obtain ⟨G, hI⟩ : ∃ G, Inv s G := by
    refine Run.invariant (I := fun s => ∃ G, Inv s G) ?_ ?_ hr
    · rintro s rfl
      exact ⟨_, sound_start, by simp, by simp⟩
    · rintro s a s' ⟨G, hI⟩ hcalm hs
      exact inv_step hI hcalm hs
  refine ⟨hI.exact, fun hnil tasks => ?_, fun hne hcalm => ?_⟩
  · obtain ⟨s', hs', -⟩ := inv_mark hI hnil tasks
    exact ⟨s', hs'⟩
  · obtain ⟨s', -, hs', -⟩ := inv_sweep hI hcalm hne
    exact ⟨s', hs'⟩

def rootTask (word : Nat) : Task := ⟨false, 0, [word], [], 0, 0⟩

/-- A collection keeps the block on the stack and releases the other one. -/
theorem in_use_exact_collected : ∃ s h, Run gcMachine Calm s ∧ s.world.arenas[0]? = some h ∧
    h.live = [⟨1048592, false⟩] ∧ Exact s := by
  have hx : (exec gcMachine Calm ([.mutate (.create 4096 1048576), .mutate (.allocate 0 100 0),
      .mutate (.allocate 0 200 0), .mutate (.allocate 0 24 0), .mark [rootTask 1048600]] ++
      List.replicate 4 .sweep) ⟨start, []⟩).bind
      (fun s => s.world.arenas[0]?.map fun h => h.live) = some [⟨1048592, false⟩] := by decide +kernel
  obtain ⟨s, hr, he⟩ := exec_reads_bind hx (.init rfl)
  obtain ⟨h, hi, hl⟩ := map_eq_some_iff.mp he
  exact ⟨s, h, hr, hi, hl, (in_use_exact hr).1⟩

/-- The chunk in front of the top chunk is released and becomes the top chunk
with its in-use bit still set. -/
theorem top_in_use : ¬ ∀ s, Reachable gcMachine s → Exact s := by
  intro hall
  have hx : (walk gcMachine [.mutate (.create 4096 1048576), .mutate (.allocate 0 1000 0),
      .mutate (.release 0 ⟨1048592, false⟩)] ⟨start, []⟩).bind (fun s => s.world.arenas[0]?.map fun h =>
      (h.ar.topChunk, isCurrInuse s.world.mem h.ar.topChunk)) = some (1048576, true) := by decide +kernel
  obtain ⟨s, hr, he⟩ := exec_reads_bind hx (.init rfl)
  obtain ⟨h, hi, hl⟩ := map_eq_some_iff.mp he
  simp only [Prod.mk.injEq] at hl
  have hf := (hall s hr).top 0 h hi (by omega)
  rw [hl.2] at hf
  cases hf

end Picasso.Gc.Flags
