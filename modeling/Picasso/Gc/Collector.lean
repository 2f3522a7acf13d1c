import Picasso.Alloc.Arenas

namespace Picasso.Gc.Collector

open Alloc.Chunk Alloc.Arenas

def GC_PTR_ALIGNMENT : Nat := 8

/-- A registered task: the words of its stack from the lowest address on, the
saved registers, and the saved stack pointer and program counter. -/
structure Task where
  finished : Bool
  stackBase : Nat
  stack : List Nat
  regs : List Nat
  sp : Nat
  pc : Nat

def findChunkInHeap (m : Mem) (stop ptr : Nat) : Nat → Nat → Option (Option Nat)
  | 0, _ => none
  | n + 1, scan =>
    if scan < stop then
      if isCurrInuse m scan = true ∧ scan + HEADER_SIZE ≤ ptr ∧ ptr < scan + HEADER_SIZE + getSize m scan then
        some (some scan)
      else findChunkInHeap m stop ptr n (scan + HEADER_SIZE + getSize m scan)
    else some none

/-- The words are read one by one, but marking writes to no payload and to no stack. -/
def gcMarkMemRegion (tryMark : Mem → Nat → Option Mem) : List Nat → Mem → Option Mem
  | [], m => some m
  | val :: vals, m => do
      let m ← if val = 0 then some m else tryMark m val
      gcMarkMemRegion tryMark vals m

def markChunkRecursive (tryMark : Mem → Nat → Option Mem) (m : Mem) (ch : Nat) : Option Mem :=
  if hasFlag (prevSize m ch) GC_MARK then some m
  else gcMarkMemRegion tryMark ((List.range (getSize m ch / 8)).map fun k => m (ch + HEADER_SIZE + 8 * k)) m

/-- The first argument bounds the depth of the recursion through `mark_chunk_recursive`. -/
def tryMarkPointer (heaps : List (Nat × Nat)) : Nat → Mem → Nat → Option Mem
  | 0, _, _ => none
  | n + 1, m, val =>
    if val % GC_PTR_ALIGNMENT ≠ 0 then some m
    else
      match heaps.find? fun heap => heap.1 ≤ val ∧ val < heap.2 with
      | none => some m
      | some heap => do
          match ← findChunkInHeap m heap.2 val (heap.2 - heap.1 + 1) heap.1 with
          | none => return m
          | some ch =>
            markChunkRecursive (tryMarkPointer heaps n) (m.set ch (withFlag (prevSize m ch) GC_MARK)) ch

def gcMarkRegisters (tryMark : Mem → Nat → Option Mem) (t : Task) (m : Mem) : Option Mem := do
  let m ← gcMarkMemRegion tryMark t.regs m
  let m ← tryMark m t.sp
  tryMark m t.pc

def gcMarkTask (tryMark : Mem → Nat → Option Mem) (t : Task) (m : Mem) : Option Mem :=
  if t.sp < t.stackBase ∨ t.stackBase + 8 * t.stack.length < t.sp then some m
  else do gcMarkRegisters tryMark t (← gcMarkMemRegion tryMark t.stack m)

def gcMarkTasks (tryMark : Mem → Nat → Option Mem) : List Task → Mem → Option Mem
  | [], m => some m
  | t :: ts, m => do
      let m ← if t.finished then some m else gcMarkTask tryMark t m
      gcMarkTasks tryMark ts m

def heapsOf (w : World) : List (Nat × Nat) := w.arenas.flatMap fun h => h.ar.allocedHeaps

def depth (w : World) : Nat := ((heapsOf w).map fun heap => heap.2 - heap.1).sum + 1

def gcMark (w : World) (tasks : List Task) : Option World := do
  return { w with mem := ← gcMarkTasks (tryMarkPointer (heapsOf w) (depth w)) tasks w.mem }

/-- A heap that `gc_sweep` has still to go through, from `scan` on. -/
structure Cursor where
  arena : Nat
  scan : Nat
  stop : Nat

def sweepChunk (w : World) (i scan : Nat) : Option World := do
  let h ← w.arenas[i]?
  if hasFlag (prevSize w.mem scan) GC_MARK then
    return { w with mem := w.mem.set scan (withoutFlag (prevSize w.mem scan) GC_MARK) }
  else if isCurrInuse w.mem scan then w.free i h ⟨scan + HEADER_SIZE, false⟩
  else return w

def sweepStep (w : World) : List Cursor → Option (World × List Cursor)
  | [] => some (w, [])
  | c :: cs =>
    if c.scan < c.stop then do
      let w' ← sweepChunk w c.arena c.scan
      return (w', { c with scan := c.scan + HEADER_SIZE + getSize w.mem c.scan } :: cs)
    else some (w, cs)

def sweepFrom : Nat → World → List Cursor → Option World
  | 0, _, _ => none
  | _ + 1, w, [] => some w
  | n + 1, w, c :: cs => do
      let (w, cs) ← sweepStep w (c :: cs)
      sweepFrom n w cs

def cursors (w : World) : List Cursor :=
  w.arenas.zipIdx.flatMap fun (h, i) => h.ar.allocedHeaps.map fun heap => ⟨i, heap.1, heap.2⟩

def sweepFuel (cs : List Cursor) : Nat := (cs.map fun c => c.stop - c.scan + 1).sum + 1

def gcSweep (w : World) : Option World := sweepFrom (sweepFuel (cursors w)) w (cursors w)

def gcCollect (w : World) (tasks : List Task) : Option World := do gcSweep (← gcMark w tasks)

end Picasso.Gc.Collector
