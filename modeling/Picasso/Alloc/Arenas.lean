import Picasso.Alloc.Allocator
import Picasso.Lib.Transition

namespace Picasso.Alloc.Arenas

open Chunk Allocator Lib.Transition

def MAX_ARENAS : Nat := 12

/-- A pointer in the hands of the program, and whether the `mmap` branch of
`_allocate` has served it. -/
structure Block where
  ptr : Nat
  direct : Bool
  deriving DecidableEq

/-- An arena, the blocks of it that are handed out, and the heap blocks of it
that `_release` has passed to `munmap`. -/
structure Holding where
  ar : Arena
  live : List Block
  gone : List Nat

structure World where
  mem : Mem
  mapped : List (Nat × Nat)
  unmapped : List (Nat × Nat)
  arenas : List Holding

def World.state (w : World) (h : Holding) : State := ⟨w.mem, h.ar, w.mapped, w.unmapped⟩

def World.put (w : World) (i : Nat) (s : State) (live : List Block) (gone : List Nat) : World :=
  ⟨s.mem, s.mapped, s.unmapped, w.arenas.set i ⟨s.ar, live, gone⟩⟩

def Block.chunk (b : Block) : Nat := b.ptr - HEADER_SIZE

def Block.size (b : Block) (m : Mem) : Nat := getSize m b.chunk

def direct (requested : Nat) : Bool := MMAP_THRESHOLD ≤ payloadSize requested

inductive Act
  | create (block page : Nat)
  | allocate (i requested page : Nat)
  | release (i : Nat) (b : Block)
  | store (i : Nat) (b : Block) (a v : Nat)

def World.free (w : World) (i : Nat) (h : Holding) (b : Block) : Option World := do
  let s ← Allocator.release (w.state h) b.ptr
  let gone := if s.unmapped ≠ w.unmapped ∧ b.direct = false then b.ptr :: h.gone else h.gone
  return w.put i s (h.live.erase b) gone

/-- `gc_create_arena`, `_allocate` and `_release` of a live block on any of
the arenas, and the program's own writes to its blocks. -/
def step (w : World) : Act → Option World
  | .create block page =>
    if w.arenas.length < MAX_ARENAS then do
      let s ← arenaCreate w.mem w.mapped w.unmapped block page
      return ⟨s.mem, s.mapped, s.unmapped, w.arenas ++ [⟨s.ar, [], []⟩]⟩
    else none
  | .allocate i requested page => do
      let h ← w.arenas[i]?
      let (p, s) ← Allocator.allocate (w.state h) page requested
      return w.put i s (if p = 0 then h.live else ⟨p, direct requested⟩ :: h.live) h.gone
  | .release i b => do
      let h ← w.arenas[i]?
      if b ∈ h.live then w.free i h b else none
  | .store i b a v => do
      let h ← w.arenas[i]?
      if b ∈ h.live ∧ b.ptr ≤ a ∧ a < b.ptr + b.size w.mem ∧ a % 8 = 0 ∧ v < 2 ^ 64 then
        return { w with mem := w.mem.set a v }
      else none

def start : World := ⟨fun _ => 0, [], [], []⟩

def machine : Machine World Act := ⟨(· = start), step⟩

end Picasso.Alloc.Arenas
