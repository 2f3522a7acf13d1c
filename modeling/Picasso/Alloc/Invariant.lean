import Picasso.Alloc.Allocator
import Picasso.Alloc.Layout
import Picasso.Lib.Ring

namespace Picasso.Alloc.Invariant

open Chunk Allocator Layout Lib.Ring

inductive Bin
  | unsorted
  | small (i : Nat)
  | large (i : Nat)
  deriving DecidableEq

namespace Bin

def Valid : Bin → Prop
  | .unsorted => True
  | .small i => i < SMALLBINS_COUNT
  | .large i => i < LARGEBINS_COUNT

def head (ar : Arena) : Bin → Nat
  | .unsorted => ar.unsortedbin
  | .small i => ar.smallbins i
  | .large i => ar.largebins i

end Bin

/-- What a chunk is used for. The kinds after `top` occur only inside a call:
out of the fd list but still in the sorted one, out of both lists, in the
hands of the caller with or without its in-use bit, in front of a chunk that
counts it as used, and memory whose header means nothing yet. -/
inductive Kind
  | live
  | unmapped
  | fast (i : Nat)
  | binned (b : Bin)
  | top
  | ranked (i : Nat)
  | detached
  | held (inuse : Bool)
  | carved
  | loose
  deriving DecidableEq

namespace Kind

def settled : Kind → Bool
  | .live | .unmapped | .fast _ | .binned _ | .top => true
  | _ => false

def busy : Kind → Bool
  | .live | .unmapped => true
  | _ => false

def plain : Kind → Bool
  | .fast _ | .binned _ | .ranked _ => false
  | _ => true

def sized : Kind → Bool
  | .carved | .loose => false
  | _ => true

def curr (strict : Bool) : Kind → Option Bool
  | .live | .unmapped => some true
  | .fast _ | .binned _ | .ranked _ | .detached => some false
  | .top => if strict then some false else none
  | .held inuse => some inuse
  | .carved | .loose => none

def used : Kind → Option Bool
  | .live | .unmapped | .fast _ | .top | .carved => some true
  | .binned _ | .ranked _ | .detached => some false
  | .held _ | .loose => none

def flat : Kind → Bool
  | .binned .unsorted | .binned (.small _) | .detached => true
  | _ => false

def Fits (z : Nat) : Kind → Prop
  | .fast i => i < FASTBINS_COUNT ∧ z = 16 * (i + 1)
  | .binned (.small i) => i < SMALLBINS_COUNT ∧ z = 16 * (i + 1)
  | .binned (.large i) | .ranked i => getLargebinIndex z = some i
  | _ => True

theorem fits_of_plain {k : Kind} (h : k.plain = true) (z : Nat) : k.Fits z := by
  cases k <;> simp_all [plain, Fits]

end Kind

theorem sized_of_settled {k : Kind} (h : k.settled = true) : k.sized = true := by
  cases k <;> simp_all [Kind.settled, Kind.sized]

/-- What the memory of an arena stands for: its cells, what the chunks among
them are used for, and the order of every list. -/
structure Ghost where
  cell : Nat → Option Cell
  kind : Nat → Kind
  ring : Bin → List Nat
  order : Nat → List Nat
  fast : Nat → List Nat

def Ghost.NotLarger (g : Ghost) (a b : Nat) : Prop :=
  ∀ x y, g.cell a = some (.chunk x) → g.cell b = some (.chunk y) → x ≤ y

structure Own (strict : Bool) (k : Kind) (z w : Nat) : Prop where
  size : k.sized = true → sizeBits w = z
  curr : ∀ b, k.curr strict = some b → hasFlag w CURR_IN_USE = b

structure Foot (k : Kind) (z ps w : Nat) : Prop where
  used : ∀ b, k.used = some b → hasFlag w PREV_IN_USE = b
  prev : k.used = some false → sizeBits ps = z

structure Bins (g : Ghost) (ar : Arena) : Prop where
  ring : ∀ b c, c ∈ g.ring b ↔ g.kind c = .binned b
  order : ∀ i c, c ∈ g.order i ↔ g.kind c = .binned (.large i) ∨ g.kind c = .ranked i
  fast : ∀ i c, c ∈ g.fast i ↔ g.kind c = .fast i
  ringNodup : ∀ b, (g.ring b).Nodup
  orderNodup : ∀ i, (g.order i).Nodup
  fastNodup : ∀ i, (g.fast i).Nodup
  home : ∀ c, g.kind c ≠ .loose → ∃ z, g.cell c = some (.chunk z)
  fits : ∀ c z, g.cell c = some (.chunk z) → (g.kind c).Fits z
  top : ∀ c z, g.kind c = .top → g.cell c = some (.chunk z) →
    c = ar.topChunk ∧ g.cell (c + 16 + z) = some .bound
  sentinel : ∀ b : Bin, b.Valid → g.cell (b.head ar) = some .sentinel
  sentinelInj : ∀ b b' : Bin, b.Valid → b'.Valid → b.head ar = b'.head ar → b = b'
  sorted : ∀ i, (g.order i).Pairwise g.NotLarger

structure Words (strict : Bool) (g : Ghost) (heaps : List (Nat × Nat)) (m : Mem) : Prop where
  own : ∀ c z, g.cell c = some (.chunk z) → Own strict (g.kind c) z (m (c + 8))
  foot : ∀ c z, g.cell c = some (.chunk z) → Foot (g.kind c) z (m (c + 16 + z)) (m (c + 16 + z + 8))
  start : ∀ s e, (s, e) ∈ heaps → hasFlag (m (s + 8)) PREV_IN_USE = true
  bound : ∀ c, g.cell c = some .bound → sizeBits (m (c + 8)) = 0 ∧ hasFlag (m (c + 8)) CURR_IN_USE = true
  block : ∀ c z, g.cell c = some (.block z) → sizeBits (m (c + 8)) = z
  flat : ∀ c, (g.kind c).flat = true → m (c + 32) = 0

def Chain (m : Mem) : Nat → List Nat → Prop
  | p, [] => p = 0
  | p, c :: l => p = c ∧ Chain m (fd m c) l

structure Links (g : Ghost) (ar : Arena) (m : Mem) : Prop where
  ring : ∀ b : Bin, b.Valid → Path (fd m) (bk m) (b.head ar) (g.ring b) (b.head ar)
  order : ∀ i, i < LARGEBINS_COUNT →
    Path (nextSizeptr m) (prevSizeptr m) (ar.largebins i) (g.order i) (ar.largebins i)
  fast : ∀ i, i < FASTBINS_COUNT → Chain m (ar.fastbins i) (g.fast i)

/-- A call of the allocator: the addresses it has to leave alone, the memory
it started from, whether the top chunk is without its in-use bit, and whether
the collector's marks are to stay. -/
structure Env where
  keep : Nat → Prop
  before : Mem
  strict : Bool
  marked : Bool

def Ghost.opened (g : Ghost) (c : Nat) : Cell → Bool
  | .chunk _ => !(g.kind c).busy
  | .block _ => false
  | .bound | .sentinel => true

structure Guard (E : Env) (g : Ghost) (m : Mem) : Prop where
  frame : ∀ a, E.keep a → m a = E.before a
  spare : ∀ c x o, g.cell c = some x → o < x.extent → o < 16 ∨ g.opened c x = true → ¬ E.keep (c + o)
  marks : E.marked = true → ∀ c z, g.cell c = some (.chunk z) → hasFlag (m c) GC_MARK = hasFlag (E.before c) GC_MARK
  strict : E.strict = true → ∀ c, g.kind c ≠ .unmapped

structure Inv (E : Env) (g : Ghost) (ar : Arena) (m : Mem) : Prop where
  tiled : Tiled g.cell ar.allocedHeaps
  bins : Bins g ar
  words : Words E.strict g ar.allocedHeaps m
  links : Links g ar m
  guard : Guard E g m

end Picasso.Alloc.Invariant
