import Picasso.Alloc.Chunk
import Mathlib.Logic.Function.Basic
import Mathlib.Algebra.GroupWithZero.Nat

namespace Picasso.Alloc.Allocator

open Chunk

def PAGE_SIZE : Nat := 4096

def HEAP_BASE_SIZE : Nat := 1024 * 1024

def HEAP_EXPONENTIAL_GROWTH_LIMIT : Nat := 64 * 1024 * 1024

def HEAP_CONSTANT_GROWTH : Nat := 64 * 1024 * 1024

def MAX_HEAP_GROWTH_ITERATIONS : Nat := 159

def MMAP_THRESHOLD : Nat := 131072

def MIN_PAYLOAD_SIZE : Nat := 32

def FASTBINS_COUNT : Nat := 7

def SMALLBINS_COUNT : Nat := 32

def LARGEBINS_COUNT : Nat := 64

def HEAP_BOUNDARY_SIZE : Nat := 32

def SIZEOF_FREE_CHUNK : Nat := 48

def SIZEOF_ARENA : Nat := 3448

-- `size_t` arithmetic wraps
def align16 (size : Nat) : Nat := (size + 15) % 2 ^ 64 / 16 * 16

def alignPage (size : Nat) : Nat := (size + PAGE_SIZE - 1) / PAGE_SIZE * PAGE_SIZE

structure Arena where
  fastbins : Nat → Nat
  topChunk : Nat
  unsortedbin : Nat
  smallbins : Nat → Nat
  largebins : Nat → Nat
  heapExpoGrowthIters : Nat
  heapConstantGrowthIters : Nat
  allocedHeaps : List (Nat × Nat)

/-- The memory, one arena, the regions that `mmap` has given out, and the
arguments of the calls of `munmap`. -/
structure State where
  mem : Mem
  ar : Arena
  mapped : List (Nat × Nat)
  unmapped : List (Nat × Nat)

/-- A region that the system may give out: page-aligned and apart from all others. -/
def Fresh (mapped : List (Nat × Nat)) (page size : Nat) : Prop :=
  page % PAGE_SIZE = 0 ∧ 0 < page ∧ 0 < size ∧ ∀ r ∈ mapped, r.1 + r.2 ≤ page ∨ page + size ≤ r.1

instance (mapped : List (Nat × Nat)) (page size : Nat) : Decidable (Fresh mapped page size) :=
  inferInstanceAs (Decidable (_ ∧ _ ∧ _ ∧ _))

/-- `page` is the address that the system answers with. -/
def allocMemory (s : State) (page size : Nat) : Option State :=
  if Fresh s.mapped page size then
    some { s with
      mem := fun a => if page ≤ a ∧ a < page + size then 0 else s.mem a
      mapped := (page, size) :: s.mapped }
  else none

def allocChunk (s : State) (page size : Nat) : Option State := do
  let s ← allocMemory s page (align16 ((size + HEADER_SIZE) % 2 ^ 64))
  return { s with mem := setFdbkTo (setSize s.mem page size MMAP_ALLOCATED) page 0 }

-- `none` stands for the index -1
def getSmallbinIndex (size : Nat) : Option Nat := if size < 16 then none else some (size / 16 - 1)

def getLargebinIndex (size : Nat) : Option Nat :=
  if size < 512 then none
  else if size ≤ 64 * 1024 then some (min ((size - 512) / 64) 31)
  else some (min (max (32 + (Nat.log2 size - 16)) 32) 63)

-- doubling up to the limit, then by a constant
def growsExponentially (ar : Arena) : Bool :=
  HEAP_BASE_SIZE * 2 ^ ar.heapExpoGrowthIters ≤ HEAP_EXPONENTIAL_GROWTH_LIMIT

def nextHeapSize (ar : Arena) : Nat :=
  if growsExponentially ar then HEAP_BASE_SIZE * 2 ^ ar.heapExpoGrowthIters
  else HEAP_EXPONENTIAL_GROWTH_LIMIT + HEAP_CONSTANT_GROWTH * ar.heapConstantGrowthIters

def growHeap (s : State) (page : Nat) : Option State := do
  let expo := growsExponentially s.ar
  let size := nextHeapSize s.ar
  let s ← allocChunk s page (size + HEAP_BOUNDARY_SIZE)
  let boundary := page + HEADER_SIZE + size
  let mem := setSize (unsetMmapFlag s.mem page) page size PREV_IN_USE
  let mem := setFdbkTo (setSize mem boundary 0 (CURR_IN_USE + PREV_IN_USE)) boundary 0
  if s.ar.allocedHeaps.length < MAX_HEAP_GROWTH_ITERATIONS then
    return { s with
      mem := mem
      ar := { s.ar with
        topChunk := page
        heapExpoGrowthIters := if expo then s.ar.heapExpoGrowthIters + 1 else s.ar.heapExpoGrowthIters
        heapConstantGrowthIters :=
          if expo then s.ar.heapConstantGrowthIters else s.ar.heapConstantGrowthIters + 1
        allocedHeaps := s.ar.allocedHeaps ++ [(page, boundary)] } }
  else none

/-- No list of an arena is longer than its heaps have bytes. -/
def fuel (ar : Arena) : Nat := (ar.allocedHeaps.map fun h => h.2 - h.1).sum + 1

def insertIntoFastbin (s : State) (fc : Nat) : State :=
  match getSmallbinIndex (getSize s.mem fc) with
  | some idx =>
    if idx < FASTBINS_COUNT then
      { s with
        mem := unsetCurrInuse (s.mem.set (fc + 16) (s.ar.fastbins idx)) fc
        ar := { s.ar with fastbins := Function.update s.ar.fastbins idx fc } }
    else s
  | none => s

def insertIntoSmallbin (ar : Arena) (m : Mem) (fc : Nat) : Option Mem := do
  let idx ← getSmallbinIndex (getSize m fc)
  if idx < SMALLBINS_COUNT then return insertIntoFdlist m (ar.smallbins idx) fc else none

/-- The first chunk of the sorted list from `ceil` on that is not smaller than `size`. -/
def findCeil (m : Mem) (head size : Nat) : Nat → Nat → Option Nat
  | 0, _ => none
  | n + 1, ceil =>
    if ceil ≠ head ∧ getSize m ceil < size then findCeil m head size n (nextSizeptr m ceil) else some ceil

def insertIntoLargebin (ar : Arena) (m : Mem) (fc : Nat) : Option Mem := do
  let size := getSize m fc
  let idx ← getLargebinIndex size
  let head := ar.largebins idx
  let ceil ← findCeil m head size (fuel ar) (nextSizeptr m head)
  let floor := prevSizeptr m ceil
  let m := (m.set (fc + 32) ceil).set (fc + 40) floor
  let m := (m.set (ceil + 40) fc).set (floor + 32) fc
  return insertIntoFdlist m head fc

def insertIntoUnsortedbin (ar : Arena) (m : Mem) (fc : Nat) : Option Mem := do
  let m := unsetCurrInuse m fc
  let m := unsetPrevInuse m (nextChunk m fc)
  let nextFc := nextChunk m fc
  let m ← setPrevSize m nextFc (getSize m fc) (getPrevSizeFlags m nextFc)
  let m := if 16 < getSize m fc then setNextprevSizeptrTo m fc 0 else m
  return insertIntoFdlist m ar.unsortedbin fc

def fastbinSearch (s : State) (requested : Nat) : Nat × State :=
  match getSmallbinIndex requested with
  | some idx =>
    if idx < FASTBINS_COUNT ∧ s.ar.fastbins idx ≠ 0 then
      let victim := s.ar.fastbins idx
      (victim, { s with
        mem := setCurrInuse (s.mem.set (victim + 16) 0) victim
        ar := { s.ar with fastbins := Function.update s.ar.fastbins idx (fd s.mem victim) } })
    else (0, s)
  | none => (0, s)

def smallbinSearch (ar : Arena) (m : Mem) (requested : Nat) : Nat × Mem :=
  match getSmallbinIndex requested with
  | some idx =>
    let head := ar.smallbins idx
    if idx < SMALLBINS_COUNT ∧ fd m head ≠ head then
      let victim := fd m head
      let m := setCurrInuse (unlinkChunkFromFdlist m victim) victim
      (victim, setPrevInuse m (nextChunk m victim))
    else (0, m)
  | none => (0, m)

def makeRemainder (m : Mem) (curr requested remainderChunkSize : Nat) : Option Mem :=
  let remainder := curr + HEADER_SIZE + requested
  let m := setSize m remainder (remainderChunkSize - HEADER_SIZE) PREV_IN_USE
  setPrevSize m (nextChunk m remainder) (remainderChunkSize - HEADER_SIZE) 0

/-- The part that `largebin_search` and `unsortedbin_search` have in common:
hand out the unlinked chunk `curr`, with its tail split off if that is large enough. -/
def handOut (ar : Arena) (m : Mem) (curr requested : Nat) : Option Mem :=
  let remainderChunkSize := getSize m curr - requested
  if MIN_PAYLOAD_SIZE + HEADER_SIZE ≤ remainderChunkSize then do
    let m ← makeRemainder m curr requested remainderChunkSize
    let m ← insertIntoUnsortedbin ar m (curr + HEADER_SIZE + requested)
    return setCurrInuse (setSize m curr requested (getSizeFlags m curr)) curr
  else
    let m := setCurrInuse m curr
    some (setPrevInuse m (nextChunk m curr))

def findFit (m : Mem) (head requested : Nat) : Nat → Nat → Option (Option Nat)
  | 0, _ => none
  | n + 1, curr =>
    if curr = head then some none
    else if requested ≤ getSize m curr then some (some curr)
    else findFit m head requested n (nextSizeptr m curr)

def searchLargebins (ar : Arena) (m : Mem) (requested : Nat) : Nat → Nat → Option (Nat × Mem)
  | 0, _ => some (0, m)
  | n + 1, i => do
      match ← findFit m (ar.largebins i) requested (fuel ar) (nextSizeptr m (ar.largebins i)) with
      | none => searchLargebins ar m requested n (i + 1)
      | some curr =>
        let m ← handOut ar (unlinkChunkFromSortedlist (unlinkChunkFromFdlist m curr) curr) curr requested
        return (curr, m)

def largebinSearch (ar : Arena) (m : Mem) (requested : Nat) : Option (Nat × Mem) :=
  match getLargebinIndex requested with
  | none => some (0, m)
  | some idx => searchLargebins ar m requested (LARGEBINS_COUNT - idx) idx

def searchUnsorted (ar : Arena) (requested : Nat) : Nat → Mem → Nat → Option (Nat × Mem)
  | 0, _, _ => none
  | n + 1, m, curr =>
    if curr = ar.unsortedbin then some (0, m)
    else do
      let next := fd m curr
      let m := unlinkChunkFromFdlist m curr
      if requested ≤ getSize m curr then
        let m ← handOut ar m curr requested
        return (curr, m)
      else if getSize m curr < 16 * SMALLBINS_COUNT then
        searchUnsorted ar requested n (← insertIntoSmallbin ar m curr) next
      else searchUnsorted ar requested n (← insertIntoLargebin ar m curr) next

def unsortedbinSearch (ar : Arena) (m : Mem) (requested : Nat) : Option (Nat × Mem) :=
  searchUnsorted ar requested (fuel ar) m (fd m ar.unsortedbin)

def carveTop (s : State) (requested : Nat) : Option (Nat × State) :=
  let curr := s.ar.topChunk
  if requested ≤ getSize s.mem curr then
    let remainderChunkSize := getSize s.mem curr - requested
    if MIN_PAYLOAD_SIZE + HEADER_SIZE ≤ remainderChunkSize then do
      let m ← makeRemainder s.mem curr requested remainderChunkSize
      let m := setCurrInuse (setSize m curr requested (getSizeFlags m curr)) curr
      return (curr, { s with mem := m, ar := { s.ar with topChunk := curr + HEADER_SIZE + requested } })
    else
      let m := setCurrInuse s.mem curr
      let m := setPrevInuse m (nextChunk m curr)
      some (curr, { s with mem := m, ar := { s.ar with topChunk := 0 } })
  else some (0, s)

def carveFromTopChunk (s : State) (page requested : Nat) : Option (Nat × State) :=
  if s.ar.topChunk = 0 then do carveTop (← growHeap s page) requested else carveTop s requested

def payloadSize (requested : Nat) : Nat := max (align16 requested) MIN_PAYLOAD_SIZE

def allocateFromTop (s : State) (page payload : Nat) : Option (Nat × State) := do
  let (victim, s) ← carveFromTopChunk s page payload
  if victim ≠ 0 then return (victim, s)
  let m ← insertIntoUnsortedbin s.ar s.mem s.ar.topChunk
  carveFromTopChunk { s with mem := m, ar := { s.ar with topChunk := 0 } } page payload

def allocateChunk (s : State) (page payload : Nat) : Option (Nat × State) := do
  let (victim, s) := if payload ≤ 16 * FASTBINS_COUNT then fastbinSearch s payload else (0, s)
  if victim ≠ 0 then return (victim, s)
  let (victim, m) := if payload < 16 * SMALLBINS_COUNT then smallbinSearch s.ar s.mem payload else (0, s.mem)
  if victim ≠ 0 then return (victim, { s with mem := m })
  let (victim, m) ← unsortedbinSearch s.ar m payload
  if victim ≠ 0 then return (victim, { s with mem := m })
  let (victim, m) ← largebinSearch s.ar m payload
  if victim ≠ 0 then return (victim, { s with mem := m })
  allocateFromTop { s with mem := m } page payload

/-- `_allocate`: the pointer handed out, or 0 for a request of 0 bytes. -/
def allocate (s : State) (page requested : Nat) : Option (Nat × State) :=
  if requested = 0 then some (0, s)
  else if MMAP_THRESHOLD ≤ payloadSize requested then do
    let s ← allocChunk s page (payloadSize requested)
    return (page + HEADER_SIZE, s)
  else do
    let (victim, s) ← allocateChunk s page (payloadSize requested)
    return (victim + HEADER_SIZE, s)

/-- The chunk to go on with, or 0 when the top chunk has taken it in. -/
def forwardCoalesce (s : State) (fc : Nat) : Option (Nat × State) := do
  let nextFc := nextChunk s.mem fc
  if isCurrInuse s.mem nextFc ∨ getSize s.mem nextFc ≤ 16 * FASTBINS_COUNT then return (fc, s)
  if nextFc = s.ar.topChunk then
    let updated := getSize s.mem fc + HEADER_SIZE + getSize s.mem nextFc
    let m := setSize s.mem fc updated (getSizeFlags s.mem fc)
    let m ← setPrevSize m (nextChunk m fc) updated 0
    return (0, { s with mem := m, ar := { s.ar with topChunk := fc } })
  let m := unlinkChunkFromSortedlist (unlinkChunkFromFdlist s.mem nextFc) nextFc
  let updated := getSize m fc + HEADER_SIZE + getSize m nextFc
  let m := setSize m fc updated (getSizeFlags m fc)
  let m ← setPrevSize m (nextChunk m fc) updated (getPrevSizeFlags m (nextChunk m fc))
  return (fc, { s with mem := m })

def backwardCoalesce (m : Mem) (fc : Nat) : Option (Nat × Mem) := do
  if isPrevInuse m fc then return (fc, m)
  let prevFc := prevChunk m fc
  if getSize m prevFc ≤ 16 then return (fc, m)
  let m := unlinkChunkFromSortedlist (unlinkChunkFromFdlist m prevFc) prevFc
  let updated := getSize m prevFc + HEADER_SIZE + getSize m fc
  let m := setSize m prevFc updated (getSizeFlags m prevFc)
  let m ← setPrevSize m (nextChunk m prevFc) updated (getPrevSizeFlags m (nextChunk m prevFc))
  return (prevFc, m)

def coalesce (s : State) (fc : Nat) : Option (Nat × State) := do
  let (fc, m) ← backwardCoalesce s.mem fc
  forwardCoalesce { s with mem := m } fc

/-- `munmap` of a whole region returns it to the system; of a part of a heap
it leaves the memory readable. -/
def munmap (s : State) (page size : Nat) : State :=
  { s with mapped := s.mapped.erase (page, size), unmapped := s.unmapped ++ [(page, size)] }

def release (s : State) (ptr : Nat) : Option State := do
  if ptr = 0 then return s
  let fc := ptr - HEADER_SIZE
  let size := getSize s.mem fc
  if size = 0 then none
  if MMAP_THRESHOLD ≤ size then return munmap s fc (size + HEADER_SIZE)
  if size ≤ 16 * FASTBINS_COUNT then return insertIntoFastbin s fc
  let (merged, s) ← coalesce s fc
  if merged = 0 then return s
  let m ← insertIntoUnsortedbin s.ar s.mem merged
  return { s with mem := m }

def initSentinels (m : Mem) (curr : Nat) (sorted : Bool) : Nat → Mem
  | 0 => m
  | n + 1 =>
    let m := initSentinels m curr sorted n
    let fc := curr + SIZEOF_FREE_CHUNK * n
    let m := setFdbkTo m fc fc
    let m := if sorted then setNextprevSizeptrTo m fc fc else m
    m.set (fc + 8) 0

/-- `arena_create`, with the answers of the system for the arena's own block
and for its first heap. The arena record takes the first bytes of the block. -/
def arenaCreate (mem : Mem) (mapped unmapped : List (Nat × Nat)) (block page : Nat) : Option State := do
  let needed := SIZEOF_ARENA + SMALLBINS_COUNT * SIZEOF_FREE_CHUNK + LARGEBINS_COUNT * SIZEOF_FREE_CHUNK +
    SIZEOF_FREE_CHUNK
  let small := block + SIZEOF_ARENA
  let large := small + SMALLBINS_COUNT * SIZEOF_FREE_CHUNK
  let unsorted := large + LARGEBINS_COUNT * SIZEOF_FREE_CHUNK
  let ar : Arena :=
    { fastbins := fun _ => 0
      topChunk := 0
      unsortedbin := unsorted
      smallbins := fun i => small + SIZEOF_FREE_CHUNK * i
      largebins := fun i => large + SIZEOF_FREE_CHUNK * i
      heapExpoGrowthIters := 0
      heapConstantGrowthIters := 0
      allocedHeaps := [] }
  let s ← allocMemory ⟨mem, ar, mapped, unmapped⟩ block (alignPage needed)
  let m := initSentinels s.mem small false SMALLBINS_COUNT
  let m := initSentinels m large true LARGEBINS_COUNT
  let m := initSentinels m unsorted false 1
  growHeap { s with mem := m } page

end Picasso.Alloc.Allocator
