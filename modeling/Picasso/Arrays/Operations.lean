import Picasso.Arrays.Heap

namespace Picasso.Arrays.Operations

open Lib.Memory Lib.Stateful Heap

/-- The size of `__public__array_t`. Its fields are the data and the shape,
which are pointers, the length, the rank, the capacity, and the element size. -/
def SIZEOF_ARRAY : Nat := 48

section Fields

def dataPtr (m : Nat → UInt8) (arr : Nat) : Nat := load m 8 arr

def shapePtr (m : Nat → UInt8) (arr : Nat) : Nat := load m 8 (arr + 8)

def length (m : Nat → UInt8) (arr : Nat) : Int := signed 8 (load m 8 (arr + 16))

def rank (m : Nat → UInt8) (arr : Nat) : Int := signed 8 (load m 8 (arr + 24))

def capacity (m : Nat → UInt8) (arr : Nat) : Int := signed 8 (load m 8 (arr + 32))

def elemSize (m : Nat → UInt8) (arr : Nat) : Int := signed 4 (load m 4 (arr + 40))

structure Fields (m : Nat → UInt8) (arr n r cap es : Nat) : Prop where
  length : length m arr = n
  rank : rank m arr = r
  capacity : capacity m arr = cap
  elemSize : elemSize m arr = es

variable {m m' : Nat → UInt8} {arr n r cap es : Nat}

theorem word_congr (h : Agree m m' arr SIZEOF_ARRAY) {k w : Nat} (hk : k + w ≤ 48) :
    load m' w (arr + k) = load m w (arr + k) :=
  (load_congr (h.mono (Nat.le_add_right ..) (by unfold SIZEOF_ARRAY; omega))).symm

theorem dataPtr_congr (h : Agree m m' arr SIZEOF_ARRAY) : dataPtr m' arr = dataPtr m arr := word_congr (k := 0) h (by omega)

theorem shapePtr_congr (h : Agree m m' arr SIZEOF_ARRAY) : shapePtr m' arr = shapePtr m arr := word_congr h (by omega)

theorem numbers_congr (h : ∀ k w, 16 ≤ k → k + w ≤ 48 → load m' w (arr + k) = load m w (arr + k)) :
    length m' arr = length m arr ∧ rank m' arr = rank m arr ∧ capacity m' arr = capacity m arr ∧
      elemSize m' arr = elemSize m arr :=
  ⟨congrArg (signed 8) (h 16 8 (by omega) (by omega)), congrArg (signed 8) (h 24 8 (by omega) (by omega)),
    congrArg (signed 8) (h 32 8 (by omega) (by omega)), congrArg (signed 4) (h 40 4 (by omega) (by omega))⟩

theorem Fields.of_words (h : Fields m arr n r cap es)
    (hm : ∀ k w, 16 ≤ k → k + w ≤ 48 → load m' w (arr + k) = load m w (arr + k)) : Fields m' arr n r cap es := by
  obtain ⟨hlen, hrank, hcap, helem⟩ := numbers_congr hm
  exact ⟨hlen.trans h.length, hrank.trans h.rank, hcap.trans h.capacity, helem.trans h.elemSize⟩

theorem Fields.congr (h : Fields m arr n r cap es) (hm : Agree m m' arr SIZEOF_ARRAY) : Fields m' arr n r cap es :=
  h.of_words fun _ _ _ hk => word_congr hm hk

theorem Fields.setLength (h : Fields m arr n r cap es) {k : Nat} (hk : k < 2 ^ 63) :
    Fields (store m 8 (arr + 16) k) arr k r cap es := by
  constructor
  · rw [Operations.length, load_store_self, signed_natCast] <;> omega
  · rw [← h.rank, Operations.rank, load_store_apart (by omega), Operations.rank]
  · rw [← h.capacity, Operations.capacity, load_store_apart (by omega), Operations.capacity]
  · rw [← h.elemSize, Operations.elemSize, load_store_apart (by omega), Operations.elemSize]

theorem Fields.setCapacity (h : Fields m arr n r cap es) {k : Nat} (hk : k < 2 ^ 63) :
    Fields (store m 8 (arr + 32) k) arr n r k es := by
  constructor
  · rw [← h.length, Operations.length, load_store_apart (by omega), Operations.length]
  · rw [← h.rank, Operations.rank, load_store_apart (by omega), Operations.rank]
  · rw [Operations.capacity, load_store_self, signed_natCast] <;> omega
  · rw [← h.elemSize, Operations.elemSize, load_store_apart (by omega), Operations.elemSize]

theorem Fields.setData (h : Fields m arr n r cap es) (q : Nat) : Fields (store m 8 arr q) arr n r cap es :=
  h.of_words fun _ _ _ _ => load_store_apart (by omega)

end Fields

section Allocation

variable (A : Allocator)

def initArray (elementSize : Int) (rank dims : Nat) (count : Int) (dataSize arr dt : Nat) : Op Unit := do
  write 8 arr dt
  write 8 (arr + 8) (arr + SIZEOF_ARRAY)
  memcpy (← read 8 (arr + 8)) dims (rank * 8)
  writeInt 8 (arr + 32) count
  writeInt 8 (arr + 16) count
  writeInt 8 (arr + 24) rank
  writeInt 4 (arr + 40) elementSize
  memset (← read 8 arr) 0 dataSize

/-- `dims` points to the dimensions that are left. The sizes are of type
`size_t`, to which a negative count is converted. -/
def allocArrayRecursive (elementSize : Int) : Nat → Nat → Op Nat
  | 0, _ => pure 0
  | rank + 1, dims => do
      let count ← readInt 8 dims
      assert (count ≠ 0)
      let dataSize := word 8 count * (if 1 < rank + 1 then 8 else word 8 elementSize) % 2 ^ 64
      let arr ← allocate A (SIZEOF_ARRAY + (rank + 1) * 8)
      let dt ← allocate A dataSize
      initArray elementSize (rank + 1) dims count dataSize arr dt
      if 1 < rank + 1 then
        let subArrays ← read 8 arr
        upto (fun i => do
          let sub ← allocArrayRecursive elementSize rank (dims + 8)
          write 8 (subArrays + 8 * i) sub) count.toNat
      return arr

def allocArray (elementSize : Int) (args : List Int) : Op Nat := do
  if args = [] then return 0
  let dims ← allocate A (args.length * 8)
  upto (fun i => writeInt 8 (dims + 8 * i) (args.getD i 0)) args.length
  let result ← allocArrayRecursive A elementSize args.length dims
  release dims
  return result

/-- The data gets a new block when there is no capacity for the length. -/
def growArray (arr : Nat) (len newCap : Int) : Op Unit := do
  writeInt 8 (arr + 32) newCap
  let elementSize ← readInt 4 (arr + 40)
  let data ← allocate A (word 8 newCap * word 8 elementSize % 2 ^ 64)
  assert ((newCap * elementSize).bmod (2 ^ 64) ≠ 0)
  memcpy data (← read 8 arr) (word 8 ((len - 1) * elementSize))
  release (← read 8 arr)
  write 8 arr data

def extendArray (arr : Nat) : Op Unit := do
  if arr = 0 then runtimeError "===== array is NULL in extend_array"
  writeInt 8 (arr + 16) ((← readInt 8 (arr + 16)) + 1)
  let len ← readInt 8 (arr + 16)
  let cap ← readInt 8 (arr + 32)
  if len ≤ cap then return
  growArray A arr len (if 0 < cap then (cap * 2).bmod (2 ^ 64) else 1)

/-- The bytes of a string as an array. Its struct gets as many bytes as the
string has, and the capacity and the element size are not set. -/
def stringsGetBytes (fmt : Nat) : Op Nat := do
  let arr ← allocate A (← read 8 (fmt + 8))
  write 8 arr (← read 8 fmt)
  let count ← read 8 (fmt + 8)
  write 8 (arr + 8) ((← read 8 arr) + count)
  write 8 (arr + 16) count
  writeInt 8 (arr + 24) 1
  return arr

/-- The array of the dimensions of an array: its data is the shape of the other
one. -/
def loadShapeArray (arr : Nat) : Op Nat := do
  let rank ← readInt 8 (arr + 24)
  let structAlloc ← allocArray A 8 [rank]
  write 8 structAlloc (← read 8 (arr + 8))
  writeInt 8 (← read 8 (structAlloc + 8)) rank
  return structAlloc

end Allocation

section Indexing

def getSubarray (arr : Nat) (index : Int) : Op Nat := do
  if arr = 0 then return 0
  if (← readInt 8 (arr + 24)) ≤ 1 then return 0
  if index < 0 ∨ (← readInt 8 (arr + 16)) ≤ index then return 0
  read 8 ((← read 8 arr) + 8 * index.toNat)

def setSubarray (arr : Nat) (index : Int) (sub : Nat) : Op Unit := do
  if arr = 0 then return
  if (← readInt 8 (arr + 24)) ≤ 1 then return
  if index < 0 ∨ (← readInt 8 (arr + 16)) ≤ index then return
  write 8 ((← read 8 arr) + 8 * index.toNat) sub

def checkIndex (arr : Nat) (index : Int) : Op Unit := do
  if index < 0 then runtimeError "array index < 0"
  if (← readInt 8 (arr + 16)) ≤ index then runtimeError "array index out of bounds\n"

def descend : Nat → List Int → Op Nat
  | arr, [] => pure arr
  | arr, index :: indices => do
      checkIndex arr index
      descend (← getSubarray arr index) indices

def storeByIndex (width arr : Nat) (indices : List Int) (last : Int) (val : Nat) : Op Unit := do
  let current ← descend arr indices
  checkIndex current last
  write width ((← read 8 current) + width * last.toNat) val

def storeSubarrayByIndex (arr : Nat) (indices : List Int) (last : Int) (subarray : Nat) : Op Unit := do
  let current ← descend arr indices
  checkIndex current last
  setSubarray current last subarray

/-- `array.append` on an array that the compiler takes to be of rank
`staticRank`, with elements of `width` bytes. -/
def append (A : Allocator) (staticRank width arr val : Nat) : Op Unit := do
  let lastIdx ← readInt 8 (arr + 16)
  extendArray A arr
  if 1 < staticRank then storeSubarrayByIndex arr [] lastIdx val else storeByIndex width arr [] lastIdx val

end Indexing

end Picasso.Arrays.Operations
