import Picasso.Alloc.Allocator
import Picasso.Lib.Memory
import Picasso.Lib.Stateful

namespace Picasso.Arrays.Heap

open Lib.Memory Lib.Stateful Alloc.Allocator List

section Operations

/-- What `allocate` may do at each of its calls, which are counted. A block is
placed apart from the live ones, below the end of the address space, and it
may hold anything. -/
structure Allocator where
  place : Nat → List Block → Nat → Option Nat
  junk : Nat → Nat → UInt8
  place_apart : ∀ {call live size a}, place call live size = some a → ∀ b ∈ live, Apart ⟨a, size⟩ b
  place_bounds : ∀ {call live size a}, place call live size = some a → 0 < a ∧ a + size ≤ 2 ^ 47

/-- Why a run ends before it returns. An access outside of the live blocks is
a `fault`. -/
inductive Stop
  | outOfMemory
  | assertion
  | fault
  | runtimeError (message : String)
deriving DecidableEq

structure State where
  mem : Nat → UInt8
  live : List Block
  calls : Nat

abbrev Op := StateT State (Except Stop)

namespace State

def holds (s : State) (a n : Nat) : Bool := s.live.any fun b => b.addr ≤ a ∧ a + n ≤ b.addr + b.size

def put (s : State) (m : Nat → UInt8) : State := { s with mem := m }

def grant (s : State) (A : Allocator) (a size : Nat) : State :=
  ⟨overlay s.mem a size (A.junk s.calls), ⟨a, size⟩ :: s.live, s.calls + 1⟩

def free (s : State) (p : Nat) : State := { s with live := s.live.filter (·.addr ≠ p) }

end State

def allocate (A : Allocator) (n : Nat) : Op Nat := fun s =>
  if n = 0 then .ok (0, s)
  else
    match A.place s.calls s.live (payloadSize n) with
    | some a => .ok (a, s.grant A a (payloadSize n))
    | none => .error .outOfMemory

def release (p : Nat) : Op Unit := fun s =>
  if p = 0 then .ok ((), s) else if s.live.any (·.addr = p) then .ok ((), s.free p) else .error .fault

def read (w a : Nat) : Op Nat := fun s => if s.holds a w then .ok (load s.mem w a, s) else .error .fault

def write (w a v : Nat) : Op Unit := fun s => if s.holds a w then .ok ((), s.put (store s.mem w a v)) else .error .fault

def readInt (w a : Nat) : Op Int := do return signed w (← read w a)

def writeInt (w a : Nat) (v : Int) : Op Unit := write w a (word w v)

def memcpy (dst src n : Nat) : Op Unit := fun s =>
  if n = 0 ∨ s.holds dst n ∧ s.holds src n then .ok ((), s.put (copy s.mem dst src n)) else .error .fault

def memset (dst : Nat) (v : UInt8) (n : Nat) : Op Unit := fun s =>
  if n = 0 ∨ s.holds dst n then .ok ((), s.put (fill s.mem dst v n)) else .error .fault

def assert (p : Prop) [Decidable p] : Op Unit := fun s => if p then .ok ((), s) else .error .assertion

def runtimeError {α : Type} (message : String) : Op α := fun _ => .error (.runtimeError message)

end Operations

section Runs

variable {s t u : State} {a w n : Nat}

@[simp] theorem mem_put (s : State) (m : Nat → UInt8) : (s.put m).mem = m := rfl

@[simp] theorem live_put (s : State) (m : Nat → UInt8) : (s.put m).live = s.live := rfl

theorem holds_of_mem {b : Block} (hb : b ∈ s.live) (ha : b.addr ≤ a) (hn : a + n ≤ b.addr + b.size) : s.holds a n := by
  simp only [State.holds, any_eq_true, decide_eq_true_eq]
  exact ⟨b, hb, ha, hn⟩

theorem exists_of_holds (h : s.holds a n) : ∃ b ∈ s.live, b.addr ≤ a ∧ a + n ≤ b.addr + b.size := by
  simpa only [State.holds, any_eq_true, decide_eq_true_eq] using h

theorem read_eq (h : s.holds a w) : read w a s = .ok (load s.mem w a, s) := if_pos h

theorem readInt_eq (h : s.holds a w) : readInt w a s = .ok (signed w (load s.mem w a), s) := by
  rw [readInt, run_bind_ok (read_eq h)]
  rfl

theorem read_put (h : s.holds a w) (m : Nat → UInt8) : read w a (s.put m) = .ok (load m w a, s.put m) :=
  read_eq (s := s.put m) h

theorem readInt_put (h : s.holds a w) (m : Nat → UInt8) : readInt w a (s.put m) = .ok (signed w (load m w a), s.put m) :=
  readInt_eq (s := s.put m) h

theorem write_put (h : s.holds a w) (m : Nat → UInt8) (v : Nat) :
    write w a v (s.put m) = .ok ((), s.put (store m w a v)) :=
  if_pos h

theorem writeInt_put (h : s.holds a w) (m : Nat → UInt8) (v : Int) :
    writeInt w a v (s.put m) = .ok ((), s.put (store m w a (word w v))) :=
  write_put h m _

theorem memcpy_put {dst src : Nat} (hdst : s.holds dst n) (hsrc : s.holds src n) (m : Nat → UInt8) :
    memcpy dst src n (s.put m) = .ok ((), s.put (copy m dst src n)) :=
  if_pos (.inr ⟨hdst, hsrc⟩)

theorem memset_put (h : s.holds a n) (m : Nat → UInt8) (v : UInt8) :
    memset a v n (s.put m) = .ok ((), s.put (fill m a v n)) :=
  if_pos (.inr h)

theorem assert_eq {p : Prop} [Decidable p] (h : p) : assert p s = .ok ((), s) := if_pos h

end Runs

section Validity

variable {s t u : State} {A : Allocator} {a n : Nat}

/-- The live blocks are not empty and have no address in common, and none is
at the address of `NULL`. -/
structure State.Valid (s : State) : Prop where
  apart : s.live.Pairwise Apart
  bounds : ∀ b ∈ s.live, 0 < b.addr ∧ 0 < b.size ∧ b.addr + b.size ≤ 2 ^ 47

variable {b c : Block} {new : List Block}

theorem State.Valid.apart_of_ne (h : s.Valid) (hb : b ∈ s.live) (hc : c ∈ s.live) (hne : b ≠ c) : Apart b c :=
  h.apart.forall hb hc hne

theorem State.Valid.put (h : s.Valid) (m : Nat → UInt8) : (s.put m).Valid := ⟨h.apart, h.bounds⟩

theorem State.Valid.eq_of_addr (h : s.Valid) (hb : b ∈ s.live) (hc : c ∈ s.live) (haddr : b.addr = c.addr) : b = c := by
  by_contra hne
  have := h.bounds b hb
  have := h.bounds c hc
  rcases h.apart_of_ne hb hc hne with hapart | hapart <;> omega

theorem release_eq (h : s.Valid) (hb : b ∈ s.live) : release b.addr s = .ok ((), s.free b.addr) := by
  have hpos := (h.bounds b hb).1
  rw [release, if_neg (by omega), if_pos (any_eq_true.mpr ⟨b, hb, by simp⟩)]

theorem mem_free (h : s.Valid) (hb : b ∈ s.live) : c ∈ (s.free b.addr).live ↔ c ∈ s.live ∧ c ≠ b := by
  rw [State.free, mem_filter, decide_eq_true_eq]
  refine and_congr_right fun hc => not_congr ⟨h.eq_of_addr hc hb, congrArg Block.addr⟩

theorem State.Valid.free (h : s.Valid) (p : Nat) : (s.free p).Valid :=
  ⟨h.apart.sublist filter_sublist, fun b hb => h.bounds b (mem_of_mem_filter hb)⟩

theorem payloadSize_pos (n : Nat) : 0 < payloadSize n := by
  unfold payloadSize MIN_PAYLOAD_SIZE
  omega

theorem le_payloadSize (hn : n + 15 < 2 ^ 64) : n ≤ payloadSize n := by
  unfold payloadSize align16 MIN_PAYLOAD_SIZE
  rw [Nat.mod_eq_of_lt hn]
  omega

def exhausted (e : Stop) : Prop := e = .outOfMemory

/-- `t` has come from `s` by allocations: the blocks of `s` are as they were. -/
structure Grows (s t : State) (new : List Block) : Prop where
  valid : t.Valid
  live : t.live = new ++ s.live
  kept : ∀ b ∈ s.live, Agree s.mem t.mem b.addr b.size

theorem Grows.refl (h : s.Valid) : Grows s s [] := ⟨h, rfl, fun _ _ => .refl _ _ _⟩

section Growth

variable (h : Grows s t new)

include h

theorem Grows.mem (hb : b ∈ s.live) : b ∈ t.live := by
  rw [h.live]
  exact mem_append_right _ hb

theorem Grows.mem_new (hb : b ∈ new) : b ∈ t.live := by
  rw [h.live]
  exact mem_append_left _ hb

theorem Grows.apart (hc : c ∈ s.live) (hb : b ∈ new) : Apart b c := by
  have hapart := h.valid.apart
  rw [h.live, pairwise_append] at hapart
  exact hapart.2.2 b hb c hc

theorem Grows.new_ne (hc : c ∈ s.live) (hb : b ∈ new) : b ≠ c :=
  (h.apart hc hb).ne (h.valid.bounds b (h.mem_new hb)).2.1

theorem Grows.trans {new' : List Block} (h' : Grows t u new') : Grows s u (new' ++ new) where
  valid := h'.valid
  live := by rw [h'.live, h.live, append_assoc]
  kept b hb := (h.kept b hb).trans (h'.kept b (h.mem hb))

theorem Grows.holds (hs : s.holds a n) : t.holds a n := by
  obtain ⟨b, hb, ha, hn⟩ := exists_of_holds hs
  exact holds_of_mem (h.mem hb) ha hn

theorem Grows.agree (hs : s.holds a n) : Agree s.mem t.mem a n := by
  obtain ⟨b, hb, ha, hn⟩ := exists_of_holds hs
  exact (h.kept b hb).mono ha hn

theorem Grows.put {m : Nat → UInt8} (hm : ∀ b ∈ s.live, Agree t.mem m b.addr b.size) :
    Grows s (t.put m) new where
  valid := ⟨h.valid.apart, h.valid.bounds⟩
  live := h.live
  kept b hb := (h.kept b hb).trans (hm b hb)

end Growth

theorem grows_grant (hs : s.Valid) (hn : 0 < n) (ha : A.place s.calls s.live n = some a) :
    Grows s (s.grant A a n) [⟨a, n⟩] where
  valid := by
    refine ⟨pairwise_cons.mpr ⟨A.place_apart ha, hs.apart⟩, ?_⟩
    intro b hb
    rcases mem_cons.mp hb with rfl | hb
    · exact ⟨(A.place_bounds ha).1, hn, (A.place_bounds ha).2⟩
    · exact hs.bounds b hb
  live := rfl
  kept b hb := (agree_overlay s.mem _ (A.place_apart ha b hb)).symm

theorem Grows.drop (h : Grows s t [b]) (h' : Grows t u new) : Grows s (u.free b.addr) new where
  valid := h'.valid.free _
  live := by
    have hb : b ∈ t.live := h.mem_new (mem_cons_self ..)
    have hkeep : ∀ c ∈ u.live, c ≠ b → decide (c.addr ≠ b.addr) = true := fun c hc hne =>
      decide_eq_true fun he => hne (h'.valid.eq_of_addr hc (h'.mem hb) he)
    have hnew : new.filter (·.addr ≠ b.addr) = new :=
      filter_eq_self.mpr fun c hc => hkeep c (h'.mem_new hc) (h'.new_ne hb hc)
    have hold : s.live.filter (·.addr ≠ b.addr) = s.live :=
      filter_eq_self.mpr fun c hc => hkeep c (h'.mem (h.mem hc)) (h.new_ne hc (mem_cons_self ..)).symm
    rw [State.free, h'.live, h.live, filter_append, filter_append, hnew, hold]
    simp
  kept c hc := (h.kept c hc).trans (h'.kept c (h.mem hc))

theorem allocate_eq (hn : 0 < n) (ha : A.place s.calls s.live (payloadSize n) = some a) :
    allocate A n s = .ok (a, s.grant A a (payloadSize n)) := by
  rw [allocate, if_neg (by omega), ha]

theorem allocate_none (hn : 0 < n) (ha : A.place s.calls s.live (payloadSize n) = none) :
    allocate A n s = .error .outOfMemory := by
  rw [allocate, if_neg (by omega), ha]

theorem allocate_ends (hs : s.Valid) (hn : 0 < n) :
    Ends exhausted (fun a t => Grows s t [⟨a, payloadSize n⟩]) (allocate A n s) := by
  cases ha : A.place s.calls s.live (payloadSize n) with
  | some a =>
    rw [allocate_eq hn ha]
    exact .ok (grows_grant hs (payloadSize_pos n) ha)
  | none =>
    rw [allocate_none hn ha]
    exact .error rfl

end Validity

section Bump

def top (live : List Block) : Nat := live.foldr (fun b a => max a (b.addr + b.size)) 16

theorem le_top {live : List Block} {b : Block} (hb : b ∈ live) : b.addr + b.size ≤ top live := by
  induction live with
  | nil => cases hb
  | cons c live ih =>
    rw [top, foldr_cons, ← top]
    rcases mem_cons.mp hb with rfl | hb
    · exact Nat.le_max_right ..
    · exact le_trans (ih hb) (Nat.le_max_left ..)

theorem top_pos (live : List Block) : 0 < top live := by
  induction live with
  | nil => decide
  | cons c live ih => exact lt_of_lt_of_le ih (Nat.le_max_left ..)

def bump : Allocator where
  place _ live size := if top live + size ≤ 2 ^ 47 then some (top live) else none
  junk _ _ := 255
  place_apart h b hb := by
    split at h <;> cases h
    exact .inr (le_top hb)
  place_bounds h := by
    split at h <;> cases h
    exact ⟨top_pos _, ‹_›⟩

def start : State := ⟨fun _ => 0, [], 0⟩

theorem start_valid : start.Valid := ⟨List.Pairwise.nil, fun _ hb => absurd hb not_mem_nil⟩

end Bump

end Picasso.Arrays.Heap
