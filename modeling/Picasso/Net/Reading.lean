import Mathlib.Data.List.Basic
import Mathlib.Order.Nat
import Mathlib.Algebra.GroupWithZero.Nat
import Mathlib.Algebra.Group.Int.Defs

namespace Picasso.Net.Reading

open Option

abbrev Bytes := List UInt8

/-- What `recv` does: it delivers bytes, none of them when the peer has shut
down; it would block; or it fails. -/
inductive Recv
  | bytes (bs : Bytes)
  | again
  | error (errno : Nat)

/-- The request of a task: the number of bytes that is given to `recv` as a
`size_t`. -/
def size (reqN : Int) : Nat := (reqN % 2 ^ 64).toNat

/-- What a read has come to: the bytes that were written to the buffer and the
result, or the failed assertion `req_n >= done_n`. -/
inductive Done
  | result (written : Bytes) (doneN : Int)
  | aborted (written : Bytes)

/-- The worker for a request. After a `recv` that would block it waits for the
next event; a `recv` cannot deliver more than it is asked for. -/
def worker (reqN : Int) : List Recv → Option Done
  | [] => none
  | .again :: rs => worker reqN rs
  | .error _ :: _ => some (if reqN < -1 then .aborted [] else .result [] (-1))
  | .bytes bs :: _ =>
    if bs.length ≤ size reqN then some (if reqN < bs.length then .aborted bs else .result bs bs.length) else none

def Done.written : Done → Bytes
  | .result written _ => written
  | .aborted written => written

/-- `TCPConn.read`: whether it prints that there is no connection or not enough
space in the buffer, and what the read comes to. For want of space it is not
given up. -/
def read (fd : Int64) (length : Fin (2 ^ 63)) (max : Int64) (rs : List Recv) : Bool × Option Done :=
  if fd = -1 then (true, some (.result [] (-1))) else (decide ((length : Int) < max.toInt), worker max.toInt rs)

theorem worker_written {reqN : Int} {rs : List Recv} {done : Done} (h : worker reqN rs = some done) :
    done.written.length ≤ size reqN := by
  induction rs with
  | nil => cases h
  | cons r rs ih =>
    cases r with
    | again => exact ih h
    | error e =>
      rw [worker] at h
      split at h <;> cases h <;> exact Nat.zero_le _
    | bytes bs =>
      rw [worker] at h
      split at h
      · next hle => split at h <;> cases h <;> exact hle
      · cases h

theorem size_eq (max : Int64) : (size max.toInt : Int) = if 0 ≤ max.toInt then max.toInt else max.toInt + 2 ^ 64 := by
  have := max.le_toInt
  have := max.toInt_lt
  rw [size]
  split <;> omega

theorem read_in_bounds (fd : Int64) (length : Fin (2 ^ 63)) (max : Int64) :
    (∀ rs done, (read fd length max rs).2 = some done → done.written.length ≤ length) ↔
      fd = -1 ∨ 0 ≤ max.toInt ∧ max.toInt ≤ length := by
  have hsize := size_eq max
  have hlen := length.isLt
  by_cases hfd : fd = -1
  · refine iff_of_true (fun rs done h => ?_) (.inl hfd)
    rw [read, if_pos hfd] at h
    cases h
    exact Nat.zero_le _
  rw [or_iff_right hfd]
  unfold read
  simp only [if_neg hfd]
  constructor
  · intro h
    by_contra hnot
    have hroom : length + 1 ≤ size max.toInt := by
      have := max.le_toInt
      split at hsize <;> omega
    have hread : worker max.toInt [.bytes (List.replicate (length + 1) 0)] =
        some (if max.toInt < (length + 1 : Nat) then .aborted (List.replicate (length + 1) 0)
          else .result (List.replicate (length + 1) 0) (length + 1 : Nat)) := by
      rw [worker, List.length_replicate, if_pos hroom]
    have hle := h _ _ hread
    split at hle <;> exact absurd hle (by simp [Done.written])
  · rintro ⟨h0, hle⟩ rs done h
    have := worker_written h
    rw [if_pos h0] at hsize
    omega

inductive Answer
  | builder (content : Bytes)
  | null
  | aborted
  deriving DecidableEq

/-- The buffer of `n` zeros is made first; for none of them an assertion fails,
and a negative number is more than can be allocated. All of the buffer becomes
the string. -/
def readString (fd : Int64) (ndebug : Bool) (n : Int64) (rs : List Recv) : Option Answer :=
  if h : 0 ≤ n.toInt then
    if n = 0 ∧ ¬ ndebug then some .aborted
    else
      (read fd ⟨n.toInt.toNat, by have := n.toInt_lt; omega⟩ n rs).2.map fun
        | .aborted _ => .aborted
        | .result written doneN =>
          if doneN ≠ -1 then .builder (written ++ List.replicate (n.toInt.toNat - written.length) 0) else .null
  else some .aborted

/-- What was received: the first `recv` that does not block decides. -/
def received : List Recv → Option (Except Nat Bytes)
  | [] => none
  | .again :: rs => received rs
  | .error e :: _ => some (.error e)
  | .bytes bs :: _ => some (.ok bs)

/-- The content is what was received, or there is none after an error. -/
def exact : Except Nat Bytes → Answer
  | .ok bs => .builder bs
  | .error _ => .null

/-- Without a connection there is no content either. -/
def wanted (fd : Int64) (rs : List Recv) : Option Answer := if fd = -1 then some .null else (received rs).map exact

theorem worker_received {n : Int} (hn : 0 ≤ n) (rs : List Recv) :
    worker n rs = (received rs).bind fun
      | .error _ => some (.result [] (-1))
      | .ok bs => if bs.length ≤ size n then some (if n < bs.length then .aborted bs else .result bs bs.length) else none := by
  induction rs with
  | nil => rfl
  | cons r rs ih =>
    cases r with
    | again => exact ih
    | error e => rw [worker, if_neg (by omega)]; rfl
    | bytes bs => rfl

theorem readString_exact (fd : Int64) (ndebug : Bool) (n : Int64) (rs : List Recv) :
    readString fd ndebug n rs = wanted fd rs ↔ 0 ≤ n.toInt ∧ (n = 0 → ndebug = true) ∧
      (fd ≠ -1 → ∀ bs, received rs = some (.ok bs) → bs.length = n.toInt) := by
  have hexact : some Answer.aborted ≠ wanted fd rs := by
    unfold wanted
    rcases received rs with - | (e | bs) <;> split <;> simp [exact]
  rw [readString]
  split
  · next h0 =>
    rw [and_iff_right h0]
    split
    · next hbad =>
      exact iff_of_false hexact fun h => hbad.2 (h.1 hbad.1)
    · next hgood =>
      have hgood' : n = 0 → ndebug = true := fun h => by simpa [h] using hgood
      have hsize := size_eq n
      rw [if_pos h0] at hsize
      rw [and_iff_right hgood', read, wanted]
      by_cases hfd : fd = -1
      · simp [hfd]
      rw [if_neg hfd, if_neg hfd, forall_prop_of_true hfd, worker_received h0]
      rcases received rs with - | (e | bs)
      · simp
      · simp [exact]
      · by_cases hle : bs.length ≤ size n.toInt
        · have hlt : ¬ n.toInt < bs.length := by omega
          have hne : (bs.length : Int) ≠ -1 := by omega
          simp only [bind_some, if_pos hle, if_neg hlt, map_some, exact, if_pos hne, Option.some.injEq,
            Answer.builder.injEq, List.append_right_eq_self, List.replicate_eq_nil_iff, Except.ok.injEq, forall_eq']
          omega
        · simp only [bind_some, if_neg hle, map_none, map_some, Option.some.injEq, Except.ok.injEq, forall_eq']
          refine iff_of_false nofun ?_
          omega
  · next h0 => exact iff_of_false hexact fun h => h0 h.1

/-- A read writes only to the elements of its buffer, whatever `recv` does, just
when there is no connection, or the maximum is not negative and not above their
number. A string is what was received, or null after an error, just when its
buffer can be made and is filled. -/
theorem socket_reads_iff (fd : Int64) (length : Fin (2 ^ 63)) (max n : Int64) (ndebug : Bool) (rs : List Recv) :
    ((∀ rs done, (read fd length max rs).2 = some done → done.written.length ≤ length) ↔
      fd = -1 ∨ 0 ≤ max.toInt ∧ max.toInt ≤ length) ∧ (readString fd ndebug n rs = wanted fd rs ↔
      0 ≤ n.toInt ∧ (n = 0 → ndebug = true) ∧ (fd ≠ -1 → ∀ bs, received rs = some (.ok bs) → bs.length = n.toInt)) :=
  ⟨read_in_bounds fd length max, readString_exact fd ndebug n rs⟩

/-- Two bytes that arrive for four become four bytes, and a read of three bytes
into a buffer of two writes behind it. -/
theorem padded_and_overrun : readString 3 false 4 [.bytes [104, 105]] = some (.builder [104, 105, 0, 0]) ∧
    wanted 3 [.bytes [104, 105]] = some (.builder [104, 105]) ∧
      ∃ done, (read 3 2 3 [.bytes [1, 2, 3]]).2 = some done ∧ ¬ done.written.length ≤ 2 :=
  ⟨by decide, by decide, _, rfl, by decide⟩

end Picasso.Net.Reading
