import Picasso.Sched.SingleRunner

namespace Picasso.Sched.SubmitFailure

open Lib.Transition Tasking Placement Function State

variable {T : Type} [DecidableEq T]

def Keeps (k : Nat) (t : T) (s : State T) (_ : Act T) : Prop := s.thread k = .running t

instance (k : Nat) (t : T) (s : State T) (a : Act T) : Decidable (Keeps k t s a) :=
  inferInstanceAs (Decidable (s.thread k = .running t))

/-- The steps of a call of a disk operation whose submit fails: the call, the
answer `o` to `io_uring_get_sqe`, the push to the wait queue and the submit. -/
def failingCall (k : Nat) (op : IoOp) (o : Outcome) (errno : Nat) : List (Act T) :=
  [.call k (.disk op), .step k o, .step k .ok, .step k (.failed errno)]

/-- The call returns to its caller without having switched out, reports the
error and leaves the task in its wait queue or out of it as it was. -/
def Clean (s : State T) (k : Nat) (t : T) (op : IoOp) (o : Outcome) (errno : Nat) : Prop :=
  ∃ s', exec (machine T) (Keeps k t) (failingCall k op o errno) s = some s' ∧ Active s' k t .code ∧
    s'.io t = ⟨-1, errno, true⟩ ∧ (t ∈ s'.waitQ (s.schedId t) ↔ t ∈ s.waitQ (s.schedId t))

section Call

variable {s : State T} {k : Nat} {t : T} (op : IoOp) {o : Outcome} (errno : Nat)

def pushedState (s : State T) (t : T) (op : IoOp) : State T :=
  { s with
    status := update s.status t (.live (.submit op))
    prepared := update s.prepared (s.schedId t) (s.prepared (s.schedId t) ++ [t])
    waitQ := update s.waitQ (s.schedId t) (t :: s.waitQ (s.schedId t))
    wq := update s.wq t true
    io := update s.io t ⟨0, 0, false⟩ }

theorem failingCall_entry (ha : Active s k t .code) (ho : o ≠ .full) :
    exec (machine T) (Keeps k t) (failingCall k op o errno) s = submitStep (pushedState s t op) t op (.failed errno) := by
  simp [exec, failingCall, Keeps, machine, step, ha.thread, ha.status, callStep, pointStep, ho, goto,
    unsafeIoqPush, pushedState]

theorem failingCall_full (ha : Active s k t .code) {s' : State T}
    (h : exec (machine T) (Keeps k t) (failingCall k op .full errno) s = some s') : s'.status t ≠ .live .code := by
  by_cases hid : s.schedId t = k
  · simp [exec, failingCall, Keeps, machine, step, ha.thread, ha.status, callStep, pointStep, goto,
      taskYield, hid] at h
  · -- with another kernel thread in its record the task only goes back for an entry
    cases hth : s.thread (s.schedId t) <;>
      simp [exec, failingCall, Keeps, machine, step, ha.thread, ha.status, callStep, pointStep, goto,
        taskYield, Ne.symm hid, hth, Resume.point] at h <;> simp [← h]

variable {op errno}

theorem Clean.spec (ha : Active s k t .code) (h : Clean s k t op o errno) :
    o ≠ .full ∧ op ≠ .fileRead ∧ t ∈ s.waitQ (s.schedId t) := by
  obtain ⟨s', hs', hcode, _, hw⟩ := h
  have ho : o ≠ .full := by
    rintro rfl
    exact failingCall_full op errno ha hs' hcode.status
  rw [failingCall_entry op errno ha ho] at hs'
  cases hs'
  refine ⟨ho, fun hop => ?_, hw.mp (by simp [goto, pushedState])⟩
  simpa [goto, pushedState, hop] using hcode.status

theorem clean_of_waiting (ha : Active s k t .code) (ho : o ≠ .full) (hop : op ≠ .fileRead)
    (hm : t ∈ s.waitQ (s.schedId t)) : Clean s k t op o errno := by
  rw [Clean, failingCall_entry op errno ha ho]
  refine ⟨_, rfl, ⟨ha.thread, ?_⟩, ?_, ?_⟩
  · simp [goto, hop]
  · simp
  · simp [goto, pushedState, hm]

end Call

/-- A failed submit of a call is clean just if an entry was there at once, the
call is not `async_file_read`, and an earlier failure has left the task in its
wait queue. -/
theorem submit_failure_clean {s : State T} {k : Nat} {t : T} (ha : Active s k t .code) (op : IoOp) (o : Outcome)
    (errno : Nat) : Clean s k t op o errno ↔ o ≠ .full ∧ op ≠ .fileRead ∧ t ∈ s.waitQ (s.schedId t) :=
  ⟨Clean.spec ha, fun ⟨ho, hop, hm⟩ => clean_of_waiting ha ho hop hm⟩

/-- The second of two writes that fail in a row is clean. -/
theorem submit_failure_clean_second :
    ∃ s : State (Fin 1), Reachable (machine (Fin 1)) s ∧ Active s 0 0 .code ∧ Clean s 0 0 .fileWrite .ok 11 := by
  have hx : (walk (machine (Fin 1)) (.sched 0 :: failingCall 0 .fileWrite .ok 11) (start 0 0)).map
      (fun s => (s.thread 0, s.status 0, s.schedId 0, s.waitQ 0)) = some (.running 0, .live .code, 0, [0]) := by decide
  obtain ⟨s, hr, he⟩ := exec_reads hx (.init ⟨0, 0, by decide, rfl⟩)
  simp only [Prod.mk.injEq] at he
  have ha : Active s 0 0 .code := ⟨he.1, he.2.1⟩
  refine ⟨s, hr, ha, (submit_failure_clean ha _ _ _).mpr ⟨by simp, by simp, ?_⟩⟩
  simp [he.2.2.1, he.2.2.2]

/-- The first write that fails leaves the task in the wait queue, and a read
that fails switches out. -/
theorem unclean_failures :
    ∃ s : State (Fin 1), Reachable (machine (Fin 1)) s ∧ Active s 0 0 .code ∧ ¬ Clean s 0 0 .fileWrite .ok 11 ∧
      ¬ Clean s 0 0 .fileRead .ok 11 := by
  have hx : (walk (machine (Fin 1)) [.sched 0] (start 0 0)).map
      (fun s => (s.thread 0, s.status 0, s.schedId 0, s.waitQ 0)) = some (.running 0, .live .code, 0, []) := by decide
  obtain ⟨s, hr, he⟩ := exec_reads hx (.init ⟨0, 0, by decide, rfl⟩)
  simp only [Prod.mk.injEq] at he
  have ha : Active s 0 0 .code := ⟨he.1, he.2.1⟩
  have hout : 0 ∉ s.waitQ (s.schedId 0) := by simp [he.2.2.1, he.2.2.2]
  refine ⟨s, hr, ha, fun hc => ?_, fun hc => ?_⟩
  · exact hout (hc.spec ha).2.2
  · exact (hc.spec ha).2.1 rfl

end Picasso.Sched.SubmitFailure
