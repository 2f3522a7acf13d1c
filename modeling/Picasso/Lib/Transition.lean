import Mathlib.Logic.Function.Basic

namespace Picasso.Lib.Transition

/-- A machine with labelled steps. A label whose step is not enabled in a
state has the result `none` there. -/
structure Machine (σ α : Type) where
  init : σ → Prop
  step : σ → α → Option σ

variable {σ α : Type}

/-- The states reached by runs in which every step meets `ok` in the state
it is taken from. -/
inductive Run (M : Machine σ α) (ok : σ → α → Prop) : σ → Prop
  | init {s} : M.init s → Run M ok s
  | step {s a s'} : Run M ok s → ok s a → M.step s a = some s' → Run M ok s'

def Reachable (M : Machine σ α) : σ → Prop := Run M (fun _ _ => True)

variable {M : Machine σ α} {s s' : σ} {ok : σ → α → Prop}

theorem Reachable.step {a : α} (h : Reachable M s) (hs : M.step s a = some s') : Reachable M s' := Run.step h trivial hs

theorem Run.invariant {I : σ → Prop} (hinit : ∀ s, M.init s → I s)
    (hstep : ∀ s a s', I s → ok s a → M.step s a = some s' → I s') (h : Run M ok s) : I s := by
  induction h with
  | init hs => exact hinit _ hs
  | step _ hok hs ih => exact hstep _ _ _ ih hok hs

theorem Run.mono {ok' : σ → α → Prop} (hok : ∀ s a, ok s a → ok' s a) (h : Run M ok s) : Run M ok' s := by
  induction h with
  | init hs => exact .init hs
  | step _ ha hs ih => exact .step ih (hok _ _ ha) hs

theorem Run.reachable (h : Run M ok s) : Reachable M s := by
  induction h with
  | init hs => exact Run.init hs
  | step _ _ hs ih => exact ih.step hs

/-- Run a list of labels, giving up at the first step that is not enabled
or does not meet the guard. -/
def exec (M : Machine σ α) (ok : σ → α → Prop) [∀ s a, Decidable (ok s a)] : List α → σ → Option σ
  | [], s => some s
  | a :: as, s => if ok s a then (M.step s a).bind (exec M ok as) else none

abbrev walk (M : Machine σ α) : List α → σ → Option σ := exec M fun _ _ => True

theorem exec_run [∀ s a, Decidable (ok s a)] {as : List α} (hs : Run M ok s) (h : exec M ok as s = some s') :
    Run M ok s' := by
  induction as generalizing s with
  | nil => cases h; exact hs
  | cons a as ih =>
    rw [exec] at h
    split at h
    · next hok =>
      obtain ⟨u, hu, hr⟩ := Option.bind_eq_some_iff.mp h
      exact ih (.step hs hok hu) hr
    · cases h

section Reads

variable [∀ s a, Decidable (ok s a)] {as : List α} {β : Type} {v : β}

theorem exec_reads_bind {f : σ → Option β} (h : (exec M ok as s).bind f = some v) (hs : Run M ok s) :
    ∃ s', Run M ok s' ∧ f s' = some v := by
  obtain ⟨s', hs', hv⟩ := Option.bind_eq_some_iff.mp h
  exact ⟨s', exec_run hs hs', hv⟩

theorem exec_reads {f : σ → β} (h : (exec M ok as s).map f = some v) (hs : Run M ok s) :
    ∃ s', Run M ok s' ∧ f s' = v := by
  obtain ⟨s', hs', hv⟩ := Option.map_eq_some_iff.mp h
  exact ⟨s', exec_run hs hs', hv⟩

end Reads

end Picasso.Lib.Transition
