import Mathlib.Logic.Relation
import Mathlib.Data.List.Basic
import Mathlib.Order.Basic

namespace Picasso.Lib.Exploration

open List

variable {α : Type} {next : α → List α} {seen seen' seen'' : List α} {vs : List α} {v x : α} {a b c : α}

def Reaches (next : α → List α) : α → α → Prop := Relation.ReflTransGen fun a b => b ∈ next a

theorem Reaches.trans (h : Reaches next a b) (h' : Reaches next b c) : Reaches next a c :=
  Relation.ReflTransGen.trans h h'

theorem Reaches.head (h : b ∈ next a) (h' : Reaches next b c) : Reaches next a c :=
  Relation.ReflTransGen.head h h'

theorem Reaches.tail (h : Reaches next a b) (h' : c ∈ next b) : Reaches next a c :=
  Relation.ReflTransGen.tail h h'

theorem Reaches.closed {P : α → Prop} (hP : ∀ a b, P a → b ∈ next a → P b) (h : Reaches next v x) (hv : P v) : P x := by
  induction h with
  | refl => exact hv
  | tail _ hb ih => exact hP _ _ ih hb

theorem Reaches.congr {next' : α → List α} (heq : ∀ y, Reaches next v y → next' y = next y) :
    Reaches next' v x ↔ Reaches next v x := by
  constructor
  · intro h
    induction h with
    | refl => exact .refl
    | tail _ hc ih => exact ih.tail (by rw [← heq _ ih]; exact hc)
  · intro h
    induction h with
    | refl => exact .refl
    | tail hb hc ih => exact ih.tail (by rw [heq _ hb]; exact hc)

section DepthFirst

/-- A search from `vs` has grown what it has seen to `seen'`: it has left no
edge of a new node out and has gone nowhere else. -/
structure Explored (next : α → List α) (seen vs seen' : List α) : Prop where
  grows : ∀ x ∈ seen, x ∈ seen'
  visits : ∀ v ∈ vs, v ∈ seen'
  sound : ∀ x ∈ seen', x ∈ seen ∨ ∃ v ∈ vs, Reaches next v x
  closed : ∀ x ∈ seen', x ∉ seen → ∀ y ∈ next x, y ∈ seen'

theorem Explored.nil : Explored next seen [] seen :=
  ⟨fun _ h => h, fun _ h => (not_mem_nil h).elim, fun _ h => .inl h, fun _ h h' => absurd h h'⟩

theorem Explored.skip (h : v ∈ seen) : Explored next seen [v] seen :=
  ⟨fun _ h => h, fun _ hx => mem_singleton.mp hx ▸ h, fun _ h => .inl h, fun _ h h' => absurd h h'⟩

theorem Explored.append {us : List α} (h : Explored next seen us seen') (h' : Explored next seen' vs seen'') :
    Explored next seen (us ++ vs) seen'' where
  grows x hx := h'.grows x (h.grows x hx)
  visits v hv := by
    rcases mem_append.mp hv with hv | hv
    · exact h'.grows v (h.visits v hv)
    · exact h'.visits v hv
  sound x hx := by
    rcases h'.sound x hx with hx | ⟨v, hv, hr⟩
    · rcases h.sound x hx with hx | ⟨v, hv, hr⟩
      · exact .inl hx
      · exact .inr ⟨v, mem_append_left _ hv, hr⟩
    · exact .inr ⟨v, mem_append_right _ hv, hr⟩
  closed x hx hn y hy := by
    by_cases hx' : x ∈ seen'
    · exact h'.grows y (h.closed x hx' hn y hy)
    · exact h'.closed x hx hx' y hy

theorem Explored.cons (h : Explored next seen [v] seen') (h' : Explored next seen' vs seen'') :
    Explored next seen (v :: vs) seen'' := h.append h'

theorem Explored.enter (h : Explored next (v :: seen) (next v) seen') : Explored next seen [v] seen' where
  grows x hx := h.grows x (mem_cons_of_mem v hx)
  visits x hx := mem_singleton.mp hx ▸ h.grows v mem_cons_self
  sound x hx := by
    rcases h.sound x hx with hx | ⟨w, hw, hr⟩
    · rcases mem_cons.mp hx with rfl | hx
      · exact .inr ⟨x, mem_singleton_self x, .refl⟩
      · exact .inl hx
    · exact .inr ⟨v, mem_singleton_self v, .head hw hr⟩
  closed x hx hn y hy := by
    by_cases hxv : x = v
    · exact h.visits y (hxv ▸ hy)
    · exact h.closed x hx (by simp [hxv, hn]) y hy

theorem Explored.leave (h : Explored next seen (next v) seen') : Explored next seen [v] (v :: seen') where
  grows x hx := mem_cons_of_mem v (h.grows x hx)
  visits x hx := mem_singleton.mp hx ▸ mem_cons_self
  sound x hx := by
    rcases mem_cons.mp hx with rfl | hx
    · exact .inr ⟨x, mem_singleton_self x, .refl⟩
    · rcases h.sound x hx with hx | ⟨w, hw, hr⟩
      · exact .inl hx
      · exact .inr ⟨v, mem_singleton_self v, .head hw hr⟩
  closed x hx hn y hy := by
    rcases mem_cons.mp hx with rfl | hx
    · exact mem_cons_of_mem x (h.visits y hy)
    · exact mem_cons_of_mem v (h.closed x hx hn y hy)

theorem Explored.mem_iff (h : Explored next [] [v] seen) : x ∈ seen ↔ Reaches next v x := by
  constructor
  · intro hx
    obtain ⟨w, hw, hr⟩ := (h.sound x hx).resolve_left not_mem_nil
    exact mem_singleton.mp hw ▸ hr
  · intro hr
    exact hr.closed (fun a b ha hb => h.closed a ha not_mem_nil b hb) (h.visits v (mem_singleton_self v))

end DepthFirst

section Unseen

variable [DecidableEq α] (nodes : List α)

def unseen (seen : List α) : Nat := (nodes.filter fun v => v ∉ seen).length

variable {nodes}

theorem unseen_le_length (nodes seen : List α) : unseen nodes seen ≤ nodes.length := length_filter_le _ _

theorem unseen_le (h : ∀ x ∈ seen, x ∈ seen') : unseen nodes seen' ≤ unseen nodes seen := by
  apply List.Sublist.length_le
  apply monotone_filter_right
  intro x hx
  simp only [decide_eq_true_eq] at hx ⊢
  exact fun hs => hx (h x hs)

theorem unseen_lt (hv : v ∈ nodes) (hs : v ∉ seen) : unseen nodes (v :: seen) < unseen nodes seen := by
  have hsub : (nodes.filter fun x => x ∉ v :: seen) = (nodes.filter fun x => x ∉ seen).filter fun x => x ≠ v := by
    rw [filter_filter]
    apply filter_congr
    intro x _
    simp [not_or]
  rw [unseen, hsub, unseen]
  apply length_filter_lt_length_iff_exists.mpr
  exact ⟨v, mem_filter.mpr ⟨hv, by simpa using hs⟩, by simp⟩

theorem unseen_append {new : List α} (hnd : new.Nodup) (hnew : ∀ x ∈ new, x ∈ nodes ∧ x ∉ seen) :
    unseen nodes (seen ++ new) + new.length ≤ unseen nodes seen := by
  induction new generalizing seen with
  | nil => simp
  | cons x new ih =>
    obtain ⟨hx, hnd⟩ := nodup_cons.mp hnd
    have hlt := unseen_lt (hnew x mem_cons_self).1 (hnew x mem_cons_self).2
    have hle := @ih (x :: seen) hnd fun y hy => by
      refine ⟨(hnew y (mem_cons_of_mem x hy)).1, ?_⟩
      rw [mem_cons, not_or]
      exact ⟨fun h => hx (h ▸ hy), (hnew y (mem_cons_of_mem x hy)).2⟩
    have heq : unseen nodes (seen ++ x :: new) ≤ unseen nodes (x :: seen ++ new) :=
      unseen_le fun y hy => by simpa [or_left_comm] using hy
    rw [length_cons]
    omega

end Unseen

section Worklist

/-- Everything found comes from a root, and the edges of all that has left the
queue have been followed. -/
structure Closing (next : α → List α) (roots found queue : List α) : Prop where
  covered : ∀ x ∈ roots, x ∈ found
  queued : ∀ x ∈ queue, x ∈ found
  sound : ∀ x ∈ found, ∃ r ∈ roots, Reaches next r x
  closed : ∀ x ∈ found, x ∉ queue → ∀ y ∈ next x, y ∈ found

variable {roots found queue : List α}

theorem Closing.start (roots : List α) : Closing next roots roots roots :=
  ⟨fun _ h => h, fun _ h => h, fun x h => ⟨x, h, .refl⟩, fun _ h h' => absurd h h'⟩

theorem Closing.mem_iff (h : Closing next roots found []) : x ∈ found ↔ ∃ r ∈ roots, Reaches next r x := by
  refine ⟨h.sound x, ?_⟩
  rintro ⟨r, hr, hx⟩
  exact hx.closed (fun a b ha hb => h.closed a ha not_mem_nil b hb) (h.covered r hr)

theorem Closing.pop {new : List α} (h : Closing next roots found (v :: queue)) (hnew : ∀ x ∈ new, x ∈ next v)
    (hall : ∀ y ∈ next v, y ∈ found ∨ y ∈ new) : Closing next roots (found ++ new) (queue ++ new) where
  covered x hx := mem_append_left _ (h.covered x hx)
  queued x hx := by
    rcases mem_append.mp hx with hx | hx
    · exact mem_append_left _ (h.queued x (mem_cons_of_mem v hx))
    · exact mem_append_right _ hx
  sound x hx := by
    rcases mem_append.mp hx with hx | hx
    · exact h.sound x hx
    · obtain ⟨r, hr, hv⟩ := h.sound v (h.queued v mem_cons_self)
      exact ⟨r, hr, hv.tail (hnew x hx)⟩
  closed x hx hq y hy := by
    rw [mem_append, not_or] at hq
    have hx := (mem_append.mp hx).resolve_right hq.2
    by_cases hxv : x = v
    · exact mem_append.mpr (hall y (hxv ▸ hy))
    · exact mem_append_left _ (h.closed x hx (by simp [hxv, hq.1]) y hy)

end Worklist

end Picasso.Lib.Exploration
