import Picasso.Lib.Lists
import Picasso.Lib.Exploration
import Mathlib.Data.List.Nodup
import Mathlib.Data.List.Perm.Basic
import Mathlib.Logic.Function.Basic

namespace Picasso.Lib.Postorder

open Chunks Exploration List Function

variable {α ε : Type} {target : ε → α} {next next' : α → List ε} {seen seen' : List α} {es out pre post : List ε}
  {e : ε} {u x y z : α}

def succ (target : ε → α) (next : α → List ε) (x : α) : List α := (next x).map target

def Below (target : ε → α) (next : α → List ε) : α → α → Prop := Reaches (succ target next)

def Acyclic (target : ε → α) (next : α → List ε) : Prop := ∀ x, ∀ e ∈ next x, ¬ Below target next (target e) x

theorem Below.refl (x : α) : Below target next x x := Relation.ReflTransGen.refl

theorem Below.trans (h : Below target next x y) (h' : Below target next y z) : Below target next x z :=
  Reaches.trans h h'

theorem Below.head (h : e ∈ next x) (h' : Below target next (target e) y) : Below target next x y :=
  Reaches.head (mem_map_of_mem h) h'

theorem below_edge (h : e ∈ next x) : Below target next x (target e) := .head h (.refl _)

theorem Acyclic.antisymm (hac : Acyclic target next) (h : Below target next x y) (h' : Below target next y x) :
    x = y := by
  rcases Relation.ReflTransGen.cases_head h with rfl | ⟨z, hz, hzy⟩
  · rfl
  · obtain ⟨e, he, rfl⟩ := mem_map.mp hz
    exact absurd (Below.trans hzy h') (hac x e he)

theorem acyclic_of_rank (rank : α → Nat) (h : ∀ x, ∀ e ∈ next x, rank (target e) < rank x) : Acyclic target next := by
  intro x e he hx
  have hle := Reaches.closed (P := fun y => rank y ≤ rank (target e)) (fun a b ha hb => ?_) hx (Nat.le_refl _)
  · exact absurd (h x e he) (Nat.not_lt.mpr hle)
  · obtain ⟨d, hd, rfl⟩ := mem_map.mp hb
    exact Nat.le_trans (Nat.le_of_lt (h a d hd)) ha

/-- A depth-first search along edges. A node is marked when it is entered; the
edge by which it was entered is put out when all its own edges have been
followed. -/
inductive Visits (target : ε → α) (next : α → List ε) : List α → List ε → List α → List ε → Prop
  | nil (seen : List α) : Visits target next seen [] seen []
  | skip {seen seen' : List α} {e : ε} {es out : List ε} : target e ∈ seen → Visits target next seen es seen' out →
      Visits target next seen (e :: es) seen' out
  | enter {seen seen₁ seen' : List α} {e : ε} {es inner out : List ε} : target e ∉ seen →
      Visits target next (target e :: seen) (next (target e)) seen₁ inner → Visits target next seen₁ es seen' out →
      Visits target next seen (e :: es) seen' (inner ++ e :: out)

theorem Visits.append {seen1 : List α} {ds out' : List ε} (h : Visits target next seen es seen1 out)
    (h' : Visits target next seen1 ds seen' out') : Visits target next seen (es ++ ds) seen' (out ++ out') := by
  induction h with
  | nil seen => exact h'
  | skip hs _ ih => exact .skip hs (ih h')
  | enter hs hin _ _ ih =>
    rw [append_assoc]
    exact .enter hs hin (ih h')

section Visited

variable (h : Visits target next seen es seen' out)

include h

theorem Visits.explored : Explored (succ target next) seen (es.map target) seen' := by
  induction h with
  | nil seen => exact .nil
  | skip hs _ ih => exact (Explored.skip hs).cons ih
  | enter hs _ _ ih ih' => exact (Explored.enter ih).cons ih'

theorem Visits.mem_seen : x ∈ seen' ↔ x ∈ seen ∨ x ∈ out.map target := by
  induction h with
  | nil seen => simp
  | skip _ _ ih => exact ih
  | enter _ _ _ ih ih' =>
    rw [ih', ih, map_append, map_cons, mem_append, mem_cons, mem_cons]
    tauto

theorem Visits.fresh (hx : x ∈ out.map target) : x ∉ seen := by
  induction h with
  | nil seen => exact absurd hx not_mem_nil
  | skip _ _ ih => exact ih hx
  | enter hs hin _ ih ih' =>
    rw [map_append, map_cons, mem_append, mem_cons] at hx
    rcases hx with hx | rfl | hx
    · exact fun h => ih hx (mem_cons_of_mem _ h)
    · exact hs
    · exact fun h => ih' hx (hin.mem_seen.mpr (.inl (mem_cons_of_mem _ h)))

theorem Visits.nodup : (out.map target).Nodup := by
  induction h with
  | nil seen => exact nodup_nil
  | skip _ _ ih => exact ih
  | @enter _ _ _ e _ inner out _ hin hout ih ih' =>
    have hfresh (x : α) (hx : x ∈ target e :: inner.map target) : x ∉ out.map target := by
      intro hmem
      refine hout.fresh hmem (hin.mem_seen.mpr ?_)
      rcases mem_cons.mp hx with rfl | hx
      · exact .inl mem_cons_self
      · exact .inr hx
    rw [map_append, map_cons, nodup_append, nodup_cons]
    refine ⟨ih, ⟨hfresh _ mem_cons_self, ih'⟩, ?_⟩
    rintro x hx y hy rfl
    rcases mem_cons.mp hy with rfl | hy
    · exact hin.fresh hx mem_cons_self
    · exact hfresh x (mem_cons_of_mem _ hx) hy

theorem Visits.edge (he : e ∈ out) : e ∈ es ∨ ∃ d ∈ out, e ∈ next (target d) := by
  induction h with
  | nil seen => exact absurd he not_mem_nil
  | skip _ _ ih => exact (ih he).imp_left (mem_cons_of_mem _)
  | @enter _ _ _ f _ inner out _ _ _ ih ih' =>
    rcases mem_append.mp he with he | he
    · rcases ih he with he | ⟨d, hd, he⟩
      · exact .inr ⟨f, mem_append_right _ mem_cons_self, he⟩
      · exact .inr ⟨d, mem_append_left _ hd, he⟩
    · rcases mem_cons.mp he with rfl | he
      · exact .inl mem_cons_self
      · rcases ih' he with he | ⟨d, hd, he⟩
        · exact .inl (mem_cons_of_mem _ he)
        · exact .inr ⟨d, mem_append_right _ (mem_cons_of_mem _ hd), he⟩

end Visited

theorem Visits.edges_before (hac : Acyclic target next) (h : Visits target next seen es seen' out)
    (hout : out = pre ++ e :: post) (hy : y ∈ succ target next (target e)) : y ∈ seen ∨ y ∈ pre.map target := by
  induction h generalizing pre post with
  | nil seen => simp at hout
  | skip _ _ ih => exact ih hout
  | @enter seen seen1 seen' f _ inner out _ hin hrest ih ih' =>
    -- no edge leads back to the node that is being searched
    have hback (hbelow : Below target next (target f) (target e)) : y ≠ target f := by
      rintro rfl
      obtain ⟨d, hd, hdy⟩ := mem_map.mp hy
      exact hac _ d hd (hdy ▸ hbelow)
    rcases append_cons_cases hout with ⟨mid, hinner, -⟩ | ⟨rfl, rfl, -⟩ | ⟨mid, rfl, hmid⟩
    · rcases ih hinner with hmem | hmem
      · refine .inl ((mem_cons.mp hmem).resolve_left (hback ?_))
        have hmem : target e ∈ inner.map target := by rw [hinner]; simp
        obtain ⟨v, hv, hr⟩ := (hin.explored.sound _ (hin.mem_seen.mpr (.inr hmem))).resolve_left (hin.fresh hmem)
        exact Reaches.head hv hr
      · exact .inr hmem
    · rcases hin.mem_seen.mp (hin.explored.visits y hy) with hmem | hmem
      · exact .inl ((mem_cons.mp hmem).resolve_left (hback (.refl _)))
      · exact .inr hmem
    · rw [map_append, map_cons, mem_append, mem_cons]
      rcases ih' hmid with hmem | hmem
      · rcases hin.mem_seen.mp hmem with hmem | hmem
        · rcases mem_cons.mp hmem with rfl | hmem
          · exact .inr (.inr (.inl rfl))
          · exact .inl hmem
        · exact .inr (.inl hmem)
      · exact .inr (.inr (.inr hmem))

theorem Visits.below_before (hac : Acyclic target next) (h : Visits target next [] es seen' out)
    (hout : out = pre ++ e :: post) (hy : Below target next (target e) y) (hne : y ≠ target e) :
    y ∈ pre.map target := by
  refine (Reaches.closed (P := fun z => z = target e ∨ z ∈ pre.map target) ?_ hy (.inl rfl)).resolve_left hne
  rintro a b (rfl | ha) hb
  · exact .inr ((h.edges_before hac hout hb).resolve_left not_mem_nil)
  · obtain ⟨d, hd, rfl⟩ := mem_map.mp ha
    obtain ⟨p, q, rfl⟩ := append_of_mem hd
    have hsplit : out = p ++ d :: (q ++ e :: post) := by simp [hout]
    have hmem := (h.edges_before hac hsplit hb).resolve_left not_mem_nil
    rw [map_append]
    exact .inr (mem_append_left _ hmem)

theorem Visits.later {d : ε} (h : Visits target next seen es seen' out) (hout : out = pre ++ e :: post)
    (hd : d ∈ post) : target d ∉ pre.map target ∧ target d ≠ target e := by
  have hnodup := h.nodup
  rw [hout, map_append, map_cons, nodup_append, nodup_cons] at hnodup
  have hd := mem_map_of_mem (f := target) hd
  exact ⟨fun hpre => hnodup.2.2 _ hpre _ (mem_cons_of_mem _ hd) rfl, fun heq => hnodup.2.1.1 (heq ▸ hd)⟩

theorem Visits.mem_iff (h : Visits target next [] es seen' out) :
    x ∈ out.map target ↔ ∃ e ∈ es, Below target next (target e) x := by
  have hseen := h.mem_seen (x := x)
  rw [or_iff_right not_mem_nil] at hseen
  rw [← hseen]
  constructor
  · intro hx
    obtain ⟨v, hv, hr⟩ := (h.explored.sound x hx).resolve_left not_mem_nil
    obtain ⟨e, he, rfl⟩ := mem_map.mp hv
    exact ⟨e, he, hr⟩
  · rintro ⟨e, he, hr⟩
    exact hr.closed (fun a b ha hb => h.explored.closed a ha not_mem_nil b hb)
      (h.explored.visits _ (mem_map_of_mem he))

theorem Visits.first (h : Visits target next seen (e :: es) seen' out) (he : target e ∉ seen) :
    ∃ seen1 inner rest, out = inner ++ e :: rest ∧ Visits target next seen1 es seen' rest ∧
      ∀ x ∈ seen1, x ∈ seen ∨ Below target next (target e) x := by
  cases h with
  | skip hs => exact absurd hs he
  | @enter _ seen1 _ _ _ inner rest hs hin hrest =>
    refine ⟨seen1, inner, rest, rfl, hrest, fun x hx => ?_⟩
    have hfirst : Visits target next seen [e] seen1 (inner ++ [e]) := .enter hs hin (.nil _)
    refine (hfirst.explored.sound x hx).imp_right ?_
    rintro ⟨v, hv, hr⟩
    obtain rfl := mem_singleton.mp hv
    exact hr

theorem Visits.congr (h : Visits target next seen es seen' out)
    (heq : ∀ e ∈ es, ∀ x, Below target next (target e) x → next' x = next x) :
    Visits target next' seen es seen' out := by
  induction h with
  | nil seen => exact .nil seen
  | skip hs _ ih => exact .skip hs (ih fun e he => heq e (mem_cons_of_mem _ he))
  | @enter _ _ _ f _ _ _ hs _ _ ih ih' =>
    have hf := heq f mem_cons_self
    refine .enter hs ?_ (ih' fun e he => heq e (mem_cons_of_mem _ he))
    rw [hf _ (.refl _)]
    exact ih fun d hd x hx => hf x (.head hd hx)

section Orders

def Reorders (next' next : α → List ε) : Prop := ∀ x, (next' x).Perm (next x)

theorem Reorders.below (h : Reorders next' next) : Below target next' x y ↔ Below target next x y := by
  have hmem (a b : α) : b ∈ succ target next' a ↔ b ∈ succ target next a := ((h a).map target).mem_iff
  unfold Below Reaches
  simp only [hmem]

theorem Reorders.acyclic (h : Reorders next' next) (hac : Acyclic target next) : Acyclic target next' := by
  intro x e he hx
  exact hac x e ((h x).mem_iff.mp he) (h.below.mp hx)

open Classical in
noncomputable def bring (next : α → List ε) (x : α) (e : ε) : α → List ε :=
  Function.update next x (e :: (next x).erase e)

theorem bring_same (next : α → List ε) (x : α) (e : ε) : ∃ es, bring next x e x = e :: es := by
  classical
  exact ⟨(next x).erase e, by rw [bring, update_self]⟩

theorem bring_of_ne (e : ε) (h : z ≠ x) : bring next x e z = next z := by
  classical
  exact update_of_ne h _ _

theorem bring_reorders (h : e ∈ next x) : Reorders (bring next x e) next := by
  classical
  intro z
  by_cases hz : z = x
  · subst hz
    rw [bring, update_self]
    exact (perm_cons_erase h).symm
  · rw [bring_of_ne e hz]

theorem exists_reorder_enters (hac : Acyclic target next) (hx : Below target next x u) (he : e ∈ next u) :
    ∃ next', Reorders next' next ∧ (∀ z, ¬ Below target next x z → next' z = next z) ∧
      ∀ seen seen' out, (∀ z, z ≠ x → Below target next x z → Below target next z (target e) → z ∉ seen) →
        Visits target next' seen (next' x) seen' out → e ∈ out := by
  induction hx using Relation.ReflTransGen.head_induction_on with
  | refl =>
    refine ⟨bring next u e, bring_reorders he, fun z hz => ?_, fun seen seen' out hseen hv => ?_⟩
    · exact bring_of_ne e fun h => hz (h ▸ .refl _)
    · obtain ⟨es, hes⟩ := bring_same next u e
      rw [hes] at hv
      have hne : target e ≠ u := fun h => hac u e he (h ▸ .refl _)
      cases hv with
      | skip hs => exact absurd hs (hseen _ hne (below_edge he) (.refl _))
      | enter => simp
  | @head x y hxy hyu ih =>
    obtain ⟨d, hd, rfl⟩ := mem_map.mp hxy
    obtain ⟨next1, hre, hout, hvis⟩ := ih
    have hnot : ¬ Below target next (target d) x := hac x d hd
    have hd1 : d ∈ next1 x := by rw [hout x hnot]; exact hd
    refine ⟨bring next1 x d, fun z => (bring_reorders hd1 z).trans (hre z), fun z hz => ?_, ?_⟩
    · have hne : z ≠ x := by
        rintro rfl
        exact hz (.refl _)
      rw [bring_of_ne d hne]
      exact hout z fun h => hz (.head hd h)
    · intro seen seen' out hseen hv
      obtain ⟨es, hes⟩ := bring_same next1 x d
      rw [hes] at hv
      have hne : target d ≠ x := fun h => hnot (h ▸ .refl _)
      have hbelow : Below target next (target d) (target e) := Below.trans hyu (below_edge he)
      cases hv with
      | skip hs => exact absurd hs (hseen _ hne (below_edge hd) hbelow)
      | enter _ hin =>
        -- below the edge that is taken first, the order is the one found before
        have hsame (z : α) (hz : Below target next (target d) z) : bring next1 x d z = next1 z :=
          bring_of_ne d fun h => hnot (h ▸ hz)
        have hreb : Reorders (bring next1 x d) next := fun z => (bring_reorders hd1 z).trans (hre z)
        have hin : Visits target next1 _ _ _ _ := hin.congr fun f hf z hz =>
          (hsame z (Below.head ((hreb _).mem_iff.mp hf) (hreb.below.mp hz))).symm
        rw [hsame _ (.refl _)] at hin
        refine mem_append_left _ (hvis _ _ _ (fun z hzne hz hze hmem => ?_) hin)
        rcases mem_cons.mp hmem with rfl | hmem
        · exact hzne rfl
        · exact hseen z (fun h => hnot (h ▸ hz)) (.head hd hz) hze hmem

/-- In some order, a search that takes one of its first edges comes straight to
an edge at or below that one. -/
theorem exists_reorder_first {d : ε} (hac : Acyclic target next)
    (hd : d ∈ es ∨ ∃ e ∈ es, ∃ u, Below target next (target e) u ∧ d ∈ next u) :
    ∃ next', Reorders next' next ∧ ∃ f ∈ es, Below target next (target f) (target d) ∧ ∀ seen seen' rest out,
      (∀ z, Below target next z (target d) → z ∉ seen) → Visits target next' seen (f :: rest) seen' out → d ∈ out := by
  rcases hd with hd | ⟨e, he, u, hu, hd⟩
  · refine ⟨next, fun _ => .refl _, d, hd, .refl _, fun seen seen' rest out hseen hv => ?_⟩
    cases hv with
    | skip hs => exact absurd hs (hseen _ (.refl _))
    | enter => simp
  · obtain ⟨next', hre, -, hvis⟩ := exists_reorder_enters hac hu hd
    have hbelow : Below target next (target e) (target d) := hu.trans (below_edge hd)
    refine ⟨next', hre, e, he, hbelow, fun seen seen' rest out hseen hv => ?_⟩
    cases hv with
    | skip hs => exact absurd hs (hseen _ hbelow)
    | enter _ hin =>
      refine mem_append_left _ (hvis _ _ _ (fun z hz _ hzd hmem => ?_) hin)
      exact hseen z hzd ((mem_cons.mp hmem).resolve_left hz)

end Orders

end Picasso.Lib.Postorder
