import Mathlib.Data.List.AList
import Mathlib.Data.List.Dedup
import Mathlib.Data.List.Nodup
import Mathlib.Data.Nat.Find

namespace Picasso.Lib.Numbering

open List AList

variable {κ β : Type} [DecidableEq κ] {m : AList fun _ : κ => Nat} {ks : List κ} {k k' : κ} {i j : Nat}

theorem lookup_of_mem {γ : Type} [BEq γ] [LawfulBEq γ] {l : List (γ × β)} (hl : (l.map Prod.fst).Nodup) {k : γ} {b : β}
    (hp : (k, b) ∈ l) : l.lookup k = some b := by
  induction l with
  | nil => cases hp
  | cons q l ih =>
    obtain ⟨k', b'⟩ := q
    rw [map_cons, nodup_cons] at hl
    rcases mem_cons.mp hp with heq | hmem
    · cases heq
      exact lookup_cons_self
    · have hne : (k == k') = false := by
        rw [beq_eq_false_iff_ne]
        rintro rfl
        exact hl.1 (mem_map.mpr ⟨_, hmem, rfl⟩)
      rw [lookup_cons, hne]
      exact ih hl.2 hmem

/-- The map gives each key the last place that it has in the list. -/
def LastPlace (m : AList fun _ : κ => Nat) (ks : List κ) : Prop :=
  ∀ k j, m.lookup k = some j ↔ ks[j]? = some k ∧ ∀ i, j < i → ks[i]? ≠ some k

theorem lastPlace_nil : LastPlace (∅ : AList fun _ : κ => Nat) [] := by
  intro k j
  simp

section Places

variable (h : LastPlace m ks)

include h

theorem LastPlace.lt (hk : m.lookup k = some j) : j < ks.length :=
  (List.getElem?_eq_some_iff.mp ((h k j).mp hk).1).1

theorem LastPlace.insert (k : κ) : LastPlace (m.insert k ks.length) (ks ++ [k]) := by
  intro k' j
  by_cases hk : k' = k
  · subst hk
    rw [lookup_insert]
    constructor
    · intro hj
      obtain rfl := Option.some.inj hj
      refine ⟨by simp, fun i hi => ?_⟩
      rw [getElem?_eq_none (by simp; omega)]
      simp
    · rintro ⟨hj, hlast⟩
      have hlt := (List.getElem?_eq_some_iff.mp hj).1
      rw [length_append, length_singleton] at hlt
      have hle : ¬ j < ks.length := fun hlt => hlast ks.length hlt (by simp)
      rw [show j = ks.length by omega]
  · rw [lookup_insert_ne hk, h k' j]
    have hget (i : Nat) : (ks ++ [k])[i]? = some k' ↔ ks[i]? = some k' := by
      rcases Nat.lt_trichotomy i ks.length with hi | rfl | hi
      · rw [getElem?_append_left hi]
      · simp [Ne.symm hk]
      · rw [getElem?_eq_none (by simp; omega), getElem?_eq_none (by omega)]
    simp only [hget, ne_eq]

theorem LastPlace.inj (hk : m.lookup k = some j) (hk' : m.lookup k' = some j) : k = k' :=
  Option.some.inj (((h k j).mp hk).1.symm.trans ((h k' j).mp hk').1)

theorem LastPlace.mem_iff : k ∈ m.keys ↔ k ∈ ks := by
  rw [← AList.mem_keys, ← lookup_isSome, Option.isSome_iff_exists]
  constructor
  · rintro ⟨j, hj⟩
    exact mem_of_getElem? ((h k j).mp hj).1
  · intro hk
    obtain ⟨i, hi⟩ := mem_iff_getElem?.mp hk
    have hle : i ≤ ks.length := Nat.le_of_lt (List.getElem?_eq_some_iff.mp hi).1
    refine ⟨Nat.findGreatest (fun i => ks[i]? = some k) ks.length, (h k _).mpr ⟨?_, fun l hl hget => ?_⟩⟩
    · exact Nat.findGreatest_spec (P := fun i => ks[i]? = some k) hle hi
    · exact Nat.findGreatest_is_greatest hl (Nat.le_of_lt (List.getElem?_eq_some_iff.mp hget).1) hget

theorem LastPlace.lookup_of_nodup (hnd : ks.Nodup) : m.lookup k = some j ↔ ks[j]? = some k := by
  refine (h k j).trans (and_iff_left_of_imp fun hj i hi hget => ?_)
  have hlt := (List.getElem?_eq_some_iff.mp hget).1
  exact absurd ((getElem?_inj hlt hnd).mp (hget.trans hj.symm)) (Nat.ne_of_gt hi)

theorem LastPlace.length : m.entries.length = ks.dedup.length := by
  have hperm : m.keys.Perm ks.dedup :=
    (perm_ext_iff_of_nodup m.keys_nodup ks.nodup_dedup).mpr fun k => by rw [h.mem_iff, mem_dedup]
  rw [← hperm.length_eq, AList.keys, List.keys, length_map]

end Places

theorem range_filterMap (l : List β) : (List.range l.length).filterMap (fun i => l[i]?) = l := by
  induction l with
  | nil => rfl
  | cons a l ih =>
    rw [length_cons, range_succ_eq_map, filterMap_cons, filterMap_map]
    exact congrArg (a :: ·) ih

section Inverse

variable (f : κ → β)

def byPlace (m : AList fun _ : κ => Nat) : AList fun _ : Nat => β :=
  m.entries.foldl (fun acc e => acc.insert e.2 (f e.1)) ∅

variable {f}

omit [DecidableEq κ] in
theorem byPlace_fold {es : List (Sigma fun _ : κ => Nat)} (acc : AList fun _ : Nat => β)
    (hnd : (es.map Sigma.snd).Nodup) (hacc : ∀ e ∈ es, acc.lookup e.2 = none) :
    (∀ j b, (es.foldl (fun acc e => acc.insert e.2 (f e.1)) acc).lookup j = some b ↔
      acc.lookup j = some b ∨ ∃ e ∈ es, e.2 = j ∧ f e.1 = b) ∧
      (es.foldl (fun acc e => acc.insert e.2 (f e.1)) acc).entries.length = acc.entries.length + es.length := by
  induction es generalizing acc with
  | nil => simp
  | cons e es ih =>
    rw [map_cons, nodup_cons] at hnd
    have hnew : acc.lookup e.2 = none := hacc e mem_cons_self
    have hkey : e.2 ∉ acc := by
      intro hmem
      rw [← lookup_isSome, hnew] at hmem
      cases hmem
    obtain ⟨hlookup, hlength⟩ := ih (acc.insert e.2 (f e.1)) hnd.2 fun d hd => by
      have hne : d.2 ≠ e.2 := fun heq => hnd.1 (heq ▸ mem_map_of_mem hd)
      rw [lookup_insert_ne hne]
      exact hacc d (mem_cons_of_mem _ hd)
    rw [foldl_cons]
    refine ⟨fun j b => ?_, ?_⟩
    · rw [hlookup]
      by_cases hj : j = e.2
      · subst hj
        rw [lookup_insert, hnew]
        have hes : ¬ ∃ d ∈ es, d.2 = e.2 ∧ f d.1 = b := by
          rintro ⟨d, hd, hde, -⟩
          exact hnd.1 (hde ▸ mem_map_of_mem hd)
        simp [hes]
      · rw [lookup_insert_ne hj]
        simp [Ne.symm hj]
    · rw [hlength, entries_insert_of_notMem hkey]
      simp only [length_cons]
      omega

theorem LastPlace.byPlace (h : LastPlace m ks) :
    (∀ j b, (byPlace f m).lookup j = some b ↔ ∃ k, m.lookup k = some j ∧ f k = b) ∧
      (Numbering.byPlace f m).entries.length = ks.dedup.length := by
  have hentry (e : Sigma fun _ : κ => Nat) : e ∈ m.entries ↔ m.lookup e.1 = some e.2 := mem_lookup_iff.symm
  have hnd : (m.entries.map Sigma.snd).Nodup := by
    refine (nodup_map_iff_inj_on m.nodupKeys.nodup).mpr fun e he d hd hed => ?_
    rw [hentry] at he hd
    have hkey := h.inj (hed ▸ he) hd
    exact Sigma.ext hkey (heq_of_eq hed)
  obtain ⟨hlookup, hlength⟩ := byPlace_fold (f := f) ∅ hnd fun _ _ => lookup_empty _
  refine ⟨fun j b => ?_, by rw [Numbering.byPlace, hlength, ← h.length]; simp⟩
  rw [Numbering.byPlace, hlookup, lookup_empty]
  constructor
  · rintro (hnone | ⟨e, he, rfl, hb⟩)
    · cases hnone
    · exact ⟨e.1, (hentry e).mp he, hb⟩
  · rintro ⟨k, hk, hb⟩
    exact .inr ⟨⟨k, j⟩, (hentry ⟨k, j⟩).mpr hk, rfl, hb⟩

end Inverse

end Picasso.Lib.Numbering
