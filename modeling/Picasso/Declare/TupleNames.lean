import Picasso.Declare.State

namespace Picasso.Declare.TupleNames

open Lexing List

/-- A type of a tuple with the name that it is known by. -/
abbrev Field := ValueType × Bytes

def tupleName (fs : List Field) : Bytes := generateTupleName (fs.map Prod.fst) (fs.map Prod.snd)

/-- The structs of `GlobalTypeList` by their names. -/
abbrev Table := Bytes → Option (List ValueType)

/-- A struct that exists under the name stays. -/
def getOrCreateTupleType (table : Table) (fs : List Field) : Table :=
  Function.update table (tupleName fs) (some ((table (tupleName fs)).getD (fs.map Prod.fst)))

def declareTuples (table : Table) (tuples : List (List Field)) : Table := tuples.foldl getOrCreateTupleType table

/-- What a field adds to the name, with the separator behind it. -/
def framed (f : Field) : Bytes := tuplePart f.1 f.2 ++ [95]

/-- Two tuples laid over each other, with the types of the one that ends first, the
types of the other and what the latter has left. A field is added to the first,
which ends within what is left or beyond it. -/
inductive Overlap (S : Field → Prop) : List ValueType → List ValueType → Bytes → Prop
  | start {g : Field} : S g → Overlap S [] [g.1] (framed g)
  | within {us vs : List ValueType} {f : Field} {rest : Bytes} : S f → Overlap S us vs (framed f ++ rest) →
      Overlap S (us ++ [f.1]) vs rest
  | beyond {us vs : List ValueType} {f : Field} {left rest : Bytes} : S f → left ≠ [] → Overlap S us vs left →
      framed f = left ++ rest → Overlap S vs (us ++ [f.1]) rest

/-- Tuples that end together, and nowhere together before, have the same types. -/
def Unambiguous (S : Field → Prop) : Prop := ∀ us vs, Overlap S us vs [] → us = vs

/-- Among the fields `S` it can be seen where the part of one ends and which
type it stands for. -/
def Separated (S : Field → Prop) : Prop :=
  ∀ f, S f → ∀ g, S g → framed f <+: framed g → f.1 = g.1 ∧ framed f = framed g

def Tuple (S : Field → Prop) (fs : List Field) : Prop := fs ≠ [] ∧ ∀ f ∈ fs, S f

variable {S : Field → Prop} {fs gs : List Field} {tuples : List (List Field)} {table : Table} {n : Bytes}

theorem tupleName_concat (hfs : fs ≠ []) : tupleName fs ++ [95] = ascii "tuple_" ++ fs.flatMap framed := by
  rw [tupleName, generateTupleName, zipWith_map, zipWith_self, append_assoc]
  congr 1
  induction fs with
  | nil => exact absurd rfl hfs
  | cons f fs ih =>
    cases fs with
    | nil => simp [framed]
    | cons g fs =>
      rw [flatMap_cons, ← ih (by simp)]
      simp [framed, List.intercalate]

theorem declareTuples_eq : declareTuples table tuples n =
    (table n).or ((tuples.find? fun fs => tupleName fs = n).map (·.map Prod.fst)) := by
  induction tuples generalizing table with
  | nil => simp [declareTuples]
  | cons fs tuples ih =>
    rw [declareTuples, foldl_cons]
    refine ih.trans ?_
    rw [getOrCreateTupleType, Function.update_apply, find?_cons]
    by_cases hn : n = tupleName fs
    · subst hn
      cases table (tupleName fs) <;> simp
    · simp [hn, Ne.symm hn]

section Names

variable {us vs : List ValueType} {rest : Bytes}

theorem framed_ne_nil (f : Field) : framed f ≠ [] := by simp [framed]

theorem eq_nil_of_framed (h : fs.flatMap framed = []) : fs = [] := by
  cases fs with
  | nil => rfl
  | cons f fs => simp [framed] at h

theorem Unambiguous.types_eq (hS : Unambiguous S) (hfs : ∀ f ∈ fs, S f) (hgs : ∀ g ∈ gs, S g) (ho : Overlap S us vs rest)
    (h : fs.flatMap framed = rest ++ gs.flatMap framed) :
    us ++ fs.map Prod.fst = vs ++ gs.map Prod.fst := by
  induction hn : fs.length + gs.length using Nat.strongRecOn generalizing fs gs us vs rest with
  | _ n ih =>
    by_cases hrest : rest = []
    · -- both end here: a new overlap starts with the next field
      subst hrest
      rw [hS us vs ho, append_cancel_left_eq]
      cases gs with
      | nil => rw [eq_nil_of_framed (h.trans rfl)]
      | cons g gs =>
        rw [forall_mem_cons] at hgs
        exact ih _ (by rw [length_cons] at hn; omega) hfs hgs.2 (.start hgs.1) h rfl
    · cases fs with
      | nil => exact absurd (append_eq_nil_iff.mp h.symm).1 hrest
      | cons f fs =>
        rw [forall_mem_cons] at hfs
        rw [flatMap_cons] at h
        rw [length_cons] at hn
        rcases append_eq_append_iff.mp h with ⟨left, rfl, hleft⟩ | ⟨left, hf, hleft⟩
        · have := ih _ (by omega) hfs.2 hgs (.within hfs.1 ho) hleft rfl
          simpa using this
        · have := ih _ (by omega) hgs hfs.2 (.beyond hfs.1 hrest ho hf) hleft rfl
          simpa using this.symm

theorem Overlap.exists_tuples (h : Overlap S us vs rest) : ∃ fs gs : List Field, (∀ f ∈ fs, S f) ∧ (∀ g ∈ gs, S g) ∧
    fs.map Prod.fst = us ∧ gs.map Prod.fst = vs ∧ fs.flatMap framed ++ rest = gs.flatMap framed := by
  induction h with
  | @start g hg => exact ⟨[], [g], by simp, by simpa using hg, rfl, rfl, by simp⟩
  | @within us vs f rest hf _ ih =>
    obtain ⟨fs, gs, hfs, hgs, rfl, rfl, h⟩ := ih
    exact ⟨fs ++ [f], gs, forall_mem_append.mpr ⟨hfs, forall_mem_singleton.mpr hf⟩, hgs, by simp, rfl, by simpa using h⟩
  | @beyond us vs f left rest hf _ _ hframed ih =>
    obtain ⟨fs, gs, hfs, hgs, rfl, rfl, h⟩ := ih
    refine ⟨gs, fs ++ [f], hgs, forall_mem_append.mpr ⟨hfs, forall_mem_singleton.mpr hf⟩, rfl, by simp, ?_⟩
    rw [← h]
    simp [hframed]

theorem tupleName_inj (hfs : fs ≠ []) (hgs : gs ≠ []) :
    tupleName fs = tupleName gs ↔ fs.flatMap framed = gs.flatMap framed := by
  rw [← append_left_inj [95], tupleName_concat hfs, tupleName_concat hgs, append_cancel_left_eq]

theorem name_inj_iff : (∀ fs gs, Tuple S fs → Tuple S gs → tupleName fs = tupleName gs →
    fs.map Prod.fst = gs.map Prod.fst) ↔ Unambiguous S := by
  constructor
  · intro hinj us vs ho
    obtain ⟨fs, gs, hfs, hgs, rfl, rfl, h⟩ := ho.exists_tuples
    rw [append_nil] at h
    by_cases hnil : fs = []
    · subst hnil
      rw [eq_nil_of_framed h.symm]
    · have hnil' : gs ≠ [] := fun hgs => hnil (eq_nil_of_framed (by rw [h, hgs]; rfl))
      exact hinj fs gs ⟨hnil, hfs⟩ ⟨hnil', hgs⟩ ((tupleName_inj hnil hnil').mpr h)
  · intro hS fs gs hfs hgs hname
    rw [tupleName_inj hfs.1 hgs.1] at hname
    cases gs with
    | nil => exact absurd rfl hgs.1
    | cons g gs =>
      have hmem := forall_mem_cons.mp hgs.2
      exact hS.types_eq hfs.2 hmem.2 (.start hmem.1) hname

/-- Each tuple finds its own struct. -/
def Found (tuples : List (List Field)) : Prop :=
  ∀ fs ∈ tuples, declareTuples (fun _ => none) tuples (tupleName fs) = some (fs.map Prod.fst)

theorem declareTuples_found (hfs : fs ∈ tuples) : ∃ gs ∈ tuples, tupleName gs = tupleName fs ∧
    declareTuples (fun _ => none) tuples (tupleName fs) = some (gs.map Prod.fst) := by
  obtain ⟨gs, hgs⟩ : ∃ gs, tuples.find? (fun gs => tupleName gs = tupleName fs) = some gs := by
    rw [← Option.isSome_iff_exists, find?_isSome]
    exact ⟨fs, hfs, by simp⟩
  refine ⟨gs, mem_of_find?_eq_some hgs, by simpa using find?_some hgs, ?_⟩
  rw [declareTuples_eq, hgs]
  rfl

/-- The name of a tuple gives the number of its fields and their types, and each
tuple finds its own struct, just when the fields are unambiguous. -/
theorem tuple_names : ((∀ fs gs, Tuple S fs → Tuple S gs → tupleName fs = tupleName gs →
      fs.length = gs.length ∧ fs.map Prod.fst = gs.map Prod.fst) ∧
    ∀ tuples, (∀ fs ∈ tuples, Tuple S fs) → Found tuples) ↔ Unambiguous S := by
  rw [← name_inj_iff]
  constructor
  · exact fun h fs gs hfs hgs hname => (h.1 fs gs hfs hgs hname).2
  · refine fun h => ⟨fun fs gs hfs hgs hname => ?_, fun tuples hall fs hfs => ?_⟩
    · have htypes := h fs gs hfs hgs hname
      exact ⟨by simpa using congrArg List.length htypes, htypes⟩
    · obtain ⟨gs, hgs, hname, hfound⟩ := declareTuples_found hfs
      rw [hfound, h gs fs (hall gs hgs) (hall fs hfs) hname]

/-- An overlap of separated fields ends with the first field that is added. -/
theorem Separated.unambiguous (hS : Separated S) : Unambiguous S := by
  have hcases {us vs : List ValueType} {rest : Bytes} (h : Overlap S us vs rest) :
      rest = [] ∧ us = vs ∨ ∃ g, S g ∧ us = [] ∧ vs = [g.1] ∧ rest = framed g := by
    induction h with
    | @start g hg => exact .inr ⟨g, hg, rfl, rfl, rfl⟩
    | @within us vs f rest hf _ ih =>
      rcases ih with ⟨hnil, -⟩ | ⟨g, hg, rfl, rfl, hrest⟩
      · exact absurd (append_eq_nil_iff.mp hnil).1 (framed_ne_nil f)
      · obtain ⟨htype, hframed⟩ := hS f hf g hg ⟨rest, hrest⟩
        exact .inl ⟨by simpa [hframed] using hrest, by simp [htype]⟩
    | @beyond us vs f left rest hf hleft _ hframed ih =>
      rcases ih with ⟨hnil, -⟩ | ⟨g, hg, rfl, rfl, rfl⟩
      · exact absurd hnil hleft
      · obtain ⟨htype, heq⟩ := hS g hg f hf ⟨rest, hframed.symm⟩
        exact .inl ⟨by simpa [heq] using hframed, by simp [htype]⟩
  intro us vs h
  rcases hcases h with ⟨-, heq⟩ | ⟨g, -, -, -, hnil⟩
  · exact heq
  · exact absurd hnil.symm (framed_ne_nil g)

end Names

def cls (name : String) : Field := (.udt (ascii name), ascii name)

def int : Field := (.i64, ascii "int")

/-- Two classes and a number. -/
theorem tuple_names_classes :
    declareTuples (fun _ => none) [[cls "m.A", int], [cls "m.B", int]] (tupleName [cls "m.B", int]) =
      some [.udt (ascii "m.B"), .i64] := by
  have hS : Separated (· ∈ [cls "m.A", cls "m.B", int]) := by
    unfold Separated
    decide
  refine (tuple_names.mpr hS.unambiguous).2 _ ?_ _ (by decide)
  unfold Tuple
  decide

/-- With classes `A` and `A_i64` a tuple of three finds the struct of one of two. -/
theorem tuple_names_collide : tupleName [cls "m.A_i64", int] = tupleName [cls "m.A", int, int] ∧
    declareTuples (fun _ => none) [[cls "m.A_i64", int], [cls "m.A", int, int]] (tupleName [cls "m.A", int, int]) =
      some [.udt (ascii "m.A_i64"), .i64] := ⟨by decide, by decide⟩

end Picasso.Declare.TupleNames
