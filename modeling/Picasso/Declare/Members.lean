import Picasso.Declare.Runs

namespace Picasso.Declare

open Lexing Parsing Lib.Folds List

variable {ν : Type} {st st' t : State} {k : Bytes} {cls : ClassDeclaration ν} {mc : MetaClass} {pre slots : List Slot}

section Definitions

def memberNames (body : List (Statement ν)) : List Bytes :=
  (fieldsOf body).map Field.name ++ (methodsOf body).map Method.name

/-- Each member of a class has an index of its own in the struct, where its
declared type is. -/
structure LaidOut (st : State) (k : Bytes) (cls : ClassDeclaration ν) (mc : MetaClass) : Prop where
  fields : ∀ f ∈ fieldsOf cls.body, ∃ i type t, mc.fieldIndexMap.lookup (attach k f.name) = some i ∧
    f.explicitType = some type ∧ st.valueType type = .ok t ∧ mc.fields[i]? = some (.value t)
  methods : ∀ m ∈ methodsOf cls.body, ∃ i t, mc.fieldIndexMap.lookup (attach k m.name) = some i ∧
    st.methodType k m = .ok t ∧ mc.fields[i]? = some t
  injective : ∀ x ∈ memberNames cls.body, ∀ y ∈ memberNames cls.body,
    mc.fieldIndexMap.lookup (attach k x) = mc.fieldIndexMap.lookup (attach k y) → x = y

def MethodsApart (body : List (Statement ν)) : Prop :=
  ((methodsOf body).map Method.name).Nodup ∧ ∀ m ∈ methodsOf body, ∀ f ∈ fieldsOf body, f.name ≠ m.name

end Definitions

section Layouts

variable {fs : List Field} {ss : List Slot}

theorem fieldSlots_names (h : List.Forall₂ st.FieldSlot fs ss) : ss.map Slot.name = fs.map Field.name := by
  induction h with
  | nil => rfl
  | cons hs _ ih => rw [map_cons, map_cons, hs.name, ih]

theorem forall₂_partner {α β : Type} {R : α → β → Prop} {l : List α} {l' : List β} (h : Forall₂ R l l') :
    ∀ a ∈ l, ∃ b ∈ l', R a b := by
  induction h with
  | nil => simp
  | cons hs _ ih =>
    intro a ha
    rcases mem_cons.mp ha with rfl | ha
    · exact ⟨_, mem_cons_self, hs⟩
    · obtain ⟨b, hb, hR⟩ := ih a ha
      exact ⟨b, mem_cons_of_mem _ hb, hR⟩

theorem mem_of_findMethod {body : List (Statement ν)} {name : Bytes} {m : Method} (h : findMethod body name = some m) :
    m ∈ methodsOf body :=
  mem_of_find?_eq_some h

variable (h : ClassLayout st k cls mc pre slots)

include h

theorem ClassLayout.fields {f : Field} (hf : f ∈ fieldsOf cls.body) : ∃ s ∈ pre ++ slots, st.FieldSlot f s := by
  obtain ⟨s, hs, hslot⟩ := forall₂_partner h.placed.fields f hf
  exact ⟨s, (mem_filter.mp hs).1, hslot⟩

theorem ClassLayout.field_of_slot {s : Slot} (hs : s ∈ pre ++ slots) (hfield : s.isField = true) :
    ∃ f ∈ fieldsOf cls.body, f.name = s.name := by
  refine mem_map.mp ?_
  rw [← fieldSlots_names h.placed.fields]
  exact mem_map_of_mem (mem_filter.mpr ⟨hs, hfield⟩)

theorem ClassLayout.names_nodup (hapart : ∀ m ∈ methodsOf cls.body, ∀ f ∈ fieldsOf cls.body, f.name ≠ m.name) :
    ((pre ++ slots).map Slot.name).Nodup := by
  have hperm := (filter_append_perm Slot.isField (pre ++ slots)).map Slot.name
  rw [← hperm.nodup_iff, map_append, nodup_append]
  refine ⟨h.placed.fieldNames, h.placed.methodNames, ?_⟩
  rintro _ hfield _ hmethod rfl
  obtain ⟨s', hs', hname⟩ := mem_map.mp hfield
  obtain ⟨hs', hfield⟩ := mem_filter.mp hs'
  obtain ⟨f, hf, hfname⟩ := h.field_of_slot hs' hfield
  obtain ⟨s, hs, hsname⟩ := mem_map.mp hmethod
  obtain ⟨hs, hisField⟩ := mem_filter.mp hs
  obtain ⟨m, hm, hslot⟩ := h.placed.methods s hs (by simpa using hisField)
  exact hapart m (mem_of_findMethod hm) f hf (hfname.trans (hname.trans (hsname.symm.trans hslot.name)))

theorem ClassLayout.slot (hnodup : ((pre ++ slots).map Slot.name).Nodup) {s : Slot} (hs : s ∈ pre ++ slots) :
    ∃ i, mc.fieldIndexMap.lookup (attach k s.name) = some i ∧ mc.fields[i]? = some s.type := by
  obtain ⟨i, hi⟩ := mem_iff_getElem?.mp hs
  have hkeys : ((pre ++ slots).map fun s => attach k s.name).Nodup := by
    rw [show (fun s : Slot => attach k s.name) = attach k ∘ Slot.name from rfl, ← map_map]
    exact hnodup.map fun _ _ => attach_inj.mp
  refine ⟨i, (h.index.lookup_of_nodup hkeys).mpr ?_, ?_⟩
  · rw [getElem?_map, hi]
    rfl
  · rw [h.types, getElem?_map, hi]
    rfl

theorem ClassLayout.last_slot {s : Slot} (hs : s ∈ pre ++ slots) :
    ∃ i, ∃ s' ∈ pre ++ slots, mc.fieldIndexMap.lookup (attach k s.name) = some i ∧ mc.fields[i]? = some s'.type ∧
      s'.name = s.name := by
  have hmem : attach k s.name ∈ mc.fieldIndexMap.keys :=
    h.index.mem_iff.mpr (mem_map.mpr ⟨s, hs, rfl⟩)
  rw [← AList.mem_keys, ← AList.lookup_isSome, Option.isSome_iff_exists] at hmem
  obtain ⟨i, hi⟩ := hmem
  have hplace := ((h.index _ _).mp hi).1
  rw [getElem?_map, Option.map_eq_some_iff] at hplace
  obtain ⟨s', hs', hname⟩ := hplace
  refine ⟨i, s', mem_of_getElem? hs', hi, ?_, attach_inj.mp hname⟩
  rw [h.types, getElem?_map, hs']
  rfl

theorem ClassLayout.laidOut (hapart : MethodsApart cls.body) : LaidOut st k cls mc := by
  have hnodup := h.names_nodup hapart.2
  have hmember (x : Bytes) (hx : x ∈ memberNames cls.body) : ∃ i, mc.fieldIndexMap.lookup (attach k x) = some i := by
    rcases mem_append.mp hx with hx | hx
    · obtain ⟨f, hf, rfl⟩ := mem_map.mp hx
      obtain ⟨s, hs, hslot⟩ := h.fields hf
      obtain ⟨i, hi, -⟩ := h.slot hnodup hs
      exact ⟨i, hslot.name ▸ hi⟩
    · obtain ⟨m, hm, rfl⟩ := mem_map.mp hx
      obtain ⟨s, hs, -, hname⟩ := h.placed.found m hm
      obtain ⟨i, hi, -⟩ := h.slot hnodup hs
      exact ⟨i, hname ▸ hi⟩
  refine ⟨fun f hf => ?_, fun m hm => ?_, fun x hx y hy hxy => ?_⟩
  · obtain ⟨s, hs, hslot⟩ := h.fields hf
    obtain ⟨type, t, htype, ht, hst⟩ := hslot.type
    obtain ⟨i, hi, hfield⟩ := h.slot hnodup hs
    exact ⟨i, type, t, hslot.name ▸ hi, htype, ht, hst ▸ hfield⟩
  · obtain ⟨s, hs, hmethod, hname⟩ := h.placed.found m hm
    obtain ⟨m', hm', hslot⟩ := h.placed.methods s hs hmethod
    obtain rfl : m' = m :=
      inj_on_of_nodup_map hapart.1 (mem_of_findMethod hm') hm (hslot.name.symm.trans hname)
    obtain ⟨i, hi, hfield⟩ := h.slot hnodup hs
    exact ⟨i, s.type, hname ▸ hi, hslot.type, hfield⟩
  · obtain ⟨i, hi⟩ := hmember x hx
    exact attach_inj.mp (h.index.inj hi (hxy ▸ hi))

theorem ClassLayout.memberNames_nodup (hapart : MethodsApart cls.body) : (memberNames cls.body).Nodup := by
  rw [memberNames, nodup_append, ← fieldSlots_names h.placed.fields]
  refine ⟨h.placed.fieldNames, hapart.1, ?_⟩
  rw [fieldSlots_names h.placed.fields]
  rintro _ hfield _ hmethod rfl
  obtain ⟨f, hf, hname⟩ := mem_map.mp hfield
  obtain ⟨m, hm, hmname⟩ := mem_map.mp hmethod
  exact hapart.2 m hm f hf (hname.trans hmname.symm)

end Layouts

theorem methodsApart_of_nodup {body : List (Statement ν)} (h : (memberNames body).Nodup) : MethodsApart body := by
  obtain ⟨-, hmethods, hdisj⟩ := nodup_append.mp h
  refine ⟨hmethods, fun m hm f hf heq => ?_⟩
  exact hdisj _ (mem_map.mpr ⟨f, hf, rfl⟩) _ (mem_map.mpr ⟨m, hm, rfl⟩) heq

theorem LaidOut.scope (h : LaidOut st k cls mc) (hs : SameScope st st') : LaidOut st' k cls mc := by
  refine ⟨?_, ?_, h.injective⟩
  · rw [hs.valueType]
    exact h.fields
  · rw [hs.methodType]
    exact h.methods

/-- The names that are looked up before the bodies of methods are compiled are
never those that are kept. -/
theorem defineClassFuncs_ok (hdot : ∀ m ∈ methodsOf cls.body, 46 ∉ m.name) :
    ∃ avoid, defineClassFuncs k cls = .ok avoid := by
  obtain ⟨avoid, havoid, -⟩ := foldlM_total (f := defineFunc k) (l := methodsOf cls.body) (s := [])
    (I := fun _ avoid => ∀ name ∈ avoid, 46 ∉ name) (fun done m rest avoid hms hI => by
      have hnew : attach k m.name ∉ avoid := fun hmem => hI _ hmem (by simp [attach])
      exact ⟨m.name :: avoid, if_neg hnew, by simpa using ⟨hdot m (by simp [hms]), hI⟩⟩) (by simp)
  exact ⟨avoid, havoid⟩

theorem declare_class {pkg : PackageEntry} {tree : List (Statement ν)} (hwf : st.Wf) (hdot : DotFree tree)
    (h : declare st pkg tree = .ok st') (hc : cls ∈ classDeclarations tree) :
    ∃ t mc mc' pre slots, SameScope t st' ∧ ClassLayout t (attach pkg.name cls.name) cls mc pre slots ∧
      st'.classes.lookup (attach pkg.name cls.name) = some mc' ∧ mc.SameLayout mc' := by
  obtain ⟨s1, s2, s3, s4, s5, hp⟩ := declare_phases h
  obtain ⟨t, hscope, mc, mc', hmeta, hmc', hsame, -⟩ := hp.class hwf hdot hc
  obtain ⟨-, -, pre, slots, hlayout⟩ := classMeta_layout hmeta
  exact ⟨t, mc, mc', pre, slots, hscope, hlayout, hmc', hsame⟩

/-- A class is laid out with its members apart just when none of its methods has
the name of another member; else it is accepted all the same. -/
theorem class_layout_iff {pkg : PackageEntry} {tree : List (Statement ν)} (hwf : st.Wf) (hdot : DotFree tree)
    (h : declare st pkg tree = .ok st') (hc : cls ∈ classDeclarations tree) :
    (∃ avoid, defineClassFuncs (attach pkg.name cls.name) cls = .ok avoid) ∧
      ∃ mc, st'.classes.lookup (attach pkg.name cls.name) = some mc ∧
        ((memberNames cls.body).Nodup ∧ LaidOut st' (attach pkg.name cls.name) cls mc ↔ MethodsApart cls.body) := by
  obtain ⟨t, mc, mc', pre, slots, hscope, hlayout, hmc', hsame⟩ := declare_class hwf hdot h hc
  refine ⟨defineClassFuncs_ok (hdot.2 cls hc), mc', hmc', fun hlaid => methodsApart_of_nodup hlaid.1, fun hapart =>
    ⟨hlayout.memberNames_nodup hapart, ?_⟩⟩
  obtain ⟨hfields, hmethods, hinj⟩ := (hlayout.laidOut hapart).scope hscope
  rw [← hsame.fieldIndexMap] at hfields hmethods hinj
  rw [← hsame.fields] at hfields hmethods
  exact ⟨hfields, hmethods, hinj⟩

def point : List (Statement Empty) := [fieldNode "x" (named "int") false, methodNode "f" [] (some (named "int")) false]

theorem point_laid_out :
    ∃ st' mc, declare initial (package "a") [classNode "P" point ""] = .ok st' ∧ st'.classes.lookup (ascii "a.P") = some mc ∧
      (memberNames point).Nodup ∧ LaidOut st' (ascii "a.P") ⟨ascii "P", point, [], false⟩ mc := by
  obtain ⟨st', h⟩ : ∃ st', declare initial (package "a") [classNode "P" point ""] = .ok st' :=
    exists_of_isOk (by decide +kernel)
  have hdot : DotFree [classNode "P" point ""] := by
    rw [DotFree]
    decide
  obtain ⟨-, mc, hmc, hiff⟩ := class_layout_iff initial_wf hdot h
    (show ⟨ascii "P", point, [], false⟩ ∈ classDeclarations [classNode "P" point ""] from mem_singleton.mpr rfl)
  obtain ⟨hnodup, hlaid⟩ := hiff.mpr (by rw [MethodsApart]; decide)
  exact ⟨st', mc, h, hmc, hnodup, hlaid⟩

/-- A class with two methods `f`, and one with a field and a method `x`. -/
theorem repeated_members : (declare initial (package "a")
        [classNode "P" (methodNode "f" [] none false :: methodNode "f" [] (some (named "int")) false :: point) "",
          classNode "Q" (methodNode "x" [] none false :: point) ""]).isOk = true ∧
      ((declare initial (package "a") [classNode "Q" (methodNode "x" [] none false :: point) ""]).toOption.bind fun st =>
        (st.classes.lookup (ascii "a.Q")).map fun mc =>
          (mc.fields, mc.fieldIndexMap.lookup (ascii "a.Q.x"), mc.fieldIndexMap.lookup (ascii "a.Q.f"))) =
        some ([.func .void [.udt (ascii "a.Q")], .value .i64, .func .i64 [.udt (ascii "a.Q")]], some 1, some 2) ∧
      ¬ (memberNames (methodNode "f" [] none false :: methodNode "f" [] (some (named "int")) false :: point)).Nodup ∧
      ¬ (memberNames (methodNode "x" [] none false :: point)).Nodup := by
  decide +kernel

end Picasso.Declare
