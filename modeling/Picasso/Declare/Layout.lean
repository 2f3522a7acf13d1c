import Picasso.Declare.Define
import Picasso.Lib.Numbering

namespace Picasso.Declare

open Lexing Parsing Build Lib.Folds Lib.Numbering List

attribute [local simp] ClassFields.next ClassFields.place

variable {ν : Type} {st : State} {fqName : Bytes} {b b' : ClassFields} {body done : List (Statement ν)}

section Fields

structure Field where
  name : Bytes
  explicitType : Option TypeName
  isInternal : Bool

def fieldsIn : Statement ν → List Field
  | .variableDeclaration _ identifier _ explicitType _ isInternal => [⟨identifier, explicitType, isInternal⟩]
  | .variableDeclarations _ identifiers explicitTypes _ _ isInternal =>
    identifiers.zipIdx.map fun e => ⟨e.1, explicitTypes[e.2]?.join, isInternal⟩
  | _ => []

def fieldsOf (body : List (Statement ν)) : List Field := body.flatMap fieldsIn

theorem fieldsOf_next (done : List (Statement ν)) (stmt : Statement ν) :
    fieldsOf (done ++ [stmt]) = fieldsOf done ++ fieldsIn stmt := by
  simp [fieldsOf]

theorem methodsOf_next (done : List (Statement ν)) (stmt : Statement ν) :
    methodsOf (done ++ [stmt]) = methodsOf done ++ (method? stmt).toList := by
  cases hm : method? stmt <;> simp [methodsOf, hm]

def nextField (st : State) (fqName : Bytes) (b : ClassFields) (f : Field) : Except Abort ClassFields := do
  let b ← defineField st fqName b f.name f.explicitType f.isInternal
  .ok b.next

def nextMethod (st : State) (fqName : Bytes) (b : ClassFields) (m : Method) : Except Abort ClassFields := do
  let b ← defineMethod st fqName b m
  .ok b.next

variable {stmt : Statement ν}

theorem defineMember_fields (hm : method? stmt = none) (h : defineMember st fqName b stmt = .ok b') :
    (fieldsIn stmt).foldlM (nextField st fqName) b = .ok b' := by
  cases stmt with
  | variableDeclaration loc identifier assignedValue explicitType isStatic isInternal =>
    obtain ⟨b1, h1, h2⟩ := bind_eq_ok h
    change (nextField st fqName b ⟨identifier, explicitType, isInternal⟩ >>= pure) = _
    rw [nextField, h1]
    exact h2
  | variableDeclarations loc identifiers explicitTypes assignedValues isStatic isInternal =>
    rw [defineMember] at h
    rw [fieldsIn, foldlM_map]
    generalize identifiers.zipIdx = es at h ⊢
    induction es generalizing b with
    | nil => exact h
    | cons e es ih =>
      obtain ⟨b1, h1, h2⟩ := foldlM_cons_ok h
      obtain ⟨identifier, j⟩ := e
      dsimp only at h1
      split at h1
      · cases h1
      · next type htype =>
        rw [foldlM_cons, htype]
        change (nextField st fqName b ⟨identifier, type, isInternal⟩ >>= _) = _
        rw [show nextField st fqName b ⟨identifier, type, isInternal⟩ = .ok b1 from h1]
        exact ih h2
  | functionDefinition => cases hm
  | _ => exact h

theorem fieldsIn_method {m : Method} (hm : method? stmt = some m) : fieldsIn stmt = [] := by
  cases stmt with
  | functionDefinition => rfl
  | _ => cases hm

theorem defineMember_method {m : Method} (hm : method? stmt = some m) :
    defineMember st fqName b stmt = if attach fqName m.name ∈ b.funcs then .ok b else nextMethod st fqName b m := by
  cases stmt with
  | functionDefinition loc parameters name body hash returnType isStatic isInternal =>
    cases hm
    rfl
  | _ => cases hm

end Fields

section Slots

structure Slot where
  isField : Bool
  name : Bytes
  type : FieldType
  isInternal : Bool

structure Laid (fqName : Bytes) (b : ClassFields) (slots : List Slot) : Prop where
  types : b.fieldTypes = slots.map Slot.type
  next : b.i = slots.length
  index : LastPlace b.clsMeta.fieldIndexMap (slots.map fun s => attach fqName s.name)
  vars : ∀ name, attach fqName name ∈ b.vars ↔ ∃ s ∈ slots, s.isField = true ∧ s.name = name
  funcs : ∀ name, attach fqName name ∈ b.funcs ↔ ∃ s ∈ slots, s.isField = false ∧ s.name = name
  varAST : ∀ name, (b.clsMeta.varAST.lookup (attach fqName name)).isSome ↔
    ∃ s ∈ slots, s.isField = true ∧ s.name = name
  internal : ∀ name, attach fqName name ∈ b.clsMeta.internalFields ↔ ∃ s ∈ slots, s.isInternal = true ∧ s.name = name

variable {slots : List Slot}

theorem laid_nil (fqName implements : Bytes) (internal : Bool) :
    Laid fqName ⟨newMetaClass implements internal, [], 0, [], []⟩ [] :=
  ⟨rfl, rfl, lastPlace_nil, by simp, by simp, by simp [newMetaClass], by simp [newMetaClass]⟩

theorem exists_mem_next {p : Slot → Prop} {s : Slot} : (∃ t ∈ slots ++ [s], p t) ↔ p s ∨ ∃ t ∈ slots, p t := by
  simp only [mem_append, mem_singleton, or_and_right, exists_or, exists_eq_left]
  exact or_comm

theorem Laid.index_place (hb : Laid fqName b slots) (s : Slot) :
    LastPlace (b.place (attach fqName s.name) s.isInternal s.type).clsMeta.fieldIndexMap
      ((slots ++ [s]).map fun s => attach fqName s.name) := by
  have := hb.index.insert (attach fqName s.name)
  rw [length_map, ← hb.next] at this
  rwa [map_append]

theorem Laid.internal_place {name : Bytes} (hb : Laid fqName b slots) (s : Slot) :
    attach fqName name ∈ (b.place (attach fqName s.name) s.isInternal s.type).clsMeta.internalFields ↔
      ∃ t ∈ slots ++ [s], t.isInternal = true ∧ t.name = name := by
  rw [exists_mem_next, ← hb.internal, ClassFields.place]
  dsimp only
  split
  · next hs => simp [attach_inj, hs, eq_comm]
  · next hs => simp [hs]

structure State.FieldSlot (st : State) (f : Field) (s : Slot) : Prop where
  isField : s.isField = true
  name : s.name = f.name
  isInternal : s.isInternal = f.isInternal
  type : ∃ type t, f.explicitType = some type ∧ st.valueType type = .ok t ∧ s.type = .value t

structure State.MethodSlot (st : State) (fqName : Bytes) (m : Method) (s : Slot) : Prop where
  isField : s.isField = false
  name : s.name = m.name
  isInternal : s.isInternal = m.isInternal
  type : st.methodType fqName m = .ok s.type

theorem nextField_laid {f : Field} (hb : Laid fqName b slots) (h : nextField st fqName b f = .ok b') :
    (∀ s ∈ slots, s.isField = true → s.name ≠ f.name) ∧ ∃ s, st.FieldSlot f s ∧ Laid fqName b' (slots ++ [s]) := by
  obtain ⟨b1, h1, h2⟩ := bind_eq_ok h
  cases h2
  rw [defineField.eq_def] at h1
  dsimp only at h1
  split at h1
  · cases h1
  · next hvar =>
    split at h1
    · cases h1
    · next type htype =>
      obtain ⟨t, ht, h1⟩ := bind_eq_ok h1
      obtain ⟨eleTypes, -, h1⟩ := bind_eq_ok h1
      cases h1
      refine ⟨fun s hs hfield hname => hvar ((hb.vars f.name).mpr ⟨s, hs, hfield, hname⟩),
        ⟨true, f.name, .value t, f.isInternal⟩, ⟨rfl, rfl, rfl, type, t, htype, ht, rfl⟩,
        ?_, ?_, hb.index_place ⟨true, f.name, .value t, f.isInternal⟩, ?_, ?_, ?_,
        fun name => hb.internal_place ⟨true, f.name, .value t, f.isInternal⟩⟩
      · simp [hb.types]
      · simp [hb.next]
      · intro name
        rw [exists_mem_next, ← hb.vars]
        simp [attach_inj, @eq_comm _ name]
      · intro name
        rw [exists_mem_next, ← hb.funcs]
        simp
      · intro name
        rw [exists_mem_next, ← hb.varAST]
        by_cases hname : name = f.name
        · subst hname
          simp
        · have hne : attach fqName name ≠ attach fqName f.name := fun heq => hname (attach_inj.mp heq)
          simp [AList.lookup_insert_ne hne, Ne.symm hname]

theorem nextMethod_laid {m : Method} (hb : Laid fqName b slots) (h : nextMethod st fqName b m = .ok b') :
    (∀ s ∈ slots, s.isField = false → s.name ≠ m.name) ∧
      ∃ s, st.MethodSlot fqName m s ∧ Laid fqName b' (slots ++ [s]) := by
  obtain ⟨b1, h1, h2⟩ := bind_eq_ok h
  cases h2
  rw [defineMethod] at h1
  dsimp only at h1
  split at h1
  · cases h1
  · next hfunc =>
    obtain ⟨t, ht, h1⟩ := bind_eq_ok h1
    cases h1
    refine ⟨fun s hs hfield hname => hfunc ((hb.funcs m.name).mpr ⟨s, hs, hfield, hname⟩),
      ⟨false, m.name, t, m.isInternal⟩, ⟨rfl, rfl, rfl, ht⟩,
      ?_, ?_, hb.index_place ⟨false, m.name, t, m.isInternal⟩, ?_, ?_, ?_,
      fun name => hb.internal_place ⟨false, m.name, t, m.isInternal⟩⟩
    · simp [hb.types]
    · simp [hb.next]
    · intro name
      rw [exists_mem_next, ← hb.vars]
      simp
    · intro name
      rw [exists_mem_next, ← hb.funcs]
      simp [attach_inj, @eq_comm _ name]
    · intro name
      rw [exists_mem_next, ← hb.varAST]
      simp

end Slots

section Members

variable {slots pre : List Slot} {fs : List Field} {ms : List Method} {f : Field} {m : Method} {s : Slot}

/-- The slots are those of the given fields, in their order, and of methods, the
given ones among them, each name once and as it is found in the body. -/
structure Placed (st : State) (fqName : Bytes) (body : List (Statement ν)) (fs : List Field) (ms : List Method)
    (slots : List Slot) : Prop where
  fields : List.Forall₂ st.FieldSlot fs (slots.filter Slot.isField)
  fieldNames : ((slots.filter Slot.isField).map Slot.name).Nodup
  methods : ∀ s ∈ slots, s.isField = false → ∃ m, findMethod body s.name = some m ∧ st.MethodSlot fqName m s
  methodNames : ((slots.filter fun s => !s.isField).map Slot.name).Nodup
  found : ∀ m ∈ ms, ∃ s ∈ slots, s.isField = false ∧ s.name = m.name

theorem placed_nil : Placed st fqName body [] [] [] :=
  ⟨.nil, nodup_nil, by simp, nodup_nil, by simp⟩

variable {name : Bytes} {rest : List (Statement ν)} {stmt : Statement ν}

theorem nodup_next {l : List Slot} (hl : (l.map Slot.name).Nodup) (hnew : ∀ t ∈ l, t.name ≠ name) (hs : s.name = name) :
    ((l ++ [s]).map Slot.name).Nodup := by
  rw [map_append, nodup_append]
  refine ⟨hl, nodup_singleton _, ?_⟩
  rintro _ hname _ hlast rfl
  obtain ⟨t, ht, hts⟩ := mem_map.mp hname
  exact hnew t ht (hts.trans ((mem_singleton.mp hlast).trans hs))

theorem Placed.field (hp : Placed st fqName body fs ms slots) (hs : st.FieldSlot f s)
    (hnew : ∀ t ∈ slots, t.isField = true → t.name ≠ f.name) : Placed st fqName body (fs ++ [f]) ms (slots ++ [s]) := by
  have hfilter : (slots ++ [s]).filter Slot.isField = slots.filter Slot.isField ++ [s] := by
    rw [filter_append, filter_cons, if_pos hs.isField, filter_nil]
  refine ⟨?_, ?_, fun t ht hfield => ?_, ?_, fun m hm => ?_⟩
  · rw [hfilter]
    exact rel_append hp.fields (.cons hs .nil)
  · rw [hfilter]
    refine nodup_next hp.fieldNames (fun t ht => ?_) hs.name
    exact hnew t (mem_filter.mp ht).1 (mem_filter.mp ht).2
  · rcases mem_append.mp ht with ht | ht
    · exact hp.methods t ht hfield
    · rw [mem_singleton.mp ht, hs.isField] at hfield
      cases hfield
  · rw [filter_append, filter_cons, hs.isField]
    simpa using hp.methodNames
  · obtain ⟨t, ht, hmt⟩ := hp.found m hm
    exact ⟨t, mem_append_left _ ht, hmt⟩

theorem Placed.method (hp : Placed st fqName body fs ms slots) (hm : findMethod body m.name = some m)
    (hs : st.MethodSlot fqName m s) (hnew : ∀ t ∈ slots, t.isField = false → t.name ≠ m.name) :
    Placed st fqName body fs (ms ++ [m]) (slots ++ [s]) := by
  have hfilter : (slots ++ [s]).filter (fun s => !s.isField) = slots.filter (fun s => !s.isField) ++ [s] := by
    rw [filter_append, filter_cons, if_pos (by simp [hs.isField]), filter_nil]
  refine ⟨?_, ?_, fun t ht hfield => ?_, ?_, fun m' hm' => ?_⟩
  · rw [filter_append, filter_cons, hs.isField]
    simpa using hp.fields
  · rw [filter_append, filter_cons, hs.isField]
    simpa using hp.fieldNames
  · rcases mem_append.mp ht with ht | ht
    · exact hp.methods t ht hfield
    · rw [mem_singleton.mp ht]
      exact ⟨m, hs.name ▸ hm, hs⟩
  · rw [hfilter]
    refine nodup_next hp.methodNames (fun t ht => ?_) hs.name
    exact hnew t (mem_filter.mp ht).1 (by simpa using (mem_filter.mp ht).2)
  · rcases mem_append.mp hm' with hm' | hm'
    · obtain ⟨t, ht, hmt⟩ := hp.found m' hm'
      exact ⟨t, mem_append_left _ ht, hmt⟩
    · rw [mem_singleton.mp hm']
      exact ⟨s, by simp, hs.isField, hs.name⟩

theorem Placed.skip (hp : Placed st fqName body fs ms slots)
    (hm : ∃ s ∈ slots, s.isField = false ∧ s.name = m.name) : Placed st fqName body fs (ms ++ [m]) slots := by
  refine { hp with found := fun m' hm' => ?_ }
  rcases mem_append.mp hm' with hm' | hm'
  · exact hp.found m' hm'
  · rwa [mem_singleton.mp hm']

/-- A class whose members are being defined: the slots in front are those of the
methods of its interface. -/
def Partly (st : State) (fqName : Bytes) (body : List (Statement ν)) (pre : List Slot) (fs : List Field)
    (ms : List Method) (b : ClassFields) : Prop :=
  ∃ slots, Laid fqName b (pre ++ slots) ∧ Placed st fqName body fs ms (pre ++ slots)

theorem Partly.fields {fs' : List Field} (hb : Partly st fqName body pre fs ms b)
    (h : fs'.foldlM (nextField st fqName) b = .ok b') : Partly st fqName body pre (fs ++ fs') ms b' := by
  refine foldlM_done (I := fun done b => Partly st fqName body pre (fs ++ done) ms b)
    (fun done f rest b b' _ hb h => ?_) h (by rwa [append_nil])
  obtain ⟨slots, hlaid, hplaced⟩ := hb
  obtain ⟨hnew, s, hs, hlaid'⟩ := nextField_laid hlaid h
  refine ⟨slots ++ [s], ?_, ?_⟩
  · rwa [← append_assoc]
  · rw [← append_assoc, ← append_assoc]
    exact hplaced.field hs hnew

theorem findMethod_eq (hbody : body = done ++ stmt :: rest) (hm : method? stmt = some m)
    (hnew : ∀ m' ∈ methodsOf done, m'.name ≠ m.name) : findMethod body m.name = some m := by
  have hnone : (methodsOf done).find? (fun m' => m'.name = m.name) = none := by
    simpa using hnew
  rw [findMethod, hbody, methodsOf, filterMap_append, filterMap_cons, hm, find?_append]
  rw [methodsOf] at hnone
  rw [hnone]
  simp

theorem Partly.member (hbody : body = done ++ stmt :: rest)
    (hb : Partly st fqName body pre (fieldsOf done) (methodsOf done) b) (h : defineMember st fqName b stmt = .ok b') :
    Partly st fqName body pre (fieldsOf (done ++ [stmt])) (methodsOf (done ++ [stmt])) b' := by
  rw [fieldsOf_next, methodsOf_next]
  cases hm : method? stmt with
  | none =>
    rw [Option.toList_none, append_nil]
    exact hb.fields (defineMember_fields hm h)
  | some m =>
    rw [Option.toList_some, fieldsIn_method hm, append_nil]
    rw [defineMember_method hm] at h
    obtain ⟨slots, hlaid, hplaced⟩ := hb
    split at h
    · next hfunc =>
      cases h
      exact ⟨slots, hlaid, hplaced.skip ((hlaid.funcs m.name).mp hfunc)⟩
    · next hfunc =>
      obtain ⟨hnew, s, hs, hlaid'⟩ := nextMethod_laid hlaid h
      refine ⟨slots ++ [s], by rwa [← append_assoc], ?_⟩
      rw [← append_assoc]
      refine hplaced.method (findMethod_eq hbody hm fun m' hm' heq => ?_) hs hnew
      obtain ⟨t, ht, hmethod, hname⟩ := hplaced.found m' hm'
      exact hnew t ht hmethod (hname.trans heq)

theorem findMethod_name (h : findMethod body name = some m) : m.name = name := by
  simpa using find?_some h

end Members

section Classes

variable {cls : ClassDeclaration ν} {mc mc' : MetaClass} {interfaceMeta : MetaInterface}
  {byIndex : AList fun _ : Nat => Bytes} {pre slots : List Slot}

def Implemented (st : State) (fqName : Bytes) (cls : ClassDeclaration ν) (interfaceMeta : MetaInterface)
    (methodName : Bytes) : Prop :=
  ∃ m, findMethod cls.body methodName = some m ∧
    validateInterfaceMethodSignature st fqName methodName m interfaceMeta = .ok ()

/-- The slots in front are those of the methods that the interface has at the
given indices. -/
structure Front (st : State) (fqName : Bytes) (cls : ClassDeclaration ν) (interfaceMeta : MetaInterface)
    (methodNames : List Bytes) (pre : List Slot) : Prop where
  names : pre.map Slot.name = methodNames
  isField : ∀ s ∈ pre, s.isField = false
  implemented : ∀ name ∈ methodNames, Implemented st fqName cls interfaceMeta name

theorem defineInterfaceSlot_cases {idx : Nat}
    (h : defineInterfaceSlot st fqName cls interfaceMeta byIndex b idx = .ok b') :
    (byIndex.lookup idx = none ∧ b' = b) ∨ ∃ name m, byIndex.lookup idx = some name ∧
      findMethod cls.body name = some m ∧
      validateInterfaceMethodSignature st fqName name m interfaceMeta = .ok () ∧ nextMethod st fqName b m = .ok b' := by
  rw [defineInterfaceSlot] at h
  split at h
  · next hnone =>
    cases h
    exact .inl ⟨hnone, rfl⟩
  · next name hname =>
    split at h
    · cases h
    · next m hm =>
      obtain ⟨⟨⟩, hvalid, h⟩ := bind_eq_ok h
      exact .inr ⟨name, m, hname, hm, hvalid, h⟩

theorem defineInterfaceSlots_laid {idxs : List Nat} (hb : Laid fqName b [])
    (h : idxs.foldlM (defineInterfaceSlot st fqName cls interfaceMeta byIndex) b = .ok b') :
    ∃ pre, Laid fqName b' pre ∧ Placed st fqName cls.body [] [] pre ∧
      Front st fqName cls interfaceMeta (idxs.filterMap byIndex.lookup) pre := by
  refine foldlM_done (I := fun done b => ∃ pre, Laid fqName b pre ∧ Placed st fqName cls.body [] [] pre ∧
    Front st fqName cls interfaceMeta (done.filterMap byIndex.lookup) pre) (fun done idx rest b b' _ hb h => ?_) h
    ⟨[], hb, placed_nil, rfl, by simp, by simp⟩
  obtain ⟨pre, hlaid, hplaced, hfront⟩ := hb
  obtain ⟨hnone, rfl⟩ | ⟨name, m, hname, hm, hvalid, h⟩ := defineInterfaceSlot_cases h
  · exact ⟨pre, hlaid, hplaced, by simpa [hnone] using hfront⟩
  · have hmname := findMethod_name hm
    obtain ⟨hnew, s, hs, hlaid'⟩ := nextMethod_laid hlaid h
    have hplaced' := hplaced.method (hmname ▸ hm) hs hnew
    refine ⟨pre ++ [s], hlaid', { hplaced' with found := by simp }, ?_, ?_, ?_⟩
    · simp [hfront.names, hname, hs.name, hmname]
    · intro t ht
      rcases mem_append.mp ht with ht | ht
      · exact hfront.isField t ht
      · rw [mem_singleton.mp ht, hs.isField]
    · intro name' hname'
      rw [filterMap_append] at hname'
      rcases mem_append.mp hname' with hname' | hname'
      · exact hfront.implemented name' hname'
      · simp only [filterMap_cons, hname, filterMap_nil, mem_singleton] at hname'
        exact hname' ▸ ⟨m, hm, hvalid⟩

structure ClassLayout (st : State) (fqName : Bytes) (cls : ClassDeclaration ν) (mc : MetaClass)
    (pre slots : List Slot) : Prop where
  types : mc.fields = (pre ++ slots).map Slot.type
  index : LastPlace mc.fieldIndexMap ((pre ++ slots).map fun s => attach fqName s.name)
  varAST : ∀ name, (mc.varAST.lookup (attach fqName name)).isSome ↔
    ∃ s ∈ pre ++ slots, s.isField = true ∧ s.name = name
  internal : ∀ name, attach fqName name ∈ mc.internalFields ↔
    ∃ s ∈ pre ++ slots, s.isInternal = true ∧ s.name = name
  placed : Placed st fqName cls.body (fieldsOf cls.body) (methodsOf cls.body) (pre ++ slots)
  isField : ∀ s ∈ pre, s.isField = false
  front : ∀ interfaceClassMeta interfaceMeta, mc.implements ≠ [] →
    st.classes.lookup mc.implements = some interfaceClassMeta →
    st.interfaces.lookup mc.implements = some interfaceMeta →
    let byIndex := interfaceMethodsByIndex interfaceClassMeta.fieldIndexMap
    Front st fqName cls interfaceMeta ((List.range byIndex.entries.length).filterMap byIndex.lookup) pre

structure MetaClass.Keeps (mc mc' : MetaClass) : Prop where
  methods : mc'.methods = mc.methods
  methodArgs : mc'.methodArgs = mc.methodArgs
  returns : mc'.returns = mc.returns
  implements : mc'.implements = mc.implements
  internal : mc'.internal = mc.internal

theorem MetaClass.Keeps.refl (mc : MetaClass) : mc.Keeps mc := ⟨rfl, rfl, rfl, rfl, rfl⟩

theorem MetaClass.Keeps.trans {mc'' : MetaClass} (h : mc.Keeps mc') (h' : mc'.Keeps mc'') : mc.Keeps mc'' :=
  ⟨h'.1.trans h.1, h'.2.trans h.2, h'.3.trans h.3, h'.4.trans h.4, h'.5.trans h.5⟩

theorem nextField_keeps {f : Field} (h : nextField st fqName b f = .ok b') : b.clsMeta.Keeps b'.clsMeta := by
  obtain ⟨b1, h1, h2⟩ := bind_eq_ok h
  cases h2
  rw [defineField.eq_def] at h1
  dsimp only at h1
  split at h1
  · cases h1
  · split at h1
    · cases h1
    · obtain ⟨t, -, h1⟩ := bind_eq_ok h1
      obtain ⟨eleTypes, -, h1⟩ := bind_eq_ok h1
      cases h1
      exact ⟨rfl, rfl, rfl, rfl, rfl⟩

theorem nextMethod_keeps {m : Method} (h : nextMethod st fqName b m = .ok b') : b.clsMeta.Keeps b'.clsMeta := by
  obtain ⟨b1, h1, h2⟩ := bind_eq_ok h
  cases h2
  rw [defineMethod] at h1
  dsimp only at h1
  split at h1
  · cases h1
  · obtain ⟨t, -, h1⟩ := bind_eq_ok h1
    cases h1
    exact ⟨rfl, rfl, rfl, rfl, rfl⟩

theorem defineMember_keeps {stmt : Statement ν} (h : defineMember st fqName b stmt = .ok b') :
    b.clsMeta.Keeps b'.clsMeta := by
  cases hm : method? stmt with
  | none =>
    exact foldlM_rel (R := fun b b' => b.clsMeta.Keeps b'.clsMeta) (fun b => .refl b.clsMeta)
      (fun _ _ _ => .trans) (fun _ _ _ _ => nextField_keeps) (defineMember_fields hm h)
  | some m =>
    rw [defineMember_method hm] at h
    split at h
    · cases h
      exact .refl _
    · exact nextMethod_keeps h

theorem defineInterfaceMethods_cases (h : defineInterfaceMethods st fqName cls b = .ok b') :
    ((b.clsMeta.implements = [] ∨ st.classes.lookup b.clsMeta.implements = none ∨
        st.interfaces.lookup b.clsMeta.implements = none) ∧ b' = b) ∨
      ∃ interfaceClassMeta interfaceMeta, st.classes.lookup b.clsMeta.implements = some interfaceClassMeta ∧
        st.interfaces.lookup b.clsMeta.implements = some interfaceMeta ∧
        let byIndex := interfaceMethodsByIndex interfaceClassMeta.fieldIndexMap
        (List.range byIndex.entries.length).foldlM (defineInterfaceSlot st fqName cls interfaceMeta byIndex) b =
          .ok b' := by
  rw [defineInterfaceMethods] at h
  split at h
  · next hempty =>
    cases h
    exact .inl ⟨.inl hempty, rfl⟩
  · split at h
    · next interfaceClassMeta interfaceMeta hclass hinterface =>
      exact .inr ⟨interfaceClassMeta, interfaceMeta, hclass, hinterface, h⟩
    · next hnone =>
      cases h
      refine .inl ⟨.inr ?_, rfl⟩
      cases hc : st.classes.lookup b.clsMeta.implements with
      | none => exact .inl rfl
      | some mc =>
        cases hi : st.interfaces.lookup b.clsMeta.implements with
        | none => exact .inr rfl
        | some mi => exact absurd hi (hnone mc mi hc)

theorem defineInterfaceMethods_keeps (h : defineInterfaceMethods st fqName cls b = .ok b') :
    b.clsMeta.Keeps b'.clsMeta := by
  obtain ⟨-, rfl⟩ | ⟨interfaceClassMeta, interfaceMeta, -, -, h⟩ := defineInterfaceMethods_cases h
  · exact .refl _
  · refine foldlM_rel (R := fun b b' => b.clsMeta.Keeps b'.clsMeta) (fun b => .refl b.clsMeta) (fun _ _ _ => .trans)
      (fun b idx _ b' h => ?_) h
    obtain ⟨-, rfl⟩ | ⟨name, m, -, -, -, h⟩ := defineInterfaceSlot_cases h
    · exact .refl _
    · exact nextMethod_keeps h

theorem classMeta_keeps (h : classMeta st fqName cls mc = .ok mc') : mc.Keeps mc' := by
  obtain ⟨b1, h1, h⟩ := bind_eq_ok h
  obtain ⟨b2, h2, h⟩ := bind_eq_ok h
  cases h
  have hfirst := defineInterfaceMethods_keeps h1
  have hrest := foldlM_rel (R := fun b b' => b.clsMeta.Keeps b'.clsMeta) (fun b => .refl b.clsMeta)
    (fun _ _ _ => .trans) (fun _ _ _ _ => defineMember_keeps) h2
  obtain ⟨e1, e2, e3, e4, e5⟩ := hfirst.trans hrest
  exact ⟨e1, e2, e3, e4, e5⟩

theorem classMeta_layout {implements : Bytes} {internal : Bool}
    (h : classMeta st fqName cls (newMetaClass implements internal) = .ok mc) :
    mc.implements = implements ∧ mc.internal = internal ∧ ∃ pre slots, ClassLayout st fqName cls mc pre slots := by
  have hkeeps := classMeta_keeps h
  refine ⟨hkeeps.implements, hkeeps.internal, ?_⟩
  obtain ⟨b1, h1, h⟩ := bind_eq_ok h
  obtain ⟨b2, h2, h⟩ := bind_eq_ok h
  cases h
  have hfront : ∃ pre, Laid fqName b1 pre ∧ Placed st fqName cls.body [] [] pre ∧ (∀ s ∈ pre, s.isField = false) ∧
      ∀ interfaceClassMeta interfaceMeta, implements ≠ [] → st.classes.lookup implements = some interfaceClassMeta →
        st.interfaces.lookup implements = some interfaceMeta →
        let byIndex := interfaceMethodsByIndex interfaceClassMeta.fieldIndexMap
        Front st fqName cls interfaceMeta ((List.range byIndex.entries.length).filterMap byIndex.lookup) pre := by
    obtain ⟨hnone, rfl⟩ | ⟨interfaceClassMeta, interfaceMeta, hc, hi, h1⟩ := defineInterfaceMethods_cases h1
    · refine ⟨[], laid_nil _ _ _, placed_nil, by simp, fun mc' mi hne hc hi => ?_⟩
      rcases hnone with hnone | hnone | hnone
      · exact absurd hnone hne
      · exact absurd (hnone.symm.trans hc) (by simp)
      · exact absurd (hnone.symm.trans hi) (by simp)
    · obtain ⟨pre, hlaid, hplaced, hfront⟩ := defineInterfaceSlots_laid (laid_nil _ _ _) h1
      refine ⟨pre, hlaid, hplaced, hfront.isField, fun mc' mi hne hc' hi' => ?_⟩
      cases hc.symm.trans hc'
      cases hi.symm.trans hi'
      exact hfront
  obtain ⟨pre, hlaid, hplaced, hmethods, hfront⟩ := hfront
  obtain ⟨slots, hlaid', hplaced'⟩ : Partly st fqName cls.body pre (fieldsOf cls.body) (methodsOf cls.body) b2 :=
    foldlM_done (I := fun done b => Partly st fqName cls.body pre (fieldsOf done) (methodsOf done) b)
      (fun done stmt rest b b' hbody hb h => hb.member hbody h) h2
      ⟨[], by rwa [append_nil], by rwa [append_nil]⟩
  refine ⟨pre, slots, hlaid'.types, hlaid'.index, hlaid'.varAST, hlaid'.internal, hplaced', hmethods, ?_⟩
  rw [hkeeps.implements]
  exact hfront

end Classes

end Picasso.Declare
