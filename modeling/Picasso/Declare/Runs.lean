import Picasso.Declare.Layout

namespace Picasso.Declare

open Lexing Parsing Build Lib.Folds Lib.Numbering List Option AList State

variable {ν : Type} {st st' : State} {pkg : PackageEntry} {tree : List (Statement ν)} {k : Bytes} {s s₁ s₂ : State}

section Frames

def State.methodsAt (st : State) (k : Bytes) : Option (AList fun _ : Bytes => MethodSig) :=
  (st.interfaces.lookup k).map MetaInterface.methods

structure SameAt (k : Bytes) (st st' : State) : Prop where
  classes : st'.classes.lookup k = st.classes.lookup k
  methods : st'.methodsAt k = st.methodsAt k

theorem SameAt.refl (st : State) : SameAt k st st := ⟨rfl, rfl⟩

theorem SameAt.trans (h : SameAt k s s₁) (h' : SameAt k s₁ s₂) : SameAt k s s₂ :=
  ⟨h'.1.trans h.1, h'.2.trans h.2⟩

/-- Names are resolved as before, to the same types. -/
structure SameScope (st st' : State) : Prop where
  aliasMap : st'.aliasMap = st.aliasMap
  typeHandler : st'.typeHandler = st.typeHandler

theorem SameScope.refl (st : State) : SameScope st st := ⟨rfl, rfl⟩

theorem SameScope.trans (h : SameScope s s₁) (h' : SameScope s₁ s₂) : SameScope s s₂ :=
  ⟨h'.1.trans h.1, h'.2.trans h.2⟩

section Scopes

variable (h : SameScope st st')

include h

theorem SameScope.resolveAlias : st'.resolveAlias = st.resolveAlias := by
  funext type
  rw [State.resolveAlias, State.resolveAlias, h.aliasMap]

theorem SameScope.llvmType : st'.llvmType = st.llvmType := by
  funext type
  rw [State.llvmType, State.llvmType, h.typeHandler]

theorem SameScope.valueType : st'.valueType = st.valueType := by
  funext type
  rw [State.valueType, State.valueType, h.llvmType, h.resolveAlias]

theorem SameScope.paramTypes : st'.paramTypes = st.paramTypes := by
  funext parameters
  rw [State.paramTypes, State.paramTypes, h.valueType]

theorem SameScope.returnType : st'.returnType = st.returnType := by
  funext returnType
  match returnType with
  | none => rw [State.returnType, State.returnType, h.llvmType]
  | some (.tuple _ types) =>
    rw [State.returnType, State.returnType, State.getOrCreateTupleType, State.getOrCreateTupleType, h.valueType,
      h.resolveAlias]
  | some (.symbol ..) | some (.list ..) => rw [State.returnType, State.returnType, h.valueType] <;> simp

theorem SameScope.methodType : st'.methodType = st.methodType := by
  funext fqName m
  rw [State.methodType, State.methodType, h.returnType, h.paramTypes]

theorem SameScope.interfaceReturnType : st'.interfaceReturnType = st.interfaceReturnType := by
  funext returnType
  cases returnType with
  | none => rw [State.interfaceReturnType, State.interfaceReturnType, h.llvmType]
  | some type => rw [State.interfaceReturnType, State.interfaceReturnType, h.valueType]

end Scopes

/-- Nothing but the entry of `a` has changed. -/
structure OnlyAt (a : Bytes) (st st' : State) : Prop where
  scope : SameScope st st'
  others : ∀ i, i ≠ a → SameAt i st st'

theorem OnlyAt.refl (st : State) : OnlyAt k st st := ⟨.refl st, fun _ _ => .refl st⟩

theorem OnlyAt.trans (h : OnlyAt k s s₁) (h' : OnlyAt k s₁ s₂) : OnlyAt k s s₂ :=
  ⟨h.scope.trans h'.scope, fun i hi => (h.others i hi).trans (h'.others i hi)⟩

variable {α : Type} {f : State → α → Except Abort State} {key : α → Bytes} {l : List α}

theorem loop_sameAt (h : l.foldlM f st = .ok st') (hk : k ∉ l.map key)
    (hf : ∀ s a s', f s a = .ok s' → OnlyAt (key a) s s') : SameAt k st st' :=
  foldlM_rel SameAt.refl (fun _ _ _ => .trans)
    (fun s a ha s' hs => (hf s a s' hs).others k fun heq => hk (mem_map.mpr ⟨a, ha, heq.symm⟩)) h

theorem loop_sameScope (h : l.foldlM f st = .ok st') (hf : ∀ s a s', f s a = .ok s' → OnlyAt (key a) s s') :
    SameScope st st' :=
  foldlM_rel SameScope.refl (fun _ _ _ => .trans) (fun s a _ s' hs => (hf s a s' hs).scope) h

theorem loop_at {a : α} (h : l.foldlM f st = .ok st') (hnodup : (l.map key).Nodup) (ha : a ∈ l)
    (hf : ∀ s a s', f s a = .ok s' → OnlyAt (key a) s s') :
    ∃ pre post s₁ s₂, l = pre ++ a :: post ∧ pre.foldlM f st = .ok s₁ ∧ f s₁ a = .ok s₂ ∧ post.foldlM f s₂ = .ok st' ∧
      SameAt (key a) st s₁ ∧ SameAt (key a) s₂ st' := by
  obtain ⟨pre, post, s₁, s₂, rfl, hpre, hround, hpost⟩ := foldlM_round h ha
  rw [map_append, map_cons, nodup_append, nodup_cons] at hnodup
  obtain ⟨-, ⟨hnpost, -⟩, hdisj⟩ := hnodup
  exact ⟨pre, post, s₁, s₂, rfl, hpre, hround, hpost,
    loop_sameAt hpre (fun hmem => hdisj _ hmem _ mem_cons_self rfl) hf, loop_sameAt hpost hnpost hf⟩

end Frames

section Rounds

variable {ifs : InterfaceDeclaration ν} {cls : ClassDeclaration ν} {m : Method}

theorem declareInterface_ok (h : declareInterface st ifs pkg = .ok st') :
    st.classes.lookup (attach pkg.name ifs.name) = none ∧
      st'.classes = st.classes.insert (attach pkg.name ifs.name) (newMetaClass [] false) ∧
      st'.interfaces = st.interfaces.insert (attach pkg.name ifs.name) ⟨∅, []⟩ ∧
      st'.aliasMap = st.aliasMap ∧ st'.globalFuncList = st.globalFuncList := by
  rw [declareInterface] at h
  split at h
  · cases h
  · next hnone =>
    cases h
    exact ⟨by simpa using hnone, rfl, rfl, rfl, rfl⟩

theorem declareOpaqueClass_ok (h : declareOpaqueClass st cls pkg = .ok st') :
    st.classes.lookup (attach pkg.name cls.name) = none ∧ st'.classes = st.classes.insert (attach pkg.name cls.name)
        (newMetaClass (st.resolveAlias cls.implements) cls.isInternal) ∧ (∀ i, st'.methodsAt i = st.methodsAt i) ∧
      (st.resolveAlias cls.implements ≠ [] → (st.methodsAt (st.resolveAlias cls.implements)).isSome) ∧
      st'.aliasMap = st.aliasMap.insert pkg.importAlias pkg.name ∧ st'.globalFuncList = st.globalFuncList := by
  rw [declareOpaqueClass] at h
  dsimp only at h
  split at h
  · cases h
  · next hnone =>
    replace hnone : st.classes.lookup (attach pkg.name cls.name) = none := by simpa using hnone
    split at h
    · next hempty =>
      cases h
      exact ⟨hnone, rfl, fun _ => rfl, fun hne => absurd hempty hne, rfl, rfl⟩
    · split at h
      · cases h
      · next mi hmi =>
        cases h
        refine ⟨hnone, rfl, fun i => ?_, fun _ => by simp [methodsAt, hmi], rfl, rfl⟩
        by_cases hi : i = st.resolveAlias cls.implements
        · subst hi
          simp [methodsAt, hmi]
        · simp [methodsAt, lookup_insert_ne hi]

theorem defineInterfaceUDT_ok (h : defineInterfaceUDT st ifs pkg = .ok st') :
    ∃ mc b, st.classes.lookup (attach pkg.name ifs.name) = some mc ∧
      ifs.body.foldlM (defineInterfaceMethod st (attach pkg.name ifs.name)) ⟨mc.fieldIndexMap, [], 0⟩ = .ok b ∧
      st' = { st with
        classes := st.classes.insert (attach pkg.name ifs.name)
          { mc with fieldIndexMap := b.fieldIndexMap, fields := b.fieldTypes } } := by
  rw [defineInterfaceUDT] at h
  split at h
  · cases h
  · next mc hmc =>
    obtain ⟨b, hb, h⟩ := bind_eq_ok h
    cases h
    exact ⟨mc, b, hmc, hb, rfl⟩

theorem defineClass_ok (h : defineClass st cls pkg = .ok st') :
    ∃ mc mc', st.classes.lookup (attach pkg.name cls.name) = some mc ∧
      classMeta st (attach pkg.name cls.name) cls mc = .ok mc' ∧
      st' = { st with classes := st.classes.insert (attach pkg.name cls.name) mc' } := by
  rw [defineClass] at h
  split at h
  · cases h
  · next mc hmc =>
    obtain ⟨mc', hmc', h⟩ := bind_eq_ok h
    cases h
    exact ⟨mc, mc', hmc, hmc', rfl⟩

structure MetaClass.SameLayout (mc mc' : MetaClass) : Prop where
  fieldIndexMap : mc'.fieldIndexMap = mc.fieldIndexMap
  varAST : mc'.varAST = mc.varAST
  internalFields : mc'.internalFields = mc.internalFields
  arrayVarsEleTypes : mc'.arrayVarsEleTypes = mc.arrayVarsEleTypes
  fields : mc'.fields = mc.fields
  implements : mc'.implements = mc.implements
  internal : mc'.internal = mc.internal

structure Registers (k name : Bytes) (st st' : State) : Prop where
  scope : SameScope st st'
  others : ∀ i, i ≠ k → SameAt i st st'
  globalFuncList : ∀ g, g ≠ attach k name → st'.globalFuncList.lookup g = st.globalFuncList.lookup g
  entry : ∃ mc mc', st.classes.lookup k = some mc ∧ st'.classes.lookup k = some mc' ∧ mc.SameLayout mc' ∧
    ∀ g, (mc'.methods.lookup g).isSome ↔ g = attach k name ∨ (mc.methods.lookup g).isSome

theorem Registers.onlyAt {name : Bytes} (h : Registers k name st st') : OnlyAt k st st' := ⟨h.scope, h.others⟩

theorem isSome_lookup_insert {α β : Type} [DecidableEq α] {t : AList fun _ : α => β} {a a' : α} {b : β} {c : Prop}
    [Decidable c] (hc : c ↔ (t.lookup a).isSome) :
    ((if c then t else t.insert a b).lookup a').isSome ↔ a' = a ∨ (t.lookup a').isSome := by
  by_cases ha : a' = a
  · subst ha
    split
    · next h => simp [hc.mp h]
    · simp
  · split <;> simp [ha, lookup_insert_ne ha]

theorem declareFunc_ok (h : declareFunc pkg cls st m = .ok st') :
    Registers (attach pkg.name cls.name) m.name st st' ∧ st'.interfaces = st.interfaces := by
  obtain ⟨params, -, h⟩ := bind_eq_ok h
  obtain ⟨retType, -, h⟩ := bind_eq_ok h
  split at h
  · cases h
  · next mc hmc =>
    cases h
    refine ⟨⟨⟨rfl, rfl⟩, fun i hi => ⟨lookup_insert_ne hi, rfl⟩, fun g hg => ?_, mc, _, hmc,
      lookup_insert _, ⟨rfl, rfl, rfl, rfl, rfl, rfl, rfl⟩, fun g => isSome_lookup_insert Iff.rfl⟩, rfl⟩
    dsimp only
    split
    · rfl
    · exact lookup_insert_ne hg

theorem declareInterfaceFunc_ok (h : declareInterfaceFunc pkg ifs st m = .ok st') :
    Registers (attach pkg.name ifs.name) m.name st st' ∧
      ∃ mc mi mi', st.classes.lookup (attach pkg.name ifs.name) = some mc ∧
        st.interfaces.lookup (attach pkg.name ifs.name) = some mi ∧
        st'.interfaces.lookup (attach pkg.name ifs.name) = some mi' ∧
        mi'.methods = if (mc.methods.lookup (attach (attach pkg.name ifs.name) m.name)).isSome ||
            (st.globalFuncList.lookup (attach (attach pkg.name ifs.name) m.name)).isSome then mi.methods
          else mi.methods.insert m.name ⟨m.parameters, m.returnType⟩ := by
  obtain ⟨params, -, h⟩ := bind_eq_ok h
  obtain ⟨retType, -, h⟩ := bind_eq_ok h
  split at h
  · next mc mi hmc hmi =>
    cases h
    refine ⟨⟨⟨rfl, rfl⟩, fun i hi => ⟨lookup_insert_ne hi, ?_⟩, fun g hg => ?_, mc, _, hmc,
      lookup_insert _, ⟨rfl, rfl, rfl, rfl, rfl, rfl, rfl⟩, fun g => isSome_lookup_insert Iff.rfl⟩,
      mc, mi, ?_⟩
    · simp only [methodsAt]
      split
      · rfl
      · rw [lookup_insert_ne hi]
    · dsimp only
      split
      · rfl
      · exact lookup_insert_ne hg
    · cases hg : st.globalFuncList.lookup (attach (attach pkg.name ifs.name) m.name) <;>
        cases hm : mc.methods.lookup (attach (attach pkg.name ifs.name) m.name) <;> simp [hmc, hmi]
  · cases h

end Rounds

section Interfaces

variable {body : List (Statement ν)} {b b' : InterfaceFields} {ifs : InterfaceDeclaration ν}

theorem defineInterfaceMethod_cases {stmt : Statement ν} (h : defineInterfaceMethod st k b stmt = .ok b') :
    (method? stmt = none ∧ b' = b) ∨ ∃ m t ts, method? stmt = some m ∧ st.interfaceReturnType m.returnType = .ok t ∧
      st.paramTypes m.parameters = .ok ts ∧
      b' = ⟨b.fieldIndexMap.insert (attach k m.name) b.i, b.fieldTypes ++ [.func t ts], b.i + 1⟩ := by
  cases stmt with
  | variableDeclaration => cases h
  | variableDeclarations => cases h
  | functionDefinition loc parameters name body hash returnType isStatic isInternal =>
    obtain ⟨t, ht, h⟩ := bind_eq_ok h
    obtain ⟨ts, hts, h⟩ := bind_eq_ok h
    cases h
    exact .inr ⟨⟨name, parameters, returnType, isInternal⟩, t, ts, rfl, ht, hts, rfl⟩
  | _ =>
    cases h
    exact .inl ⟨rfl, rfl⟩

def State.Types (st : State) (m : Method) : Prop :=
  (∃ t, st.interfaceReturnType m.returnType = .ok t) ∧ ∃ ts, st.paramTypes m.parameters = .ok ts

theorem defineInterfaceMethods_placed (h : body.foldlM (defineInterfaceMethod st k) ⟨∅, [], 0⟩ = .ok b) :
    LastPlace b.fieldIndexMap ((methodsOf body).map fun m => attach k m.name) ∧ ∀ m ∈ methodsOf body, st.Types m := by
  suffices hall : b.i = (methodsOf body).length ∧
      LastPlace b.fieldIndexMap ((methodsOf body).map fun m => attach k m.name) ∧
      ∀ m ∈ methodsOf body, st.Types m from hall.2
  refine foldlM_done (I := fun done b => b.i = (methodsOf done).length ∧
    LastPlace b.fieldIndexMap ((methodsOf done).map fun m => attach k m.name) ∧ ∀ m ∈ methodsOf done, st.Types m)
    (fun done stmt rest b b' _ hb h => ?_) h ⟨rfl, lastPlace_nil, by simp [methodsOf]⟩
  obtain ⟨hi, hplace, htypes⟩ := hb
  rw [methodsOf_next]
  obtain ⟨hm, rfl⟩ | ⟨m, t, ts, hm, ht, hts, rfl⟩ := defineInterfaceMethod_cases h
  · rw [hm, toList_none, append_nil]
    exact ⟨hi, hplace, htypes⟩
  · rw [hm, toList_some]
    refine ⟨by simp [hi], ?_, ?_⟩
    · have := hplace.insert (attach k m.name)
      rw [length_map, ← hi] at this
      rwa [map_append]
    · intro m' hm'
      rcases mem_append.mp hm' with hm' | hm'
      · exact htypes m' hm'
      · rw [mem_singleton.mp hm']
        exact ⟨⟨t, ht⟩, ts, hts⟩

theorem defineInterfaceUDT_onlyAt (h : defineInterfaceUDT st ifs pkg = .ok st') :
    OnlyAt (attach pkg.name ifs.name) st st' := by
  obtain ⟨mc, b, -, -, rfl⟩ := defineInterfaceUDT_ok h
  exact ⟨⟨rfl, rfl⟩, fun i hi => ⟨lookup_insert_ne hi, rfl⟩⟩

theorem declareInterfaceFuncs_onlyAt (h : declareInterfaceFuncs st ifs pkg = .ok st') :
    OnlyAt (attach pkg.name ifs.name) st st' :=
  foldlM_rel OnlyAt.refl (fun _ _ _ => .trans) (fun _ _ _ _ h => (declareInterfaceFunc_ok h).1.onlyAt) h

end Interfaces

section Classes

variable {cls : ClassDeclaration ν}

theorem defineClass_onlyAt (h : defineClass st cls pkg = .ok st') : OnlyAt (attach pkg.name cls.name) st st' := by
  obtain ⟨mc, mc', -, -, rfl⟩ := defineClass_ok h
  exact ⟨⟨rfl, rfl⟩, fun i hi => ⟨lookup_insert_ne hi, rfl⟩⟩

theorem declareClassFuncs_onlyAt (h : declareClassFuncs st cls pkg = .ok st') : OnlyAt (attach pkg.name cls.name) st st' :=
  foldlM_rel OnlyAt.refl (fun _ _ _ => .trans) (fun _ _ _ _ h => (declareFunc_ok h).1.onlyAt) h

theorem MetaClass.SameLayout.refl (mc : MetaClass) : mc.SameLayout mc := ⟨rfl, rfl, rfl, rfl, rfl, rfl, rfl⟩

theorem MetaClass.SameLayout.trans {mc mc' mc'' : MetaClass} (h : mc.SameLayout mc') (h' : mc'.SameLayout mc'') :
    mc.SameLayout mc'' :=
  ⟨h'.1.trans h.1, h'.2.trans h.2, h'.3.trans h.3, h'.4.trans h.4, h'.5.trans h.5, h'.6.trans h.6, h'.7.trans h.7⟩

theorem declareClassFuncs_layout {mc : MetaClass} (h : declareClassFuncs st cls pkg = .ok st')
    (hmc : st.classes.lookup (attach pkg.name cls.name) = some mc) :
    ∃ mc', st'.classes.lookup (attach pkg.name cls.name) = some mc' ∧ mc.SameLayout mc' := by
  refine foldlM_done (I := fun _ s => ∃ mc', s.classes.lookup (attach pkg.name cls.name) = some mc' ∧ mc.SameLayout mc')
    (fun _ m _ s s' _ hs h => ?_) h ⟨mc, hmc, .refl mc⟩
  obtain ⟨mc1, hmc1, hsame⟩ := hs
  obtain ⟨mc2, mc3, hmc2, hmc3, hlayout, -⟩ := (declareFunc_ok h).1.entry
  cases hmc1.symm.trans hmc2
  exact ⟨mc3, hmc3, hsame.trans hlayout⟩

end Classes

section Phases

variable {ifs : InterfaceDeclaration ν} {cls : ClassDeclaration ν}

def interfaceKeys (pkg : PackageEntry) (is : List (InterfaceDeclaration ν)) : List Bytes :=
  is.map fun ifs => attach pkg.name ifs.name

def classKeys (pkg : PackageEntry) (cs : List (ClassDeclaration ν)) : List Bytes :=
  cs.map fun cls => attach pkg.name cls.name

theorem nodup_concat {l : List Bytes} {a : Bytes} (hl : l.Nodup) (ha : a ∉ l) : (l ++ [a]).Nodup :=
  nodup_append.mpr ⟨hl, nodup_singleton a, fun _ hb _ hc heq => ha (mem_singleton.mp hc ▸ heq ▸ hb)⟩

structure InterfacesOpened (pkg : PackageEntry) (is : List (InterfaceDeclaration ν)) (st st' : State) : Prop where
  nodup : (interfaceKeys pkg is).Nodup
  fresh : ∀ k ∈ interfaceKeys pkg is, st.classes.lookup k = none
  classes : ∀ k ∈ interfaceKeys pkg is, st'.classes.lookup k = some (newMetaClass [] false)
  methods : ∀ k ∈ interfaceKeys pkg is, st'.methodsAt k = some ∅
  others : ∀ k, k ∉ interfaceKeys pkg is → SameAt k st st'
  aliasMap : st'.aliasMap = st.aliasMap
  globalFuncList : st'.globalFuncList = st.globalFuncList

theorem declareInterfaces_ok {is : List (InterfaceDeclaration ν)}
    (h : is.foldlM (fun st ifs => declareInterface st ifs pkg) st = .ok st') : InterfacesOpened pkg is st st' := by
  refine foldlM_done (I := fun done s => InterfacesOpened pkg done st s) (fun done ifs rest s s' _ hs h => ?_) h
    ⟨nodup_nil, by simp [interfaceKeys], by simp [interfaceKeys], by simp [interfaceKeys], fun _ _ => .refl st,
      rfl, rfl⟩
  obtain ⟨hnone, hclasses, hinterfaces, halias, hglobal⟩ := declareInterface_ok h
  have hnew : attach pkg.name ifs.name ∉ interfaceKeys pkg done := by
    intro hmem
    rw [hs.classes _ hmem] at hnone
    cases hnone
  have hsame (k : Bytes) (hk : k ≠ attach pkg.name ifs.name) : SameAt k s s' :=
    ⟨by rw [hclasses, lookup_insert_ne hk],
      by rw [methodsAt, methodsAt, hinterfaces, lookup_insert_ne hk]⟩
  have hne {k : Bytes} (hk : k ∈ interfaceKeys pkg done) : k ≠ attach pkg.name ifs.name := fun heq => hnew (heq ▸ hk)
  have hmem (k : Bytes) : k ∈ interfaceKeys pkg (done ++ [ifs]) ↔
      k ∈ interfaceKeys pkg done ∨ k = attach pkg.name ifs.name := by simp [interfaceKeys]
  refine ⟨?_, fun k hk => ?_, fun k hk => ?_, fun k hk => ?_, fun k hk => ?_, halias.trans hs.aliasMap,
    hglobal.trans hs.globalFuncList⟩
  · rw [interfaceKeys, map_append]
    exact nodup_concat hs.nodup hnew
  · rcases (hmem k).mp hk with hk | rfl
    · exact hs.fresh k hk
    · rw [← (hs.others _ hnew).classes, hnone]
  · rcases (hmem k).mp hk with hk | rfl
    · exact (hsame k (hne hk)).classes.trans (hs.classes k hk)
    · rw [hclasses, lookup_insert]
  · rcases (hmem k).mp hk with hk | rfl
    · exact (hsame k (hne hk)).methods.trans (hs.methods k hk)
    · rw [methodsAt, hinterfaces, lookup_insert]
      rfl
  · obtain ⟨hdone, hk⟩ := not_or.mp (mt (hmem k).mpr hk)
    exact (hs.others k hdone).trans (hsame k hk)

structure ClassesOpened (pkg : PackageEntry) (cs : List (ClassDeclaration ν)) (st st' : State) : Prop where
  nodup : (classKeys pkg cs).Nodup
  fresh : ∀ k ∈ classKeys pkg cs, st.classes.lookup k = none
  classes : ∀ cls ∈ cs, st'.classes.lookup (attach pkg.name cls.name) =
    some (newMetaClass (st.resolveAlias cls.implements) cls.isInternal)
  implements : ∀ cls ∈ cs, st.resolveAlias cls.implements ≠ [] →
    (st.methodsAt (st.resolveAlias cls.implements)).isSome
  others : ∀ k, k ∉ classKeys pkg cs → st'.classes.lookup k = st.classes.lookup k
  methods : ∀ k, st'.methodsAt k = st.methodsAt k
  aliasMap : st'.aliasMap = st.aliasMap
  globalFuncList : st'.globalFuncList = st.globalFuncList

theorem declareOpaqueClasses_ok {cs : List (ClassDeclaration ν)}
    (h : cs.foldlM (fun st cls => declareOpaqueClass st cls pkg) st = .ok st')
    (halias : st.aliasMap.insert pkg.importAlias pkg.name = st.aliasMap) : ClassesOpened pkg cs st st' := by
  refine foldlM_done (I := fun done s => ClassesOpened pkg done st s) (fun done cls rest s s' _ hs h => ?_) h
    ⟨nodup_nil, by simp [classKeys], by simp, by simp, fun _ _ => rfl, fun _ => rfl, rfl, rfl⟩
  obtain ⟨hnone, hclasses, hmethods, himpl, halias', hglobal⟩ := declareOpaqueClass_ok h
  have hresolve (x : Bytes) : s.resolveAlias x = st.resolveAlias x := by
    rw [State.resolveAlias, State.resolveAlias, hs.aliasMap]
  have hnew : attach pkg.name cls.name ∉ classKeys pkg done := by
    intro hmem
    obtain ⟨cls', hcls', heq⟩ := mem_map.mp hmem
    rw [← heq, hs.classes cls' hcls'] at hnone
    cases hnone
  have hmem (k : Bytes) : k ∈ classKeys pkg (done ++ [cls]) ↔
      k ∈ classKeys pkg done ∨ k = attach pkg.name cls.name := by simp [classKeys]
  refine ⟨?_, fun k hk => ?_, fun c hc => ?_, fun c hc => ?_, fun k hk => ?_,
    fun k => (hmethods k).trans (hs.methods k), by rw [halias', hs.aliasMap, halias], hglobal.trans hs.globalFuncList⟩
  · rw [classKeys, map_append]
    exact nodup_concat hs.nodup hnew
  · rcases (hmem k).mp hk with hk | rfl
    · exact hs.fresh k hk
    · rw [← hs.others _ hnew, hnone]
  · rcases mem_append.mp hc with hc | hc
    · have hkey : attach pkg.name c.name ∈ classKeys pkg done := mem_map.mpr ⟨c, hc, rfl⟩
      have hne : attach pkg.name c.name ≠ attach pkg.name cls.name := fun heq => hnew (heq ▸ hkey)
      rw [hclasses, lookup_insert_ne hne, hs.classes c hc]
    · rw [mem_singleton.mp hc, hclasses, lookup_insert, hresolve]
  · rcases mem_append.mp hc with hc | hc
    · exact hs.implements c hc
    · rw [mem_singleton.mp hc, ← hresolve, ← hs.methods]
      exact himpl
  · obtain ⟨hdone, hk⟩ := not_or.mp (mt (hmem k).mpr hk)
    rw [hclasses, lookup_insert_ne hk, hs.others k hdone]

end Phases

section Names

theorem endName_attach {c m : Bytes} (hm : 46 ∉ m) : endName (attach c m) = m := by
  have hall : ∀ b ∈ m.reverse, decide (b ≠ 46) = true := fun b hb => ne_dot hm b (mem_reverse.mp hb)
  rw [endName, attach, List.rtakeWhile, reverse_append, reverse_cons, append_assoc,
    takeWhile_append_of_pos hall]
  simp

theorem attach_inj_left {c c' m m' : Bytes} (hm : 46 ∉ m) (hm' : 46 ∉ m') (h : attach c m = attach c' m') : c = c' := by
  have hname : m = m' := by rw [← endName_attach (c := c) hm, h, endName_attach hm']
  subst hname
  exact append_cancel_right h

def DotFree (tree : List (Statement ν)) : Prop :=
  (∀ ifs ∈ interfaceDeclarations tree, ∀ m ∈ methodsOf ifs.body, 46 ∉ m.name) ∧
    ∀ cls ∈ classDeclarations tree, ∀ m ∈ methodsOf cls.body, 46 ∉ m.name

/-- Interfaces are known as classes too, and functions are those of classes. -/
structure State.Wf (st : State) : Prop where
  classes : ∀ i, (st.methodsAt i).isSome → (st.classes.lookup i).isSome
  funcs : ∀ c name, 46 ∉ name → st.classes.lookup c = none → st.globalFuncList.lookup (attach c name) = none

def SameFuncs (k : Bytes) (st st' : State) : Prop :=
  ∀ name, 46 ∉ name → st'.globalFuncList.lookup (attach k name) = st.globalFuncList.lookup (attach k name)

theorem Registers.sameFuncs {k' name : Bytes} (h : Registers k' name st st') (hname : 46 ∉ name) (hk : k ≠ k') :
    SameFuncs k st st' :=
  fun _ hname' => h.globalFuncList _ fun heq => hk (attach_inj_left hname' hname heq)

variable {ifs : InterfaceDeclaration ν} {cls : ClassDeclaration ν}

theorem SameFuncs.trans (h : SameFuncs k s s₁) (h' : SameFuncs k s₁ s₂) : SameFuncs k s s₂ :=
  fun name hname => (h' name hname).trans (h name hname)

theorem declareInterfaceFuncs_sameFuncs (h : declareInterfaceFuncs st ifs pkg = .ok st')
    (hdot : ∀ m ∈ methodsOf ifs.body, 46 ∉ m.name) (hk : k ≠ attach pkg.name ifs.name) : SameFuncs k st st' :=
  foldlM_rel (R := SameFuncs k) (fun _ _ _ => rfl) (fun _ _ _ => .trans)
    (fun _ m hm _ h => (declareInterfaceFunc_ok h).1.sameFuncs (hdot m hm) hk) h

theorem declareClassFuncs_sameFuncs (h : declareClassFuncs st cls pkg = .ok st')
    (hdot : ∀ m ∈ methodsOf cls.body, 46 ∉ m.name) (hk : k ≠ attach pkg.name cls.name) : SameFuncs k st st' :=
  foldlM_rel (R := SameFuncs k) (fun _ _ _ => rfl) (fun _ _ _ => .trans)
    (fun _ m hm _ h => (declareFunc_ok h).1.sameFuncs (hdot m hm) hk) h

/-- The methods that are done of an interface are registered: the signature that
is kept is the first with the name. -/
def Signed (k : Bytes) (mc : MetaClass) (done : List Method) (s : State) : Prop :=
  ∃ mc' sigs, s.classes.lookup k = some mc' ∧ mc.SameLayout mc' ∧ s.methodsAt k = some sigs ∧
    (∀ name, (mc'.methods.lookup (attach k name)).isSome ↔ ∃ m ∈ done, m.name = name) ∧
    (∀ name, 46 ∉ name → (∀ m ∈ done, m.name ≠ name) → s.globalFuncList.lookup (attach k name) = none) ∧
    ∀ name, sigs.lookup name = (done.find? fun m => m.name = name).map fun m => ⟨m.parameters, m.returnType⟩

theorem Signed.next {mc : MetaClass} {done : List Method} {m : Method}
    (hs : Signed (attach pkg.name ifs.name) mc done st) (h : declareInterfaceFunc pkg ifs st m = .ok st')
    (hm : 46 ∉ m.name) : Signed (attach pkg.name ifs.name) mc (done ++ [m]) st' := by
  obtain ⟨mc1, sigs, hmc1, hlayout, hsigs, hdone, hglobal, hlookup⟩ := hs
  obtain ⟨hreg, mc2, mi, mi', hmc2, hmi, hmi', hnew⟩ := declareInterfaceFunc_ok h
  obtain ⟨mc3, mc4, hmc3, hmc4, hlayout₄, hmethods⟩ := hreg.entry
  cases hmc1.symm.trans hmc2
  cases hmc1.symm.trans hmc3
  rw [methodsAt, hmi] at hsigs
  cases hsigs
  refine ⟨mc4, mi'.methods, hmc4, hlayout.trans hlayout₄, by rw [methodsAt, hmi']; rfl, fun name => ?_,
    fun name hname hnone => ?_, fun name => ?_⟩
  · rw [hmethods, hdone name, attach_inj]
    simp only [mem_append, mem_singleton, or_and_right, exists_or, exists_eq_left, @eq_comm _ name]
    exact or_comm
  · have hne : name ≠ m.name := fun heq => hnone m (by simp) heq.symm
    rw [hreg.globalFuncList _ fun heq => hne (attach_inj.mp heq)]
    exact hglobal name hname fun m' hm' => hnone m' (mem_append_left _ hm')
  · rw [hnew, find?_append]
    by_cases hold : ∃ m' ∈ done, m'.name = m.name
    · rw [(hdone m.name).mpr hold, Bool.true_or, if_pos rfl, hlookup]
      by_cases hname : name = m.name
      · obtain ⟨m', hm', heq⟩ := hold
        obtain ⟨m'', hfind⟩ : ∃ m'', done.find? (fun m' => m'.name = name) = some m'' := by
          rw [← isSome_iff_exists, find?_isSome]
          exact ⟨m', hm', by simp [heq, hname]⟩
        rw [hfind, some_or]
      · simp [Ne.symm hname]
    · have hnone : ∀ m' ∈ done, m'.name ≠ m.name := fun m' hm' heq => hold ⟨m', hm', heq⟩
      have hfalse : (mc1.methods.lookup (attach (attach pkg.name ifs.name) m.name)).isSome = false := by
        rw [Bool.eq_false_iff]
        exact fun htrue => hold ((hdone m.name).mp htrue)
      rw [hfalse, hglobal m.name hm hnone, isSome_none, Bool.or_false, if_neg Bool.false_ne_true]
      by_cases hname : name = m.name
      · subst hname
        have hfind : done.find? (fun m' => m'.name = m.name) = none := by simpa using hnone
        rw [lookup_insert, hfind]
        simp
      · rw [lookup_insert_ne hname, hlookup]
        simp [Ne.symm hname]

theorem declareInterfaceFuncs_signed {mc : MetaClass} (h : declareInterfaceFuncs st ifs pkg = .ok st')
    (hdot : ∀ m ∈ methodsOf ifs.body, 46 ∉ m.name) (hs : Signed (attach pkg.name ifs.name) mc [] st) :
    Signed (attach pkg.name ifs.name) mc (methodsOf ifs.body) st' :=
  foldlM_done (I := fun done s => Signed (attach pkg.name ifs.name) mc done s)
    (fun _ m _ _ _ hbody hs h => hs.next h (hdot m (by simp [hbody]))) h hs

end Names

section Packages

variable {s₁ s₂ s₃ s₄ s₅ : State} {ifs : InterfaceDeclaration ν} {cls : ClassDeclaration ν}

structure Phases (pkg : PackageEntry) (tree : List (Statement ν)) (st s₁ s₂ s₃ s₄ s₅ st' : State) : Prop where
  interfaces : InterfacesOpened pkg (interfaceDeclarations tree)
    { st with aliasMap := st.aliasMap.insert pkg.importAlias pkg.name } s₁
  classes : ClassesOpened pkg (classDeclarations tree) s₁ s₂
  udts : (interfaceDeclarations tree).foldlM (fun st ifs => defineInterfaceUDT st ifs pkg) s₂ = .ok s₃
  interfaceFuncs : (interfaceDeclarations tree).foldlM (fun st ifs => declareInterfaceFuncs st ifs pkg) s₃ = .ok s₄
  fields : (classDeclarations tree).foldlM (fun st cls => defineClass st cls pkg) s₄ = .ok s₅
  funcs : (classDeclarations tree).foldlM (fun st cls => declareClassFuncs st cls pkg) s₅ = .ok st'

theorem declare_phases (h : declare st pkg tree = .ok st') :
    ∃ s₁ s₂ s₃ s₄ s₅, Phases pkg tree st s₁ s₂ s₃ s₄ s₅ st' := by
  obtain ⟨s₁, h1, h⟩ := bind_eq_ok h
  obtain ⟨s₂, h2, h⟩ := bind_eq_ok h
  obtain ⟨s₃, h3, h⟩ := bind_eq_ok h
  obtain ⟨s₄, h4, h⟩ := bind_eq_ok h
  obtain ⟨s₅, h5, h⟩ := bind_eq_ok h
  have hopened := declareInterfaces_ok h1
  refine ⟨s₁, s₂, s₃, s₄, s₅, hopened, declareOpaqueClasses_ok h2 ?_, h3, h4, h5, h⟩
  rw [hopened.aliasMap]
  exact insert_insert _

variable (hp : Phases pkg tree st s₁ s₂ s₃ s₄ s₅ st')

include hp

theorem Phases.scope₃ : SameScope s₃ s₄ := loop_sameScope hp.interfaceFuncs fun _ _ _ => declareInterfaceFuncs_onlyAt

theorem Phases.scope₅ : SameScope s₅ st' := loop_sameScope hp.funcs fun _ _ _ => declareClassFuncs_onlyAt

theorem Phases.scope₄ : SameScope s₄ s₅ := loop_sameScope hp.fields fun _ _ _ => defineClass_onlyAt

theorem Phases.interfaces_sameAt (hi : k ∉ interfaceKeys pkg (interfaceDeclarations tree)) : SameAt k s₂ s₄ :=
  (loop_sameAt hp.udts hi fun _ _ _ => defineInterfaceUDT_onlyAt).trans
    (loop_sameAt hp.interfaceFuncs hi fun _ _ _ => declareInterfaceFuncs_onlyAt)

theorem Phases.funcs_sameAt (hc : k ∉ classKeys pkg (classDeclarations tree)) : SameAt k s₅ st' :=
  loop_sameAt hp.funcs hc fun _ _ _ => declareClassFuncs_onlyAt

theorem Phases.classes_sameAt (hc : k ∉ classKeys pkg (classDeclarations tree)) : SameAt k s₄ st' :=
  (loop_sameAt hp.fields hc fun _ _ _ => defineClass_onlyAt).trans (hp.funcs_sameAt hc)

theorem Phases.sameAt (hi : k ∉ interfaceKeys pkg (interfaceDeclarations tree))
    (hc : k ∉ classKeys pkg (classDeclarations tree)) : SameAt k st st' := by
  have h1 : SameAt k st s₁ := ⟨(hp.interfaces.others k hi).classes, (hp.interfaces.others k hi).methods⟩
  have h2 : SameAt k s₁ s₂ := ⟨hp.classes.others k hc, hp.classes.methods k⟩
  exact ((h1.trans h2).trans (hp.interfaces_sameAt hi)).trans (hp.classes_sameAt hc)

theorem Phases.fresh_interface (hi : k ∈ interfaceKeys pkg (interfaceDeclarations tree)) : st.classes.lookup k = none :=
  hp.interfaces.fresh k hi

theorem Phases.fresh_class (hc : k ∈ classKeys pkg (classDeclarations tree)) :
    k ∉ interfaceKeys pkg (interfaceDeclarations tree) ∧ st.classes.lookup k = none := by
  have hnone := hp.classes.fresh k hc
  have hi : k ∉ interfaceKeys pkg (interfaceDeclarations tree) := by
    intro hi
    rw [hp.interfaces.classes k hi] at hnone
    cases hnone
  exact ⟨hi, (hp.interfaces.others k hi).classes ▸ hnone⟩

theorem Phases.kept (hk : (st.classes.lookup k).isSome) : SameAt k st st' := by
  refine hp.sameAt (fun hi => ?_) fun hc => ?_
  · rw [hp.fresh_interface hi] at hk
    cases hk
  · rw [(hp.fresh_class hc).2] at hk
    cases hk

omit hp

def State.HasInterface (st : State) (k : Bytes) (ifs : InterfaceDeclaration ν) : Prop :=
  ∃ mc sigs, st.classes.lookup k = some mc ∧ st.methodsAt k = some sigs ∧ mc.internalFields = [] ∧
    LastPlace mc.fieldIndexMap ((methodsOf ifs.body).map fun m => attach k m.name) ∧
    ∀ name, sigs.lookup name = (findMethod ifs.body name).map fun m => ⟨m.parameters, m.returnType⟩

/-- What is known of a class that has been declared: its members were defined in
the state `t`, where its interface was known as it still is. -/
def State.HasClass (st t : State) (k : Bytes) (cls : ClassDeclaration ν) : Prop :=
  ∃ mc mc', classMeta t k cls (newMetaClass (t.resolveAlias cls.implements) cls.isInternal) = .ok mc ∧
    st.classes.lookup k = some mc' ∧ mc.SameLayout mc' ∧
    (t.resolveAlias cls.implements ≠ [] → (st.methodsAt (t.resolveAlias cls.implements)).isSome ∧
      (st.classes.lookup (t.resolveAlias cls.implements)).isSome ∧ SameAt (t.resolveAlias cls.implements) t st)

theorem State.HasInterface.kept (h : st.HasInterface k ifs) (hsame : SameAt k st st') : st'.HasInterface k ifs := by
  obtain ⟨mc, sigs, hmc, hsigs, hrest⟩ := h
  exact ⟨mc, sigs, hsame.classes.trans hmc, hsame.methods.trans hsigs, hrest⟩

theorem State.HasClass.kept {t : State} (h : st.HasClass t k cls)
    (hsame : ∀ i, (st.classes.lookup i).isSome → SameAt i st st') : st'.HasClass t k cls := by
  obtain ⟨mc, mc', hmc, hmc', hlayout, himpl⟩ := h
  refine ⟨mc, mc', hmc, (hsame k (by simp [hmc'])).classes.trans hmc', hlayout, fun hne => ?_⟩
  obtain ⟨hi, hc, ht⟩ := himpl hne
  have := hsame _ hc
  exact ⟨this.methods ▸ hi, this.classes ▸ hc, ht.trans this⟩

theorem loop_sameFuncs {α : Type} {f : State → α → Except Abort State} {l : List α} (h : l.foldlM f st = .ok st')
    (hf : ∀ s, ∀ a ∈ l, ∀ s', f s a = .ok s' → SameFuncs k s s') : SameFuncs k st st' :=
  foldlM_rel (R := SameFuncs k) (fun _ _ _ => rfl) (fun _ _ _ => .trans) hf h

theorem mem_interfaceKeys {is : List (InterfaceDeclaration ν)} (h : ifs ∈ is) :
    attach pkg.name ifs.name ∈ interfaceKeys pkg is :=
  mem_map.mpr ⟨ifs, h, rfl⟩

theorem mem_classKeys {cs : List (ClassDeclaration ν)} (h : cls ∈ cs) : attach pkg.name cls.name ∈ classKeys pkg cs :=
  mem_map.mpr ⟨cls, h, rfl⟩

theorem State.Types.scope {m : Method} (h : st.Types m) (hs : SameScope st st') : st'.Types m := by
  rw [State.Types, hs.paramTypes, hs.interfaceReturnType]
  exact h

include hp

theorem Phases.sameFuncs₃ : SameFuncs k st s₃ := by
  have h1 : SameFuncs k st s₂ := fun _ _ => by rw [hp.classes.globalFuncList, hp.interfaces.globalFuncList]
  refine h1.trans (loop_sameFuncs hp.udts fun s ifs _ s' h => ?_)
  obtain ⟨mc, b, -, -, rfl⟩ := defineInterfaceUDT_ok h
  exact fun _ _ => rfl

theorem Phases.interface (hwf : st.Wf) (hdot : DotFree tree) (hi : ifs ∈ interfaceDeclarations tree) :
    st'.HasInterface (attach pkg.name ifs.name) ifs ∧ ∀ m ∈ methodsOf ifs.body, st'.Types m := by
  have hk : attach pkg.name ifs.name ∈ interfaceKeys pkg (interfaceDeclarations tree) := mem_interfaceKeys hi
  have hkc : attach pkg.name ifs.name ∉ classKeys pkg (classDeclarations tree) :=
    fun hc => (hp.fresh_class hc).1 hk
  have hclass₂ := (hp.classes.others _ hkc).trans (hp.interfaces.classes _ hk)
  have hsigs2 := (hp.classes.methods _).trans (hp.interfaces.methods _ hk)
  obtain ⟨-, post, t, t', -, -, hudt, hpost, hst, hst'⟩ :=
    loop_at hp.udts hp.interfaces.nodup hi fun _ _ _ => defineInterfaceUDT_onlyAt
  obtain ⟨mc, b, hmc, hb, rfl⟩ := defineInterfaceUDT_ok hudt
  cases hmc.symm.trans (hst.classes.trans hclass₂)
  obtain ⟨hplace, htypes⟩ := defineInterfaceMethods_placed hb
  have hscope : SameScope t st' := by
    have h1 : SameScope t s₃ :=
      (defineInterfaceUDT_onlyAt hudt).scope.trans (loop_sameScope hpost fun _ _ _ => defineInterfaceUDT_onlyAt)
    exact ((h1.trans hp.scope₃).trans hp.scope₄).trans hp.scope₅
  refine ⟨?_, fun m hm => (htypes m hm).scope hscope⟩
  have hclass₃ := hst'.classes.trans (lookup_insert _)
  have hsigs3 := hst'.methods.trans (hst.methods.trans hsigs2)
  obtain ⟨pre, post', u, u', heq, hpre, hfuncs, -, hsu, hsu'⟩ :=
    loop_at hp.interfaceFuncs hp.interfaces.nodup hi fun _ _ _ => declareInterfaceFuncs_onlyAt
  have hnone (name : Bytes) (hname : 46 ∉ name) :
      u.globalFuncList.lookup (attach (attach pkg.name ifs.name) name) = none := by
    have hpre' : SameFuncs (attach pkg.name ifs.name) s₃ u := by
      refine loop_sameFuncs hpre fun s ifs' hifs' s' h => ?_
      have hmem : ifs' ∈ interfaceDeclarations tree := heq ▸ mem_append_left _ hifs'
      refine declareInterfaceFuncs_sameFuncs h (hdot.1 ifs' hmem) fun hkey => ?_
      have hnodup := hp.interfaces.nodup
      rw [interfaceKeys, heq, map_append, nodup_append] at hnodup
      exact hnodup.2.2 _ (mem_map.mpr ⟨ifs', hifs', rfl⟩) _ (mem_map.mpr ⟨ifs, by simp, rfl⟩) hkey.symm
    rw [(hp.sameFuncs₃.trans hpre') name hname]
    exact hwf.funcs _ name hname (hp.fresh_interface hk)
  obtain ⟨mc', sigs, hmc', hlayout, hsigs', -, -, hlookup⟩ := declareInterfaceFuncs_signed hfuncs (hdot.1 ifs hi)
    ⟨_, ∅, hsu.classes.trans hclass₃, .refl _, hsu.methods.trans hsigs3, by simp [newMetaClass],
      fun name hname _ => hnone name hname, by simp⟩
  have hlast : SameAt (attach pkg.name ifs.name) u' st' := hsu'.trans (hp.classes_sameAt hkc)
  exact ⟨mc', sigs, hlast.classes.trans hmc', hlast.methods.trans hsigs', hlayout.internalFields,
    hlayout.fieldIndexMap ▸ hplace, hlookup⟩

theorem Phases.class (hwf : st.Wf) (hdot : DotFree tree) (hc : cls ∈ classDeclarations tree) :
    ∃ t, SameScope t st' ∧ st'.HasClass t (attach pkg.name cls.name) cls := by
  have hk : attach pkg.name cls.name ∈ classKeys pkg (classDeclarations tree) := mem_classKeys hc
  have hki := (hp.fresh_class hk).1
  have hclass₄ : s₄.classes.lookup (attach pkg.name cls.name) =
      some (newMetaClass (s₁.resolveAlias cls.implements) cls.isInternal) :=
    (hp.interfaces_sameAt hki).classes.trans (hp.classes.classes cls hc)
  obtain ⟨pre, post, t, t', heq, hpre, hround, hpost, hst, hst'⟩ :=
    loop_at hp.fields hp.classes.nodup hc fun _ _ _ => defineClass_onlyAt
  obtain ⟨mc, mc', hmc, hmeta, rfl⟩ := defineClass_ok hround
  cases hmc.symm.trans (hst.classes.trans hclass₄)
  obtain ⟨-, -, u, u', -, -, hfuncs, -, hsu, hsu'⟩ :=
    loop_at hp.funcs hp.classes.nodup hc fun _ _ _ => declareClassFuncs_onlyAt
  obtain ⟨mc'', hmc'', hlayout⟩ :=
    declareClassFuncs_layout hfuncs (hsu.classes.trans (hst'.classes.trans (lookup_insert _)))
  have hscope₂ : SameScope s₂ t := by
    have h3 := loop_sameScope hp.udts fun _ _ _ => defineInterfaceUDT_onlyAt
    exact (h3.trans hp.scope₃).trans (loop_sameScope hpre fun _ _ _ => defineClass_onlyAt)
  have hscope : SameScope t st' := by
    have h5 := (defineClass_onlyAt hround).scope.trans (loop_sameScope hpost fun _ _ _ => defineClass_onlyAt)
    exact h5.trans hp.scope₅
  have hresolve : t.resolveAlias cls.implements = s₁.resolveAlias cls.implements := by
    rw [State.resolveAlias, State.resolveAlias, hscope₂.aliasMap, hp.classes.aliasMap]
  refine ⟨t, hscope, mc', mc'', hresolve ▸ hmeta, hsu'.classes.trans hmc'', hlayout, ?_⟩
  rw [hresolve]
  intro hne
  have himpl := hp.classes.implements cls hc hne
  generalize s₁.resolveAlias cls.implements = i at himpl
  -- an interface is none of the classes, and is not touched any more
  have hknown : i ∉ classKeys pkg (classDeclarations tree) ∧ (st'.methodsAt i).isSome ∧
      (st'.classes.lookup i).isSome := by
    by_cases hi : i ∈ interfaceKeys pkg (interfaceDeclarations tree)
    · obtain ⟨ifs, hifs, rfl⟩ := mem_map.mp hi
      obtain ⟨mc, sigs, hmc, hsigs, -⟩ := (hp.interface hwf hdot hifs).1
      exact ⟨fun hc => (hp.fresh_class hc).1 hi, by simp [hsigs], by simp [hmc]⟩
    · have hst : (st.classes.lookup i).isSome := by
        refine hwf.classes i ?_
        have := (hp.interfaces.others i hi).methods
        exact this ▸ himpl
      have hsame := hp.kept hst
      refine ⟨fun hc => ?_, ?_, hsame.classes ▸ hst⟩
      · rw [(hp.fresh_class hc).2] at hst
        cases hst
      · have := (hp.interfaces.others i hi).methods
        rw [hsame.methods]
        exact this ▸ himpl
  refine ⟨hknown.2.1, hknown.2.2, ?_⟩
  have hsub : ∀ l, (∀ c ∈ l, c ∈ classDeclarations tree) → i ∉ classKeys pkg l := fun l hl hmem => by
    obtain ⟨c, hc, hkey⟩ := mem_map.mp hmem
    exact hknown.1 (mem_map.mpr ⟨c, hl c hc, hkey⟩)
  have h1 := (defineClass_onlyAt hround).others i fun hkey => hknown.1 (hkey ▸ hk)
  have h2 := loop_sameAt hpost (hsub post fun c hc => by simp [heq, hc]) fun _ _ _ => defineClass_onlyAt
  exact (h1.trans h2).trans (hp.funcs_sameAt hknown.1)

theorem Phases.wf (hwf : st.Wf) (hdot : DotFree tree) : st'.Wf := by
  have hkeys (c : Bytes) (hc : st'.classes.lookup c = none) :
      c ∉ interfaceKeys pkg (interfaceDeclarations tree) ∧ c ∉ classKeys pkg (classDeclarations tree) := by
    refine ⟨fun hi => ?_, fun hk => ?_⟩
    · obtain ⟨ifs, hifs, rfl⟩ := mem_map.mp hi
      obtain ⟨mc, -, hmc, -⟩ := (hp.interface hwf hdot hifs).1
      exact absurd (hmc.symm.trans hc) (by simp)
    · obtain ⟨cls, hcls, rfl⟩ := mem_map.mp hk
      obtain ⟨-, -, -, mc, -, hmc, -⟩ := hp.class hwf hdot hcls
      exact absurd (hmc.symm.trans hc) (by simp)
  refine ⟨fun i hi => ?_, fun c name hname hc => ?_⟩
  · by_contra hnone
    rw [Bool.not_eq_true, isSome_eq_false_iff, isNone_iff_eq_none] at hnone
    obtain ⟨hki, hkc⟩ := hkeys i hnone
    have hsame := hp.sameAt hki hkc
    have hst := hwf.classes i (hsame.methods ▸ hi)
    rw [← hsame.classes, hnone] at hst
    cases hst
  · obtain ⟨hki, hkc⟩ := hkeys c hc
    have h4 : SameFuncs c s₃ s₄ := loop_sameFuncs hp.interfaceFuncs fun s ifs hifs s' h =>
      declareInterfaceFuncs_sameFuncs h (hdot.1 ifs hifs) fun heq => hki (heq ▸ mem_interfaceKeys hifs)
    have h5 : SameFuncs c s₄ s₅ := loop_sameFuncs hp.fields fun s cls _ s' h => by
      obtain ⟨mc, mc', -, -, rfl⟩ := defineClass_ok h
      exact fun _ _ => rfl
    have h6 : SameFuncs c s₅ st' := loop_sameFuncs hp.funcs fun s cls hcls s' h =>
      declareClassFuncs_sameFuncs h (hdot.2 cls hcls) fun heq => hkc (heq ▸ mem_classKeys hcls)
    rw [(((hp.sameFuncs₃.trans h4).trans h5).trans h6) name hname]
    exact hwf.funcs c name hname ((hp.sameAt hki hkc).classes.symm.trans hc)

end Packages

section Runs

variable {pkgs : List (PackageEntry × List (Statement ν))} {ifs : InterfaceDeclaration ν} {cls : ClassDeclaration ν}

def initial : State := ⟨∅, ⟨[], []⟩, ∅, ∅, ∅⟩

theorem initial_wf : initial.Wf :=
  ⟨by simp [initial, methodsAt], by simp [initial]⟩

theorem exists_of_isOk {ε α : Type} {x : Except ε α} (h : x.isOk = true) : ∃ a, x = .ok a := by
  cases x with
  | error e => cases h
  | ok a => exact ⟨a, rfl⟩

def declareAll (st : State) (pkgs : List (PackageEntry × List (Statement ν))) : Except Abort State :=
  pkgs.foldlM (fun st e => declare st e.1 e.2) st

theorem declareAll_kept (h : declareAll st pkgs = .ok st') (hk : (st.classes.lookup k).isSome) : SameAt k st st' := by
  refine foldlM_done (I := fun _ s => SameAt k st s) (fun _ e _ s s' _ hs h => ?_) h (.refl st)
  obtain ⟨s₁, s₂, s₃, s₄, s₅, hp⟩ := declare_phases h
  exact hs.trans (hp.kept (hs.classes ▸ hk))

theorem declareAll_wf (h : declareAll st pkgs = .ok st') (hwf : st.Wf) (hdot : ∀ e ∈ pkgs, DotFree e.2) : st'.Wf := by
  refine foldlM_done (I := fun _ s => s.Wf) (fun _ e _ s s' hl hs h => ?_) h hwf
  obtain ⟨s₁, s₂, s₃, s₄, s₅, hp⟩ := declare_phases h
  exact hp.wf hs (hdot e (by simp [hl]))

theorem declareAll_has (h : declareAll st pkgs = .ok st') (hwf : st.Wf) (hdot : ∀ e ∈ pkgs, DotFree e.2)
    (hpkg : (pkg, tree) ∈ pkgs) :
    (∀ ifs ∈ interfaceDeclarations tree, st'.HasInterface (attach pkg.name ifs.name) ifs) ∧
      ∀ cls ∈ classDeclarations tree, ∃ t, st'.HasClass t (attach pkg.name cls.name) cls := by
  obtain ⟨pre, post, s, s', rfl, hpre, hround, hpost⟩ := foldlM_round h hpkg
  obtain ⟨s₁, s₂, s₃, s₄, s₅, hp⟩ := declare_phases hround
  have hwf' := declareAll_wf hpre hwf fun e he => hdot e (mem_append_left _ he)
  have hdot' : DotFree tree := hdot _ hpkg
  refine ⟨fun ifs hifs => ?_, fun cls hcls => ?_⟩
  · have hi := (hp.interface hwf' hdot' hifs).1
    refine hi.kept (declareAll_kept hpost ?_)
    obtain ⟨mc, -, hmc, -⟩ := hi
    simp [hmc]
  · obtain ⟨t, -, ht⟩ := hp.class hwf' hdot' hcls
    exact ⟨t, ht.kept fun i => declareAll_kept hpost⟩

end Runs

section Trees

def nowhere : SourceLoc := ⟨"", 0, 0⟩

def named (name : String) : TypeName := .symbol false (ascii name)

def fieldNode (name : String) (type : TypeName) (isInternal : Bool) : Statement Empty :=
  .variableDeclaration nowhere (ascii name) none (some type) false isInternal

def methodNode (name : String) (parameters : List Parameter) (returnType : Option TypeName) (isInternal : Bool) :
    Statement Empty :=
  .functionDefinition nowhere parameters (ascii name) [] 0 returnType false isInternal

def classNode (name : String) (body : List (Statement Empty)) (implements : String) : Statement Empty :=
  .classDeclaration nowhere (ascii name) body (ascii implements) false

def interfaceNode (name : String) (body : List (Statement Empty)) : Statement Empty :=
  .interfaceDeclaration nowhere (ascii name) body

def package (name : String) : PackageEntry := ⟨ascii name, ascii name⟩

end Trees

end Picasso.Declare
