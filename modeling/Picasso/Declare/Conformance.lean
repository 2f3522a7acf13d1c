import Picasso.Declare.Dispatch

namespace Picasso.Declare

open Lexing Parsing Lib.Folds Lib.Numbering List State

variable {ν : Type} {s st st' : State} {k ki kc : Bytes} {ifs : InterfaceDeclaration ν} {cls : ClassDeclaration ν}
  {m : Method} {type : TypeName} {c i : Option TypeName}

section Definitions

/-- The types for which written ones stand, with all their parts. -/
inductive ResolvedType
  | value (type : ValueType)
  | array (element : ResolvedType)
  | tuple (components : List ResolvedType)

mutual

def State.resolve (st : State) : TypeName → Option ResolvedType
  | .symbol atomic value =>
    (st.typeHandler.getLLVMType (st.resolveAlias (TypeName.symbol atomic value).get)).map .value
  | .list _ underlying => (st.resolve underlying).map .array
  | .tuple _ types => (st.resolveAll types).map .tuple

def State.resolveAll (st : State) : List TypeName → Option (List ResolvedType)
  | [] => some []
  | type :: types => do
      let r ← st.resolve type
      let rs ← st.resolveAll types
      some (r :: rs)

end

def State.resolveReturn (st : State) : Option TypeName → Option ResolvedType
  | none => some (.value .void)
  | some type => st.resolve type

/-- A type of a class and one of an interface are the same. The one is resolved
in the scope of the class, the other in the scope `s` of the interface. -/
def State.SameType (st s : State) (c i : Option TypeName) : Prop :=
  ∃ r, st.resolveReturn c = some r ∧ s.resolveReturn i = some r

/-- Each method of an interface has one in a class with its name and types. -/
def State.Conforms (st s : State) (cls : ClassDeclaration ν) (ifs : InterfaceDeclaration ν) : Prop :=
  ∀ m ∈ methodsOf ifs.body, ∃ m' ∈ methodsOf cls.body, m'.name = m.name ∧
    List.Forall₂ (fun p q : Parameter => st.SameType s (some p.type) (some q.type)) m'.parameters m.parameters ∧
    st.SameType s m'.returnType m.returnType

/-- The name of a type tells what the type is: it has no parts, and if no alias
changes the name, then the types whose names end in it are all one. -/
structure State.Sole (st : State) (type : TypeName) : Prop where
  parts : type.get ≠ ascii "array" ∧ type.get ≠ ascii "tuple"
  suffix : st.resolveAlias type.get = type.get → ∀ name t, (46 :: type.get).isSuffixOf (st.resolveAlias name) = true →
    st.llvmType (st.resolveAlias name) = .ok t → st.llvmType type.get = .ok t

/-- No name is repeated, and the types are known by their names and stand for the
same in both scopes. -/
structure Uniform (st s : State) (ifs : InterfaceDeclaration ν) : Prop where
  names : ((methodsOf ifs.body).map Method.name).Nodup
  types : ∀ m ∈ methodsOf ifs.body, ∀ type ∈ m.types, st.Sole type ∧ st.resolve type = s.resolve type

end Definitions

section Matches

theorem resolve_eq (h : type.get ≠ ascii "array" ∧ type.get ≠ ascii "tuple") :
    st.resolve type = (st.typeHandler.getLLVMType (st.resolveAlias type.get)).map .value := by
  cases type with
  | symbol => rw [resolve]
  | list => exact absurd rfl h.1
  | tuple => exact absurd rfl h.2

theorem returnType_eq (h : type.get ≠ ascii "tuple") : st.returnType (some type) = st.valueType type := by
  cases type with
  | symbol | list => rfl
  | tuple => exact absurd rfl h

/-- A type is taken for another if they have one name, or if no alias has changed
the name of the other and the name of the one ends in it. -/
theorem matches_cases {i : TypeName} (h : st.Matches (some type) (some i)) :
    st.resolveAlias type.get = st.resolveAlias i.get ∨
      st.resolveAlias i.get = i.get ∧ (46 :: i.get).isSuffixOf (st.resolveAlias type.get) = true := by
  rw [State.Matches, expectedType] at h
  split at h
  · next hsuffix => exact .inr ⟨hsuffix.1, hsuffix.1 ▸ hsuffix.2.2⟩
  · exact .inl h

theorem matches_none (h : st.Matches (some type) none) : type.get = [] :=
  resolveAlias_dotFree h (by simp)

theorem matches_parts (h : st.Matches (some type) i) (hi : ∀ type ∈ i, st.Sole type) :
    type.get ≠ ascii "array" ∧ type.get ≠ ascii "tuple" := by
  have hne (name : Bytes) (hdot : 46 ∉ name) (hname : name ≠ []) (hparts : ∀ type ∈ i, type.get ≠ name) :
      type.get ≠ name := by
    intro hget
    have hself : st.resolveAlias type.get = name := by rw [hget, State.resolveAlias, resolveAlias_eq_self hdot]
    cases i with
    | none => exact hname (hget ▸ matches_none h)
    | some i =>
      rcases matches_cases h with heq | ⟨-, hsuffix⟩
      · exact hparts i rfl (resolveAlias_dotFree (heq ▸ hself) hdot)
      · rw [hself, isSuffixOf_iff_suffix] at hsuffix
        exact hdot (hsuffix.subset mem_cons_self)
  exact ⟨hne _ (by decide) (by decide) fun type htype => (hi type htype).parts.1,
    hne _ (by decide) (by decide) fun type htype => (hi type htype).parts.2⟩

theorem none_matches {i : TypeName} (h : st.Matches none (some i)) : i.get = [] := by
  rw [State.Matches, expectedType] at h
  split at h
  · next hsuffix => exact absurd (suffix_nil.mp (isSuffixOf_iff_suffix.mp hsuffix.2.2)) (by simp)
  · exact resolveAlias_dotFree h.symm (by simp)

theorem matches_sameType (h : st.Matches c i) (hi : ∀ type ∈ i, st.Sole type ∧ st.resolve type = s.resolve type)
    (hc : ∃ t, st.returnType c = .ok t) : st.SameType s c i := by
  have hsame : s.resolveReturn i = st.resolveReturn i := by
    cases i with
    | none => rfl
    | some i => exact (hi i rfl).2.symm
  rw [State.SameType, hsame]
  have hempty (type : TypeName) (hget : type.get = []) : st.resolve type = some (.value .void) := by
    rw [resolve_eq (by rw [hget]; decide), hget, State.resolveAlias, resolveAlias_eq_self (by simp)]
    rfl
  cases c with
  | none =>
    cases i with
    | none => exact ⟨_, rfl, rfl⟩
    | some i => exact ⟨_, rfl, hempty i (none_matches h)⟩
  | some type =>
    cases i with
    | none => exact ⟨_, hempty type (matches_none h), rfl⟩
    | some i =>
      have hparts := matches_parts h fun type htype => (hi type htype).1
      have hsole := (hi i rfl).1
      obtain ⟨t, ht⟩ := hc
      rw [returnType_eq hparts.2, valueType] at ht
      refine ⟨.value t, ?_, ?_⟩
      · rw [resolveReturn, resolve_eq hparts, llvmType_ok.mp ht]
        rfl
      · rw [resolveReturn, resolve_eq hsole.parts]
        rcases matches_cases h with heq | ⟨hself, hsuffix⟩
        · rw [← heq, llvmType_ok.mp ht]
          rfl
        · rw [hself, llvmType_ok.mp (hsole.suffix hself type.get t hsuffix ht)]
          rfl

end Matches

section Classes

variable {mc : MetaClass} {internal : Bool}

theorem conforms_of_uniform (hi : st.HasInterface ki ifs) (hdot : ∀ m ∈ methodsOf ifs.body, 46 ∉ m.name) (hne : ki ≠ [])
    (hu : Uniform st s ifs) (h : classMeta st kc cls (newMetaClass ki internal) = .ok mc) : st.Conforms s cls ifs := by
  obtain ⟨mi, sigs, hmi, hsigs, -, hplace, hlookup⟩ := hi
  obtain ⟨mi', hmi', rfl⟩ : ∃ mi', st.interfaces.lookup ki = some mi' ∧ mi'.methods = sigs := by
    simpa [methodsAt] using hsigs
  obtain ⟨himpl, -, pre, slots, hlayout⟩ := classMeta_layout h
  have hfront := hlayout.front mi mi' (himpl ▸ hne) (himpl ▸ hmi) (himpl ▸ hmi')
  replace hplace : LastPlace mi.fieldIndexMap (((methodsOf ifs.body).map Method.name).map (attach ki)) := by
    rwa [map_map]
  dsimp only at hfront
  rw [interfaceMethodsByIndex_names hplace (by simpa using hdot) hu.names] at hfront
  intro m hm
  obtain ⟨m', hm', hvalid⟩ := hfront.implemented m.name (mem_map_of_mem hm)
  have hname := findMethod_name hm'
  have hsig : mi'.methods.lookup m.name = some ⟨m.parameters, m.returnType⟩ := by
    rw [hlookup]
    obtain ⟨m1, hm1⟩ : ∃ m1, findMethod ifs.body m.name = some m1 := by
      rw [← Option.isSome_iff_exists, findMethod, find?_isSome]
      exact ⟨m, hm, by simp⟩
    obtain rfl : m1 = m :=
      inj_on_of_nodup_map hu.names (mem_of_findMethod hm1) hm (findMethod_name hm1)
    rw [hm1]
    rfl
  obtain ⟨hparams, hreturn⟩ := (validateInterfaceMethodSignature_ok hsig).mp hvalid
  obtain ⟨slot, hmem, hmethod, hsname⟩ := hlayout.placed.found m' (mem_of_findMethod hm')
  obtain ⟨m'', hm'', hslot⟩ := hlayout.placed.methods slot hmem hmethod
  rw [hsname, hname, hm'] at hm''
  cases hm''
  obtain ⟨hret, hps⟩ := (methodType_isOk kc).mp ⟨_, hslot.type⟩
  rw [paramTypes, mapM_isOk] at hps
  refine ⟨m', mem_of_findMethod hm', hname, ?_, matches_sameType hreturn (fun type htype => ?_) hret⟩
  · rw [forall₂_iff_zip] at hparams ⊢
    refine ⟨hparams.1, fun {p q} hpq => ?_⟩
    have hsole : ∀ type ∈ some q.type, st.Sole type ∧ st.resolve type = s.resolve type := by
      intro type htype
      cases Option.mem_some.mp htype
      exact hu.types m hm q.type (mem_append_left _ (mem_map_of_mem (of_mem_zip hpq).2))
    refine matches_sameType (hparams.2 hpq) hsole ?_
    rw [returnType_eq (matches_parts (hparams.2 hpq) fun type htype => (hsole type htype).1).2]
    exact hps p (of_mem_zip hpq).1
  · exact hu.types m hm type (mem_append_right _ (by simpa using htype))

theorem not_sameType {r : ResolvedType} {c i : TypeName} (hc : st.resolve c = some r) (hne : s.resolve i ≠ some r) :
    ¬ st.SameType s (some c) (some i) := by
  rintro ⟨r', hr, hr'⟩
  cases hc.symm.trans hr
  exact hne hr'

theorem resolve_int (st : State) : st.resolve (named "int") = some (.value .i64) := by
  rw [resolve_eq (by decide)]
  rfl

/-- The type is taken for the other in a class. -/
structure Poses (st : State) (type' type : TypeName) : Prop where
  name : st.resolveAlias type'.get = st.resolveAlias type.get ∨
    st.resolveAlias type.get = type.get ∧ (46 :: type.get).isSuffixOf (st.resolveAlias type'.get) = true
  value : ∃ t, st.valueType type' = .ok t
  returned : ∃ t, st.returnType (some type') = .ok t

theorem Poses.passes {type' i : TypeName} {σ : TypeName → TypeName} (h : Poses st type' type)
    (hi : i.get = type.get) (hσ : σ i = type') : Passes st σ i := by
  refine ⟨?_, hσ ▸ h.value, hσ ▸ h.returned⟩
  rw [hσ, State.Matches, expectedType, hi]
  rcases h.name with heq | ⟨hself, hsuffix⟩
  · rw [writtenType, heq]
    split <;> rfl
  · have hne : st.resolveAlias type'.get ≠ type.get := by
      intro heq
      have hlength := (isSuffixOf_iff_suffix.mp hsuffix).length_le
      rw [heq, length_cons] at hlength
      omega
    rw [writtenType, hself, if_pos ⟨rfl, hne, hsuffix⟩]

theorem exists_impostor_of_two {a b : TypeName} {r q : ResolvedType} (ha : Poses st a type) (hb : Poses st b type)
    (hra : st.resolve a = some r) (hrb : st.resolve b = some q) (hne : r ≠ q) :
    ∃ type', Poses st type' type ∧ ¬ st.SameType s (some type') (some type) := by
  by_cases hr : s.resolve type = some r
  · exact ⟨b, hb, not_sameType hrb fun heq => hne (Option.some.inj (hr.symm.trans heq))⟩
  · exact ⟨a, ha, not_sameType hra hr⟩

theorem exists_impostor (hvalue : ∃ t, st.valueType type = .ok t)
    (h : ¬ (st.Sole type ∧ st.resolve type = s.resolve type)) :
    ∃ type', Poses st type' type ∧ ¬ st.SameType s (some type') (some type) := by
  have hint := resolve_int st
  have hposes (c : TypeName) (hc : c.get = type.get) (hret : ∃ t, st.returnType (some c) = .ok t) : Poses st c type :=
    ⟨.inl (by rw [hc]), by rwa [valueType, hc], hret⟩
  by_cases harray : type.get = ascii "array"
  · have hret := hvalue
    rw [valueType, harray] at hret
    exact exists_impostor_of_two (hposes (.list false (named "int")) harray.symm hret)
      (hposes (.list false (.list false (named "int"))) harray.symm hret) (by rw [resolve, hint]; rfl)
      (by rw [resolve, resolve, hint]; rfl) (by simp)
  by_cases htuple : type.get = ascii "tuple"
  · exact exists_impostor_of_two (hposes (.tuple false []) htuple.symm ⟨_, rfl⟩)
      (hposes (.tuple false [named "int"]) htuple.symm ⟨_, rfl⟩) (by rw [resolve, resolveAll]; rfl)
      (by rw [resolve, resolveAll, hint, resolveAll]; rfl) (by simp)
  obtain ⟨t, ht⟩ := hvalue
  have hself : st.resolve type = some (.value t) := by
    rw [resolve_eq ⟨harray, htuple⟩, llvmType_ok.mp ht]
    rfl
  have htype : Poses st type type := hposes type rfl ⟨t, by rw [returnType_eq htuple, ht]⟩
  by_cases hsole : st.Sole type
  · -- the type itself stands for something else in the other scope
    refine ⟨type, htype, not_sameType hself fun heq => h ⟨hsole, ?_⟩⟩
    rw [hself, heq]
  · have hsuffix : ¬ (st.resolveAlias type.get = type.get → ∀ name t,
        (46 :: type.get).isSuffixOf (st.resolveAlias name) = true →
        st.llvmType (st.resolveAlias name) = .ok t → st.llvmType type.get = .ok t) :=
      fun hall => hsole ⟨⟨harray, htuple⟩, hall⟩
    push Not at hsuffix
    obtain ⟨hfixed, name, t', hends, ht', hne⟩ := hsuffix
    refine exists_impostor_of_two (b := .symbol false name) (q := .value t') htype
      ⟨.inr ⟨hfixed, hends⟩, ⟨t', ht'⟩, t', ht'⟩ hself ?_ ?_
    · rw [resolve]
      change (st.typeHandler.getLLVMType (st.resolveAlias name)).map _ = _
      rw [llvmType_ok.mp ht']
      rfl
    · rintro heq
      cases heq
      rw [valueType, hfixed] at ht
      exact hne ht

theorem exists_not_conforms_of_names (h : Implementable st ki ifs) (kc implements : Bytes) (internal : Bool)
    (hrep : ¬ ((methodsOf ifs.body).map Method.name).Nodup) :
    ∃ (cls : ClassDeclaration ν) (mc : MetaClass), classMeta st kc cls (newMetaClass ki internal) = .ok mc ∧
      ¬ st.Conforms s cls ifs := by
  obtain ⟨mi, -, hmi, -, -, hplace, -⟩ := h.known
  obtain ⟨m, hm, j, hlast, hle⟩ := exists_unasked hplace hrep
  have hserves := h.serves (fun name => name ≠ m.name) (fun m hm => passes_plain (h.types m hm)) (by
    intro mc hmc i name hi hlt
    refine decide_eq_true fun hname => ?_
    cases hmi.symm.trans hmc
    have hindex := hname ▸ (h.asked hmc hi).1
    rw [byIndex_length hplace] at hlt
    cases hlast.symm.trans hindex
    omega)
  obtain ⟨mc, hmc⟩ := classMeta_total hserves kc implements internal
  refine ⟨_, mc, hmc, fun hconforms => ?_⟩
  obtain ⟨m', hm', hname, -⟩ := hconforms m hm
  rw [methodsOf_classOf] at hm'
  obtain ⟨m'', hm'', rfl⟩ := mem_map.mp hm'
  exact of_decide_eq_true (mem_filter.mp hm'').2 hname

theorem exists_not_conforms_of_types (h : Implementable st ki ifs) (kc implements : Bytes) (internal : Bool)
    (hnodup : ((methodsOf ifs.body).map Method.name).Nodup) (hm : m ∈ methodsOf ifs.body) (htype : type ∈ m.types)
    (hsole : ¬ (st.Sole type ∧ st.resolve type = s.resolve type)) :
    ∃ (cls : ClassDeclaration ν) (mc : MetaClass), classMeta st kc cls (newMetaClass ki internal) = .ok mc ∧
      ¬ st.Conforms s cls ifs := by
  obtain ⟨type', hposes, hdiffers⟩ := exists_impostor (types_iff.mp (h.types m hm) type htype) hsole
  let σ : TypeName → TypeName := fun i => if i.get = type.get then type' else plain i
  have hσ : σ type = type' := if_pos rfl
  have hserves := h.serves (σ := σ) (fun _ => true) (fun m hm i hi => by
    by_cases hget : i.get = type.get
    · exact hposes.passes hget (if_pos hget)
    · have := passes_plain (h.types m hm) i hi
      exact ⟨by rw [show σ i = plain i from if_neg hget]; exact this.matched,
        by rw [show σ i = plain i from if_neg hget]; exact this.value,
        by rw [show σ i = plain i from if_neg hget]; exact this.returned⟩) fun _ _ _ _ _ _ => rfl
  obtain ⟨mc, hmc⟩ := classMeta_total hserves kc implements internal
  refine ⟨_, mc, hmc, fun hconforms => ?_⟩
  obtain ⟨m', hm', hname, hparams, hreturn⟩ := hconforms m hm
  rw [methodsOf_classOf] at hm'
  obtain ⟨m'', hm'', rfl⟩ := mem_map.mp hm'
  obtain rfl : m'' = m := inj_on_of_nodup_map hnodup (mem_filter.mp hm'').1 hm hname
  rcases mem_append.mp htype with htype | htype
  · obtain ⟨p, hp, rfl⟩ := mem_map.mp htype
    rw [Method.retype, forall₂_map_left_iff, forall₂_same] at hparams
    exact hdiffers (hσ ▸ hparams p hp)
  · rw [Option.mem_toList] at htype
    rw [Method.retype, htype] at hreturn
    exact hdiffers (hσ ▸ hreturn)

end Classes

/-- In every run, a class conforms to an interface that repeats no name and whose
types are known by their names and stand in the scope of the class for what they
stand for in another scope, such as that of the interface. In any state, every
class that is accepted conforms just when the interface is of this kind. -/
theorem conformance :
    (∀ (st₀ st : State) (pkgs : List (PackageEntry × List (Statement ν))), st₀.Wf → (∀ e ∈ pkgs, DotFree e.2) →
      declareAll st₀ pkgs = .ok st → ∀ p tree q tree', (p, tree) ∈ pkgs → (q, tree') ∈ pkgs →
      ∀ ifs ∈ interfaceDeclarations tree, ∀ cls ∈ classDeclarations tree', ∀ mc,
      st.classes.lookup (attach q.name cls.name) = some mc → mc.implements = attach p.name ifs.name →
      (∃ t, st.HasClass t (attach q.name cls.name) cls) ∧ ∀ t, st.HasClass t (attach q.name cls.name) cls →
        ∀ s, Uniform t s ifs → t.Conforms s cls ifs) ∧
      ∀ (st s : State) (ki : Bytes) (ifs : InterfaceDeclaration ν), Implementable st ki ifs → ki ≠ [] →
        ((∀ (kc : Bytes) (cls : ClassDeclaration ν) (internal : Bool) (mc : MetaClass),
          classMeta st kc cls (newMetaClass ki internal) = .ok mc → st.Conforms s cls ifs) ↔ Uniform st s ifs) := by
  refine ⟨?_, fun st s ki ifs h hne => ⟨fun hall => ⟨?_, fun m hm type htype => ?_⟩, fun hu kc cls internal mc =>
    conforms_of_uniform h.known h.dotFree hne hu⟩⟩
  · intro st₀ st pkgs hwf hdot h p tree q tree' hp hq ifs hifs cls hcls mc hmc himpl
    have hi := (declareAll_has h hwf hdot hp).1 ifs hifs
    refine ⟨(declareAll_has h hwf hdot hq).2 cls hcls, fun t hc s hu => ?_⟩
    obtain ⟨mc₁, mc', hmeta, hmc', hsame, hknown⟩ := hc
    cases hmc.symm.trans hmc'
    have hki : t.resolveAlias cls.implements = attach p.name ifs.name := by
      rw [← himpl, hsame.implements, (classMeta_layout hmeta).1]
    have hne : attach p.name ifs.name ≠ [] := by simp [attach]
    rw [hki] at hmeta hknown
    obtain ⟨-, -, hsameAt⟩ := hknown hne
    exact conforms_of_uniform (hi.kept ⟨hsameAt.classes.symm, hsameAt.methods.symm⟩) ((hdot _ hp).1 ifs hifs) hne hu hmeta
  · by_contra hrep
    obtain ⟨cls, mc, hmc, hnot⟩ := exists_not_conforms_of_names h [] [] false hrep
    exact hnot (hall [] cls false mc hmc)
  · by_contra hsole
    by_cases hnodup : ((methodsOf ifs.body).map Method.name).Nodup
    · obtain ⟨cls, mc, hmc, hnot⟩ := exists_not_conforms_of_types h [] [] false hnodup hm htype hsole
      exact hnot (hall [] cls false mc hmc)
    · obtain ⟨cls, mc, hmc, hnot⟩ := exists_not_conforms_of_names h [] [] false hnodup
      exact hnot (hall [] cls false mc hmc)

/-- Every scope is the same to an interface that writes no types. -/
theorem conformance_greeting : ∃ st t : State, declareAll initial [(package "a", greeting)] = .ok st ∧
    t.Conforms st greeter greets := by
  obtain ⟨st, mc, h, hmc, himpl⟩ := greeting_declared
  obtain ⟨⟨t, ht⟩, hall⟩ := conformance.1 initial st _ initial_wf greeting_dotFree h _ _ _ _ mem_cons_self mem_cons_self
    greets mem_cons_self greeter mem_cons_self mc hmc himpl
  refine ⟨st, t, h, hall t ht st ⟨by decide, fun m hm type htype => ?_⟩⟩
  obtain rfl : m = ⟨ascii "f", [], none, false⟩ := mem_singleton.mp hm
  cases htype

/-- A method takes a list of integers in the interface, and a list of lists of
strings in the class; in the other interface it takes an integer, and in the
class an object of a class `int`. -/
theorem accepted_mismatches : ((declare initial (package "a")
        [interfaceNode "I" [methodNode "f" [⟨ascii "x", .list false (named "int")⟩] none false],
          interfaceNode "J" [methodNode "g" [⟨ascii "x", named "int"⟩] none false], classNode "int" [] "",
          classNode "C" [methodNode "f" [⟨ascii "x", .list false (.list false (named "string"))⟩] none false] "a.I",
          classNode "D" [methodNode "g" [⟨ascii "x", named "a.int"⟩] none false] "a.J"]).toOption.map fun st =>
      [.list false (named "int"), .list false (.list false (named "string")), named "int", named "a.int"].map
        st.resolve) = some [some (.array (.value .i64)), some (.array (.array (.value .string))), some (.value .i64),
        some (.value (.udt (ascii "a.int")))] := by
  rfl

end Picasso.Declare
