import Picasso.Declare.Members

namespace Picasso.Declare

open Lexing Parsing Lib.Folds Lib.Numbering List Method State

variable {ν : Type} {st st' : State} {k ki kc : Bytes} {ifs : InterfaceDeclaration ν} {cls : ClassDeclaration ν}
  {m m' : Method} {ms : List Method} {b : ClassFields}

section Signatures

variable {mi : MetaInterface} {sig : MethodSig} {name : Bytes}

def State.Matches (st : State) (classType interfaceType : Option TypeName) : Prop :=
  st.writtenType classType = st.expectedType (st.writtenType classType) interfaceType

def State.MatchesSignature (st : State) (m : Method) (parameters : List Parameter) (returnType : Option TypeName) :
    Prop :=
  List.Forall₂ (fun p q : Parameter => st.Matches (some p.type) (some q.type)) m.parameters parameters ∧
    st.Matches m.returnType returnType

theorem validateInterfaceMethodSignature_ok (hsig : mi.methods.lookup name = some sig) :
    validateInterfaceMethodSignature st k name m mi = .ok () ↔ st.MatchesSignature m sig.parameters sig.returnType := by
  have hparam (e : (Parameter × Parameter) × Nat) :
      validateParameter st k name e = .ok () ↔ st.Matches (some e.1.1.type) (some e.1.2.type) := check_isOk
  have hreturn : validateReturn st k name m.returnType sig.returnType = .ok () ↔
      st.Matches m.returnType sig.returnType := check_isOk
  have hloop : (m.parameters.zip sig.parameters).zipIdx.forM (validateParameter st k name) = .ok () ↔
      ∀ e ∈ m.parameters.zip sig.parameters, st.Matches (some e.1.type) (some e.2.type) := by
    rw [forM_isOk]
    simp only [hparam]
    conv_rhs => rw [← zipIdx_map_fst 0 (m.parameters.zip sig.parameters), forall_mem_map]
  rw [validateInterfaceMethodSignature, hsig]
  dsimp only
  split
  · next hlength =>
    refine ⟨fun h => (by cases h), fun h => absurd h.1.length_eq hlength⟩
  · next hlength =>
    rw [seq_isOk, hloop, hreturn, State.MatchesSignature, forall₂_iff_zip, and_iff_right (not_not.mp hlength)]
    exact and_congr_left fun _ => ⟨fun h a b => h (a, b), fun h e => h⟩

end Signatures

section Types

variable {th th' : TypeHandler} {x : Bytes}

def Method.types (m : Method) : List TypeName := m.parameters.map Parameter.type ++ m.returnType.toList

theorem types_iff : st.Types m ↔ ∀ type ∈ m.types, ∃ t, st.valueType type = .ok t := by
  rw [State.Types, paramTypes, mapM_isOk, types, forall_mem_append, and_comm]
  refine and_congr ?_ ?_
  · rw [forall_mem_map]
  · cases m.returnType with
    | none => exact ⟨fun _ => by simp, fun _ => ⟨.void, rfl⟩⟩
    | some type => simp [interfaceReturnType]

theorem getLLVMType_mono (hc : ∀ c ∈ th.classUDTS, c ∈ th'.classUDTS) (hi : th'.interfaceUDTS = th.interfaceUDTS)
    (h : (th.getLLVMType x).isSome) : (th'.getLLVMType x).isSome := by
  rw [TypeHandler.getLLVMType] at h ⊢
  split
  · rfl
  · next hne =>
    rw [if_neg hne] at h
    split
    · rfl
    · next hnative =>
      rw [hnative] at h
      dsimp only at h
      split
      · rfl
      · next hknown =>
        have hknown' : ¬ (x ∈ th.classUDTS ∨ x ∈ th.interfaceUDTS) := by
          rintro (hx | hx)
          · exact hknown (.inl (hc x hx))
          · exact hknown (.inr (hi ▸ hx))
        rw [if_neg hknown'] at h
        split
        · rfl
        · next hfind' =>
          have hfind : th.classUDTS.find? (fun fqName => (46 :: x).isSuffixOf fqName) = none := by
            rw [find?_eq_none] at hfind' ⊢
            exact fun c hmem => hfind' c (hc c hmem)
          rw [hfind] at h
          rw [hi]
          exact h

theorem State.Types.extend (h : st.Types m) (hx : ∀ type ∈ m.types, st'.resolveAlias type.get = st.resolveAlias type.get)
    (hc : ∀ c ∈ st.typeHandler.classUDTS, c ∈ st'.typeHandler.classUDTS)
    (hi : st'.typeHandler.interfaceUDTS = st.typeHandler.interfaceUDTS) : st'.Types m := by
  have hok (s : State) (type : TypeName) :
      (∃ t, s.valueType type = .ok t) ↔ (s.typeHandler.getLLVMType (s.resolveAlias type.get)).isSome := by
    rw [valueType, llvmType]
    cases s.typeHandler.getLLVMType (s.resolveAlias type.get) <;> simp
  rw [types_iff] at h ⊢
  intro type htype
  rw [hok, hx type htype]
  exact getLLVMType_mono hc hi ((hok st type).mp (h type htype))

end Types

section Classes

def Method.node (m : Method) : Statement ν :=
  .functionDefinition nowhere m.parameters m.name [] 0 m.returnType false m.isInternal

def classOf (ms : List Method) (implements : Bytes) : ClassDeclaration ν :=
  ⟨ascii "C", ms.map Method.node, implements, false⟩

theorem methodsOf_classOf (ms : List Method) (implements : Bytes) :
    methodsOf (classOf ms implements : ClassDeclaration ν).body = ms := by
  rw [methodsOf, classOf, filterMap_map]
  exact filterMap_some

theorem fieldsOf_classOf (ms : List Method) (implements : Bytes) :
    fieldsOf (classOf ms implements : ClassDeclaration ν).body = [] := by
  rw [fieldsOf, classOf, flatMap_map]
  simp [fieldsIn, node]

def State.ClassTypes (st : State) (m : Method) : Prop :=
  (∃ t, st.returnType m.returnType = .ok t) ∧ ∃ ts, st.paramTypes m.parameters = .ok ts

theorem methodType_isOk (k : Bytes) : (∃ t, st.methodType k m = .ok t) ↔ st.ClassTypes m := by
  constructor
  · rintro ⟨t, ht⟩
    obtain ⟨retType, hret, ht⟩ := bind_eq_ok ht
    obtain ⟨params, hparams, -⟩ := bind_eq_ok ht
    exact ⟨⟨retType, hret⟩, params, hparams⟩
  · rintro ⟨⟨retType, hret⟩, params, hparams⟩
    rw [methodType, hret]
    change ∃ t, (st.paramTypes m.parameters >>= fun _ => _) = .ok t
    rw [hparams]
    exact ⟨_, rfl⟩

theorem State.ClassTypes.scope (h : st.ClassTypes m) (hs : SameScope st st') : st'.ClassTypes m := by
  rw [State.ClassTypes, hs.paramTypes, hs.returnType]
  exact h

theorem nextMethod_total (hnew : attach k m.name ∉ b.funcs) (ht : st.ClassTypes m) :
    ∃ b', nextMethod st k b m = .ok b' ∧ b'.funcs = attach k m.name :: b.funcs := by
  obtain ⟨t, ht⟩ := (methodType_isOk k).mpr ht
  rw [nextMethod, defineMethod]
  dsimp only
  rw [if_neg hnew, ht]
  exact ⟨_, rfl, rfl⟩

/-- The methods of a class are such that it can implement an interface: the types
that they have are known, and there are those that are asked for. -/
structure Serves (st : State) (ki : Bytes) (ifs : InterfaceDeclaration ν) (ms : List Method) : Prop where
  known : st.HasInterface ki ifs
  types : ∀ m ∈ ms, st.ClassTypes m
  implements : ∀ mc, st.classes.lookup ki = some mc → ∀ j name,
    (interfaceMethodsByIndex mc.fieldIndexMap).lookup j = some name →
    j < (interfaceMethodsByIndex mc.fieldIndexMap).entries.length →
    mc.fieldIndexMap.lookup (attach ki name) = some j ∧ ∃ m m', findMethod ifs.body name = some m ∧
      ms.find? (fun m => m.name = name) = some m' ∧ st.MatchesSignature m' m.parameters m.returnType

theorem defineInterfaceMethods_total (h : Serves st ki ifs ms) (hb : b.clsMeta.implements = ki) (hf : b.funcs = [])
    (kc implements : Bytes) :
    ∃ b', defineInterfaceMethods st kc (classOf ms implements : ClassDeclaration ν) b = .ok b' := by
  obtain ⟨mc, sigs, hmc, hsigs, -, -, hlookup⟩ := h.known
  obtain ⟨mi, hmi, rfl⟩ : ∃ mi, st.interfaces.lookup ki = some mi ∧ mi.methods = sigs := by
    simpa [methodsAt] using hsigs
  rw [defineInterfaceMethods, hb, hmc, hmi]
  split
  · exact ⟨b, rfl⟩
  · dsimp only
    have hasked := h.implements mc hmc
    generalize interfaceMethodsByIndex mc.fieldIndexMap = byIndex at hasked
    have hround : ∀ done j rest b, List.range byIndex.entries.length = done ++ j :: rest →
        (∀ g ∈ b.funcs, ∃ j ∈ done, ∃ name, byIndex.lookup j = some name ∧ g = attach kc name) →
        ∃ b', defineInterfaceSlot st kc (classOf ms implements : ClassDeclaration ν) mi byIndex b j = .ok b' ∧
          ∀ g ∈ b'.funcs, ∃ i ∈ done ++ [j], ∃ name, byIndex.lookup i = some name ∧ g = attach kc name := by
      intro done j rest b hrange hb
      have hlt : ∀ i ∈ done ++ j :: rest, i < byIndex.entries.length := fun i hi =>
        mem_range.mp (hrange ▸ hi)
      have hold : ∀ g ∈ b.funcs, ∃ i ∈ done ++ [j], ∃ name, byIndex.lookup i = some name ∧ g = attach kc name := by
        intro g hg
        obtain ⟨i, hi, hgi⟩ := hb g hg
        exact ⟨i, mem_append_left _ hi, hgi⟩
      rw [defineInterfaceSlot]
      split
      · exact ⟨b, rfl, hold⟩
      · next name hj =>
        obtain ⟨hindex, m, m', hm, hm', hmatches⟩ := hasked j name hj (hlt j (by simp))
        have hfind : findMethod (classOf ms implements : ClassDeclaration ν).body name = some m' := by
          rw [findMethod, methodsOf_classOf, hm']
        have hname := findMethod_name hfind
        have hnew : attach kc m'.name ∉ b.funcs := by
          intro hmem
          obtain ⟨i, hi, name', hname', heq⟩ := hb _ hmem
          obtain rfl : name = name' := hname.symm.trans (attach_inj.mp heq)
          obtain ⟨hindex', -⟩ := hasked i name hname' (hlt i (by simp [hi]))
          obtain rfl : i = j := Option.some.inj (hindex'.symm.trans hindex)
          have hnodup := hrange ▸ nodup_range
          exact (nodup_append.mp hnodup).2.2 i hi i mem_cons_self rfl
        obtain ⟨b', hb', hfuncs⟩ := nextMethod_total hnew (h.types m' (mem_of_find?_eq_some hm'))
        have hsig : mi.methods.lookup name = some ⟨m.parameters, m.returnType⟩ := by
          rw [hlookup, hm]
          rfl
        refine ⟨b', ?_, ?_⟩
        · rw [hfind]
          dsimp only
          rw [(validateInterfaceMethodSignature_ok hsig).mpr hmatches]
          exact hb'
        · rw [hfuncs]
          exact forall_mem_cons.mpr ⟨⟨j, by simp, name, hj, by rw [hname]⟩, hold⟩
    obtain ⟨b', hb', -⟩ := foldlM_total hround (s := b) (by simp [hf])
    exact ⟨b', hb'⟩

theorem classMeta_total (h : Serves st ki ifs ms) (kc implements : Bytes) (internal : Bool) :
    ∃ mc, classMeta st kc (classOf ms implements : ClassDeclaration ν) (newMetaClass ki internal) = .ok mc := by
  obtain ⟨b1, hb1⟩ := defineInterfaceMethods_total (b := ⟨newMetaClass ki internal, [], 0, [], []⟩) h rfl rfl kc
    implements
  have hround : ∀ done stmt rest b, (classOf ms implements : ClassDeclaration ν).body = done ++ stmt :: rest → True →
      ∃ b', defineMember st kc b stmt = .ok b' ∧ True := by
    intro done stmt rest b hbody _
    have hmem : stmt ∈ (classOf ms implements : ClassDeclaration ν).body := by simp [hbody]
    obtain ⟨m, hm, rfl⟩ := mem_map.mp hmem
    rw [defineMember_method (m := m) rfl]
    split
    · exact ⟨b, rfl, trivial⟩
    · next hnew =>
      obtain ⟨b', hb', -⟩ := nextMethod_total hnew (h.types m hm)
      exact ⟨b', hb', trivial⟩
  obtain ⟨b2, hb2, -⟩ := foldlM_total (I := fun _ _ => True) hround (s := b1) trivial
  refine ⟨{ b2.clsMeta with fields := b2.fieldTypes }, ?_⟩
  rw [classMeta, hb1]
  change (List.foldlM (defineMember st kc) b1 (classOf ms implements).body >>= fun _ => _) = _
  rw [hb2]
  rfl

end Classes

section Copies

structure Implementable (st : State) (ki : Bytes) (ifs : InterfaceDeclaration ν) : Prop where
  known : st.HasInterface ki ifs
  dotFree : ∀ m ∈ methodsOf ifs.body, 46 ∉ m.name
  types : ∀ m ∈ methodsOf ifs.body, st.Types m

theorem Implementable.asked {mc : MetaClass} {j : Nat} {name : Bytes} (h : Implementable st ki ifs)
    (hmc : st.classes.lookup ki = some mc) (hj : (interfaceMethodsByIndex mc.fieldIndexMap).lookup j = some name) :
    mc.fieldIndexMap.lookup (attach ki name) = some j ∧ ∃ m, findMethod ifs.body name = some m := by
  obtain ⟨mc', sigs, hmc', -, -, hplace, -⟩ := h.known
  cases hmc.symm.trans hmc'
  obtain ⟨key, hkey, rfl⟩ := ((hplace.byPlace (f := endName)).1 j name).mp hj
  obtain ⟨m, hm, rfl⟩ := mem_map.mp (mem_of_getElem? ((hplace key j).mp hkey).1)
  rw [endName_attach (h.dotFree m hm)]
  refine ⟨hkey, ?_⟩
  rw [← Option.isSome_iff_exists, findMethod, find?_isSome]
  exact ⟨m, hm, by simp⟩

theorem dedup_length_lt {names : List Bytes} (h : ¬ names.Nodup) : names.dedup.length < names.length := by
  refine Nat.lt_of_le_of_ne names.dedup_sublist.length_le fun heq => h ?_
  rw [← dedup_eq_self]
  exact names.dedup_sublist.eq_of_length heq

variable {index : AList fun _ : Bytes => Nat}

/-- The last method of an interface that repeats a name has an index that is not
gone through. -/
theorem exists_unasked
    (h : LastPlace index ((methodsOf ifs.body).map fun m => attach ki m.name))
    (hrep : ¬ ((methodsOf ifs.body).map name).Nodup) :
    ∃ m ∈ methodsOf ifs.body, ∃ j, index.lookup (attach ki m.name) = some j ∧
      ((methodsOf ifs.body).map name).dedup.length ≤ j := by
  have hlt := dedup_length_lt hrep
  rcases eq_nil_or_concat (methodsOf ifs.body) with hnil | ⟨ms, m, hms⟩
  · rw [hnil] at hrep
    exact absurd nodup_nil hrep
  · rw [length_map] at hlt
    refine ⟨m, by simp [hms], ms.length, (h _ _).mpr ⟨by simp [hms], fun j hj => ?_⟩, ?_⟩
    · rw [getElem?_eq_none (by simp [hms]; omega)]
      simp
    · have : (methodsOf ifs.body).length = ms.length + 1 := by simp [hms]
      omega

theorem byIndex_length
    (h : LastPlace index ((methodsOf ifs.body).map fun m => attach ki m.name)) :
    (interfaceMethodsByIndex index).entries.length = ((methodsOf ifs.body).map name).dedup.length := by
  rw [show (fun m : Method => attach ki m.name) = attach ki ∘ name from rfl, ← map_map] at h
  have hlength := (h.byPlace (f := endName)).2
  rw [dedup_map_of_injective fun _ _ => attach_inj.mp, length_map] at hlength
  exact hlength

def Method.retype (σ : TypeName → TypeName) (m : Method) : Method :=
  ⟨m.name, m.parameters.map fun p => ⟨p.name, σ p.type⟩, m.returnType.map σ, false⟩

/-- The types in a class pass for those of the interface, and are known. -/
structure Passes (st : State) (σ : TypeName → TypeName) (type : TypeName) : Prop where
  matched : st.Matches (some (σ type)) (some type)
  value : ∃ t, st.valueType (σ type) = .ok t
  returned : ∃ t, st.returnType (some (σ type)) = .ok t

variable {σ : TypeName → TypeName}

theorem matches_retype (h : ∀ type ∈ m.types, Passes st σ type) :
    st.MatchesSignature (m.retype σ) m.parameters m.returnType := by
  refine ⟨?_, ?_⟩
  · rw [retype, forall₂_map_left_iff, forall₂_same]
    exact fun p hp => (h p.type (mem_append_left _ (mem_map_of_mem hp))).matched
  · cases hret : m.returnType with
    | none => simp [retype, hret, State.Matches, writtenType, expectedType]
    | some type =>
      rw [retype, hret]
      exact (h type (mem_append_right _ (by simp [hret]))).matched

theorem classTypes_retype (h : ∀ type ∈ m.types, Passes st σ type) : st.ClassTypes (m.retype σ) := by
  refine ⟨?_, ?_⟩
  · cases hret : m.returnType with
    | none =>
      rw [retype, hret]
      exact ⟨.void, rfl⟩
    | some type =>
      rw [retype, hret]
      exact (h type (mem_append_right _ (by simp [hret]))).returned
  · rw [paramTypes, retype, mapM_isOk, forall_mem_map]
    exact fun p hp => (h p.type (mem_append_left _ (mem_map_of_mem hp))).value

theorem Implementable.serves (h : Implementable st ki ifs) (keep : Bytes → Bool)
    (hσ : ∀ m ∈ methodsOf ifs.body, ∀ type ∈ m.types, Passes st σ type)
    (hkeep : ∀ mc, st.classes.lookup ki = some mc → ∀ j name,
      (interfaceMethodsByIndex mc.fieldIndexMap).lookup j = some name →
      j < (interfaceMethodsByIndex mc.fieldIndexMap).entries.length → keep name = true) :
    Serves st ki ifs (((methodsOf ifs.body).filter fun m => keep m.name).map (retype σ)) := by
  refine ⟨h.known, fun m' hm' => ?_, fun mc hmc j name hj hlt => ?_⟩
  · obtain ⟨m, hm, rfl⟩ := mem_map.mp hm'
    exact classTypes_retype (hσ m (mem_filter.mp hm).1)
  · obtain ⟨hindex, m, hm⟩ := h.asked hmc hj
    refine ⟨hindex, m, m.retype σ, hm, ?_, matches_retype (hσ m (mem_of_findMethod hm))⟩
    have hname : (fun m : Method => decide (keep m.name = true ∧
        ((fun m : Method => decide (m.name = name)) ∘ retype σ) m = true)) = fun m => decide (m.name = name) := by
      funext m
      by_cases heq : m.name = name
      · simp [retype, heq, hkeep mc hmc j name hj hlt]
      · simp [retype, heq]
    rw [findMethod] at hm
    rw [find?_map, find?_filter, hname, hm]
    rfl

def plain : TypeName → TypeName
  | .tuple _ _ => .symbol false (ascii "tuple")
  | type => type

theorem plain_get (type : TypeName) : (plain type).get = type.get := by
  cases type <;> rfl

theorem passes_plain (h : st.Types m) : ∀ type ∈ m.types, Passes st plain type := by
  intro type htype
  have hvalue : st.valueType (plain type) = st.valueType type := by
    rw [valueType, valueType, plain_get]
  refine ⟨?_, hvalue ▸ types_iff.mp h type htype, ?_⟩
  · simp [State.Matches, writtenType, expectedType, plain_get]
  · have hreturn : st.returnType (some (plain type)) = st.valueType (plain type) := by
      cases type <;> rfl
    exact hreturn ▸ hvalue ▸ types_iff.mp h type htype

def copies (ifs : InterfaceDeclaration ν) : List Method := (methodsOf ifs.body).map (Method.retype plain)

theorem Implementable.serves_copies (h : Implementable st ki ifs) : Serves st ki ifs (copies ifs) := by
  have := h.serves (fun _ => true) (fun m hm => passes_plain (h.types m hm)) fun _ _ _ _ _ _ => rfl
  rwa [filter_true] at this

end Copies

end Picasso.Declare
