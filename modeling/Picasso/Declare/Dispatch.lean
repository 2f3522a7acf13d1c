import Picasso.Declare.Implementing

namespace Picasso.Declare

open Lexing Parsing Lib.Folds Lib.Numbering List Method Option AList

variable {ν : Type} {st st' t : State} {k ki kc : Bytes} {ifs : InterfaceDeclaration ν} {cls : ClassDeclaration ν}
  {mc : MetaClass} {pre slots : List Slot}

section Definitions

def MetaClass.pointerAt (mc : MetaClass) (i : Nat) : Option Bytes :=
  (mc.fieldIndexMap.entries.find? fun e => e.2 = i ∧ (mc.varAST.lookup e.1).isNone).map Sigma.fst

/-- Each method of an interface has one index in the interface and in a class,
where objects of the class hold the method. -/
def State.Dispatches (st : State) (ki : Bytes) (ifs : InterfaceDeclaration ν) (kc : Bytes) : Prop :=
  ∃ mi mc, st.classes.lookup ki = some mi ∧ st.classes.lookup kc = some mc ∧ ∀ m ∈ methodsOf ifs.body, ∃ i,
    mi.fieldIndexMap.lookup (attach ki m.name) = some i ∧ mc.fieldIndexMap.lookup (attach kc m.name) = some i ∧
    mc.pointerAt i = some (attach kc m.name)

end Definitions

section Indices

theorem pointerAt_eq {keys : List Bytes} {key : Bytes} {i : Nat} (h : LastPlace mc.fieldIndexMap keys) :
    mc.pointerAt i = some key ↔ mc.fieldIndexMap.lookup key = some i ∧ mc.varAST.lookup key = none := by
  have hentry (e : Sigma fun _ : Bytes => Nat) : e ∈ mc.fieldIndexMap.entries ↔ mc.fieldIndexMap.lookup e.1 = some e.2 :=
    mem_lookup_iff.symm
  rw [MetaClass.pointerAt, map_eq_some_iff]
  constructor
  · rintro ⟨e, he, rfl⟩
    have hi : e.2 = i ∧ (mc.varAST.lookup e.1).isNone := by simpa using find?_some he
    exact ⟨hi.1 ▸ (hentry e).mp (mem_of_find?_eq_some he), isNone_iff_eq_none.mp hi.2⟩
  · rintro ⟨hkey, hvar⟩
    obtain ⟨e, he⟩ : ∃ e, mc.fieldIndexMap.entries.find?
        (fun e => e.2 = i ∧ (mc.varAST.lookup e.1).isNone) = some e := by
      rw [← isSome_iff_exists, find?_isSome]
      exact ⟨⟨key, i⟩, (hentry ⟨key, i⟩).mpr hkey, by simp [hvar]⟩
    have hi : e.2 = i ∧ (mc.varAST.lookup e.1).isNone := by simpa using find?_some he
    refine ⟨e, he, h.inj ?_ hkey⟩
    rw [(hentry e).mp (mem_of_find?_eq_some he), hi.1]

theorem interfaceMethodsByIndex_names {index : AList fun _ : Bytes => Nat} {names : List Bytes}
    (h : LastPlace index (names.map (attach ki))) (hdot : ∀ name ∈ names, 46 ∉ name) (hnodup : names.Nodup) :
    (List.range (interfaceMethodsByIndex index).entries.length).filterMap (interfaceMethodsByIndex index).lookup =
      names := by
  have hkeys : (names.map (attach ki)).Nodup := hnodup.map fun _ _ => attach_inj.mp
  obtain ⟨hlookup, hlength⟩ := h.byPlace (f := endName)
  change (List.range (byPlace endName index).entries.length).filterMap (byPlace endName index).lookup = names
  have hget (j : Nat) : (byPlace endName index).lookup j = names[j]? := by
    refine Option.ext fun name => ?_
    rw [hlookup]
    constructor
    · rintro ⟨key, hkey, rfl⟩
      rw [h.lookup_of_nodup hkeys, getElem?_map, map_eq_some_iff] at hkey
      obtain ⟨name, hname, rfl⟩ := hkey
      rw [endName_attach (hdot name (mem_of_getElem? hname)), hname]
    · intro hname
      refine ⟨attach ki name, ?_, endName_attach (hdot name (mem_of_getElem? hname))⟩
      rw [h.lookup_of_nodup hkeys, getElem?_map, hname]
      rfl
  rw [hlength, hkeys.dedup, length_map, funext hget, range_filterMap]

theorem ClassLayout.front_index (h : ClassLayout st kc cls mc pre slots) {s : Slot} {j : Nat} (hs : pre[j]? = some s)
    (hapart : ∀ f ∈ fieldsOf cls.body, f.name ≠ s.name) : mc.fieldIndexMap.lookup (attach kc s.name) = some j := by
  have hj := (List.getElem?_eq_some_iff.mp hs).1
  have hs' : (pre ++ slots)[j]? = some s := by rw [getElem?_append_left hj, hs]
  refine (h.index _ _).mpr ⟨by rw [getElem?_map, hs']; rfl, fun i hi hget => ?_⟩
  rw [getElem?_map, map_eq_some_iff] at hget
  obtain ⟨s', hget, hname⟩ := hget
  rw [attach_inj] at hname
  cases hfield : s'.isField with
  | true =>
    obtain ⟨f, hf, hfname⟩ := h.field_of_slot (mem_of_getElem? hget) hfield
    exact hapart f hf (hfname.trans hname)
  | false =>
    have hpair : (pre ++ slots).Pairwise fun a b => a.isField = false → b.isField = false → a.name ≠ b.name := by
      have := h.placed.methodNames
      rw [List.Nodup, pairwise_map, pairwise_filter] at this
      simpa using this
    obtain ⟨hj', rfl⟩ := List.getElem?_eq_some_iff.mp hs'
    obtain ⟨hi', rfl⟩ := List.getElem?_eq_some_iff.mp hget
    exact pairwise_iff_getElem.mp hpair j i hj' hi' hi (h.isField _ (mem_of_getElem? hs)) hfield hname.symm

end Indices

theorem dispatches_iff (hi : st.HasInterface ki ifs) (hc : st.HasClass t kc cls) (hne : ki ≠ [])
    (himpl : t.resolveAlias cls.implements = ki) (hdot : ∀ m ∈ methodsOf ifs.body, 46 ∉ m.name)
    (hnodup : ((methodsOf ifs.body).map name).Nodup) :
    st.Dispatches ki ifs kc ↔ ∀ f ∈ fieldsOf cls.body, ∀ m ∈ methodsOf ifs.body, f.name ≠ m.name := by
  obtain ⟨mi, sigs, hmi, hsigs, -, hplace, -⟩ := hi
  obtain ⟨mc1, mc, hmeta, hmc, hsame, hknown⟩ := hc
  obtain ⟨-, -, hknown⟩ := hknown (himpl ▸ hne)
  obtain ⟨hmcimpl, -, pre, slots, hlayout⟩ := classMeta_layout hmeta
  rw [himpl] at hknown hmcimpl
  replace hplace : LastPlace mi.fieldIndexMap (((methodsOf ifs.body).map name).map (attach ki)) := by
    rwa [List.map_map]
  have hindex : LastPlace mc.fieldIndexMap ((pre ++ slots).map fun s => attach kc s.name) :=
    hsame.fieldIndexMap ▸ hlayout.index
  constructor
  · rintro ⟨mi', mc', hmi', hmc', hall⟩ f hf m hm hname
    cases hmc.symm.trans hmc'
    obtain ⟨i, -, -, hpointer⟩ := hall m hm
    obtain ⟨-, hvar⟩ := (pointerAt_eq hindex).mp hpointer
    obtain ⟨s, hs, hslot⟩ := hlayout.fields hf
    have hsome := (hlayout.varAST m.name).mpr ⟨s, hs, hslot.isField, hslot.name.trans hname⟩
    rw [← hsame.varAST, hvar] at hsome
    cases hsome
  · intro hapart
    have hnames : pre.map Slot.name = (methodsOf ifs.body).map name := by
      obtain ⟨mi', hmi'⟩ : ∃ mi', t.interfaces.lookup ki = some mi' := by
        have hsome : (t.methodsAt ki).isSome := by simp [← hknown.methods, hsigs]
        rw [State.methodsAt, isSome_map, isSome_iff_exists] at hsome
        exact hsome
      have hfront := hlayout.front mi mi' (hmcimpl ▸ hne)
        (by rw [hmcimpl, ← hknown.classes, hmi]) (by rw [hmcimpl, hmi'])
      rw [hfront.names]
      exact interfaceMethodsByIndex_names hplace (by simpa using hdot) hnodup
    refine ⟨mi, mc, hmi, hmc, fun m hm => ?_⟩
    obtain ⟨j, hj⟩ := mem_iff_getElem?.mp (mem_map_of_mem (f := name) hm)
    have hslot := hj
    rw [← hnames, getElem?_map, map_eq_some_iff] at hslot
    obtain ⟨s, hs, hname⟩ := hslot
    have hlookup := hlayout.front_index hs fun f hf => hname ▸ hapart f hf m hm
    rw [← hsame.fieldIndexMap, hname] at hlookup
    refine ⟨j, ?_, hlookup, (pointerAt_eq hindex).mpr ⟨hlookup, ?_⟩⟩
    · rw [hplace.lookup_of_nodup (hnodup.map fun _ _ => attach_inj.mp), getElem?_map, hj]
      rfl
    · rw [hsame.varAST, ← not_isSome_iff_eq_none, hlayout.varAST]
      rintro ⟨s', hs', hfield, hname'⟩
      obtain ⟨f, hf, hfname⟩ := hlayout.field_of_slot hs' hfield
      exact hapart f hf m hm (hfname.trans hname')

section Extensions

variable {m : Method} {ms : List Method} {implements : Bytes}

theorem exists_longer (l : List Bytes) : ∃ n, ∀ x ∈ l, x.length < n := by
  induction l with
  | nil => exact ⟨0, by simp⟩
  | cons a l ih =>
    obtain ⟨n, hn⟩ := ih
    refine ⟨max n (a.length + 1), forall_mem_cons.mpr ⟨by omega, fun x hx => ?_⟩⟩
    have := hn x hx
    omega

variable {pkg : PackageEntry}

theorem declareFunc_total (hm : st.ClassTypes m) (hmc : (st.classes.lookup (attach pkg.name cls.name)).isSome) :
    ∃ st', declareFunc pkg cls st m = .ok st' := by
  obtain ⟨mc, hmc⟩ := isSome_iff_exists.mp hmc
  obtain ⟨⟨retType, hret⟩, params, hparams⟩ := hm
  rw [declareFunc, hparams]
  change ∃ st', (st.returnType m.returnType >>= fun _ => _) = _
  rw [hret, hmc]
  exact ⟨_, rfl⟩

theorem declareOpaqueClass_total {mi : MetaInterface} (hnone : st.classes.lookup (attach pkg.name cls.name) = none)
    (hne : st.resolveAlias cls.implements ≠ []) (hmi : st.interfaces.lookup (st.resolveAlias cls.implements) = some mi) :
    ∃ st', declareOpaqueClass st cls pkg = .ok st' ∧
      st'.typeHandler = { st.typeHandler with classUDTS := attach pkg.name cls.name :: st.typeHandler.classUDTS } := by
  rw [declareOpaqueClass]
  dsimp only
  rw [if_neg (by simp [hnone]), if_neg hne, hmi]
  exact ⟨_, rfl, rfl⟩

theorem defineClass_total {mc mc' : MetaClass} (hmc : st.classes.lookup (attach pkg.name cls.name) = some mc)
    (hmeta : classMeta st (attach pkg.name cls.name) cls mc = .ok mc') :
    defineClass st cls pkg = .ok { st with classes := st.classes.insert (attach pkg.name cls.name) mc' } := by
  rw [defineClass, hmc]
  change (classMeta st (attach pkg.name cls.name) cls mc >>= fun _ => _) = _
  rw [hmeta]
  rfl

theorem declareClassFuncs_total (htypes : ∀ m ∈ methodsOf cls.body, st.ClassTypes m)
    (hmc : (st.classes.lookup (attach pkg.name cls.name)).isSome) : ∃ st', declareClassFuncs st cls pkg = .ok st' := by
  have hround : ∀ done m rest s, methodsOf cls.body = done ++ m :: rest →
      SameScope st s ∧ (s.classes.lookup (attach pkg.name cls.name)).isSome →
      ∃ s', declareFunc pkg cls s m = .ok s' ∧
        SameScope st s' ∧ (s'.classes.lookup (attach pkg.name cls.name)).isSome := by
    rintro done m rest s hms ⟨hscope, hs⟩
    obtain ⟨s', hs'⟩ := declareFunc_total ((htypes m (by simp [hms])).scope hscope) hs
    obtain ⟨hreg, -⟩ := declareFunc_ok hs'
    obtain ⟨-, mc', -, hmc', -⟩ := hreg.entry
    exact ⟨s', hs', hscope.trans hreg.scope, by simp [hmc']⟩
  obtain ⟨st', hst', -⟩ := foldlM_total hround ⟨.refl st, hmc⟩
  exact ⟨st', hst'⟩

def copyNode (ifs : InterfaceDeclaration ν) (implements : Bytes) : Statement ν :=
  .classDeclaration nowhere (ascii "C") (classOf (copies ifs) implements : ClassDeclaration ν).body implements false

/-- A package with a class that copies an interface is accepted, if it leaves the
names of the types alone. -/
theorem declare_copy {q : PackageEntry} (h : Implementable st ki ifs) (hne : ki ≠ [])
    (hfresh : st.classes.lookup (attach q.name (ascii "C")) = none)
    (himpl : resolveAlias (st.aliasMap.insert q.importAlias q.name) implements = ki)
    (htypes : ∀ m ∈ methodsOf ifs.body, ∀ type ∈ m.types,
      resolveAlias (st.aliasMap.insert q.importAlias q.name) type.get = st.resolveAlias type.get) :
    ∃ st', declare st q [copyNode ifs implements] = .ok st' := by
  obtain ⟨mc, sigs, hmc, hsigs, hrest⟩ := h.known
  obtain ⟨mi, hmi, rfl⟩ : ∃ mi, st.interfaces.lookup ki = some mi ∧ mi.methods = sigs := by
    simpa [State.methodsAt] using hsigs
  have hkc : ki ≠ attach q.name (ascii "C") := by
    rintro rfl
    exact absurd (hmc.symm.trans hfresh) (by simp)
  let s1 : State := { st with aliasMap := st.aliasMap.insert q.importAlias q.name }
  let cls : ClassDeclaration ν := classOf (copies ifs) implements
  have hs1 : s1.resolveAlias cls.implements = ki := himpl
  obtain ⟨s2, hs2, hhandler⟩ : ∃ s2, declareOpaqueClass s1 cls q = .ok s2 ∧ s2.typeHandler =
      { st.typeHandler with classUDTS := attach q.name (ascii "C") :: st.typeHandler.classUDTS } :=
    declareOpaqueClass_total hfresh (hs1 ▸ hne) (hs1 ▸ hmi)
  obtain ⟨-, hclasses, hmethods, -, halias, -⟩ := declareOpaqueClass_ok hs2
  rw [hs1] at hclasses
  replace hclasses : s2.classes = st.classes.insert (attach q.name (ascii "C")) (newMetaClass ki false) := hclasses
  have himpl2 : Implementable s2 ki ifs := by
    refine ⟨⟨mc, mi.methods, ?_, (hmethods ki).trans hsigs, hrest⟩, h.dotFree, fun m hm => ?_⟩
    · rw [hclasses, lookup_insert_ne hkc]
      exact hmc
    · refine (h.types m hm).extend (fun type htype => ?_) (fun c hc => ?_) ?_
      · rw [State.resolveAlias, halias, insert_insert]
        exact htypes m hm type htype
      · rw [hhandler]
        exact mem_cons_of_mem _ hc
      · rw [hhandler]
  obtain ⟨mc2, hmc2⟩ := classMeta_total himpl2.serves_copies (attach q.name (ascii "C")) implements false
  have hs3 : defineClass s2 cls q =
      .ok { s2 with classes := s2.classes.insert (attach q.name (ascii "C")) mc2 } :=
    defineClass_total (by rw [hclasses]; exact lookup_insert _) hmc2
  obtain ⟨st', hst'⟩ : ∃ st', declareClassFuncs
      { s2 with classes := s2.classes.insert (attach q.name (ascii "C")) mc2 } cls q = .ok st' := by
    refine declareClassFuncs_total (fun m hm => ?_) ?_
    · rw [methodsOf_classOf] at hm
      exact (himpl2.serves_copies.types m hm).scope ⟨rfl, rfl⟩
    · change (AList.lookup (attach q.name (ascii "C")) _).isSome = true
      rw [lookup_insert]
      rfl
  refine ⟨st', ?_⟩
  change (declareOpaqueClass s1 cls q >>= pure) >>= (fun s =>
    (defineClass s cls q >>= pure) >>= fun s => declareClassFuncs s cls q >>= pure) = .ok st'
  rw [hs2]
  change ((defineClass s2 cls q >>= pure) >>= fun s => declareClassFuncs s cls q >>= pure) = .ok st'
  rw [hs3]
  change (declareClassFuncs _ cls q >>= pure) = .ok st'
  rw [hst']
  rfl

theorem not_dispatches_copy (hi : st.HasInterface ki ifs)
    (hc : st.HasClass t kc (classOf (copies ifs) implements : ClassDeclaration ν))
    (hrep : ¬ ((methodsOf ifs.body).map name).Nodup) : ¬ st.Dispatches ki ifs kc := by
  rintro ⟨mi, mc, hmi, hmc, hall⟩
  obtain ⟨mi', sigs, hmi', -, -, hplace, -⟩ := hi
  cases hmi.symm.trans hmi'
  obtain ⟨mc1, mc', hmeta, hmc', hsame, -⟩ := hc
  cases hmc.symm.trans hmc'
  obtain ⟨-, -, pre, slots, hlayout⟩ := classMeta_layout hmeta
  have hlength : (pre ++ slots).length ≤ ((methodsOf ifs.body).map name).dedup.length := by
    have hnodup : ((pre ++ slots).map Slot.name).Nodup := hlayout.names_nodup (by simp [fieldsOf_classOf])
    rw [← length_map (f := Slot.name)]
    refine (subperm_of_subset hnodup fun name hname => ?_).length_le
    obtain ⟨s, hs, rfl⟩ := mem_map.mp hname
    have hmethod : s.isField = false := by
      by_contra hfield
      obtain ⟨f, hf, -⟩ := hlayout.field_of_slot hs (by simpa using hfield)
      rw [fieldsOf_classOf] at hf
      cases hf
    obtain ⟨m, hm, hslot⟩ := hlayout.placed.methods s hs hmethod
    have hmem := mem_of_findMethod hm
    rw [methodsOf_classOf] at hmem
    obtain ⟨m', hm', rfl⟩ := mem_map.mp hmem
    exact mem_dedup.mpr (mem_map.mpr ⟨m', hm', hslot.name.symm⟩)
  obtain ⟨m, hm, j, hlast, hle⟩ := exists_unasked hplace hrep
  obtain ⟨i, hindex, hclass, -⟩ := hall m hm
  cases hindex.symm.trans hlast
  have hbound := hlayout.index.lt (hsame.fieldIndexMap ▸ hclass)
  rw [length_map] at hbound
  omega

end Extensions

section Runs

variable {pkg : PackageEntry} {tree : List (Statement ν)}

theorem Phases.aliasMap {s1 s2 s3 s4 s5 : State} (hp : Phases pkg tree st s1 s2 s3 s4 s5 st') :
    st'.aliasMap = st.aliasMap.insert pkg.importAlias pkg.name := by
  have h3 := loop_sameScope hp.udts fun _ _ _ => defineInterfaceUDT_onlyAt
  rw [(((h3.trans hp.scope₃).trans hp.scope₄).trans hp.scope₅).aliasMap, hp.classes.aliasMap, hp.interfaces.aliasMap]

theorem exists_not_dispatches (hwf : st.Wf) (hdot : DotFree tree) (h : declare st pkg tree = .ok st')
    (hi : ifs ∈ interfaceDeclarations tree) (halias : 46 ∉ pkg.importAlias)
    (hrep : ¬ ((methodsOf ifs.body).map name).Nodup) :
    ∃ q implements st'' mc, declare st' q [copyNode ifs implements] = .ok st'' ∧
      st''.classes.lookup (attach q.name (ascii "C")) = some mc ∧ mc.implements = attach pkg.name ifs.name ∧
      ¬ st''.Dispatches (attach pkg.name ifs.name) ifs (attach q.name (ascii "C")) := by
  obtain ⟨s1, s2, s3, s4, s5, hp⟩ := declare_phases h
  obtain ⟨hknown, htypes⟩ := hp.interface hwf hdot hi
  -- a name that is longer than all others
  obtain ⟨n, hn⟩ := exists_longer (pkg.importAlias :: st'.classes.keys ++
    (methodsOf ifs.body).flatMap fun m => m.types.map TypeName.get)
  simp only [cons_append, forall_mem_cons, forall_mem_append] at hn
  obtain ⟨hnalias, hnkeys, hntypes⟩ := hn
  let x : Bytes := List.replicate n 120
  let q : PackageEntry := ⟨x, x⟩
  have hx : x.length = n := length_replicate
  have hne : attach pkg.name ifs.name ≠ [] := by simp [attach]
  have hfresh : st'.classes.lookup (attach x (ascii "C")) = none := by
    rw [lookup_eq_none]
    intro hmem
    have := hnkeys _ hmem
    simp only [attach, length_append, hx] at this
    omega
  have himpl : resolveAlias (st'.aliasMap.insert x x) (attach pkg.importAlias ifs.name) = attach pkg.name ifs.name := by
    have hxne : pkg.importAlias ≠ x := fun heq => by
      rw [heq, hx] at hnalias
      omega
    rw [attach, resolveAlias_dot halias, lookup_insert_ne hxne, hp.aliasMap, lookup_insert]
    rfl
  have hscope (m : Method) (hm : m ∈ methodsOf ifs.body) (type : TypeName) (htype : type ∈ m.types) :
      resolveAlias (st'.aliasMap.insert x x) type.get = st'.resolveAlias type.get := by
    refine resolveAlias_eq fun _ => congrArg (Option.getD · _) (lookup_insert_ne fun heq => ?_)
    have hlength := hntypes type.get (mem_flatMap.mpr ⟨m, hm, mem_map_of_mem htype⟩)
    have hle : (qualifier type.get).length ≤ type.get.length := (takeWhile_sublist _).length_le
    rw [heq, hx] at hle
    omega
  obtain ⟨st'', hst''⟩ := declare_copy (q := q) ⟨hknown, hdot.1 ifs hi, htypes⟩ hne hfresh himpl hscope
  obtain ⟨u1, u2, u3, u4, u5, hp'⟩ := declare_phases hst''
  have hdot' : DotFree [copyNode ifs (attach pkg.importAlias ifs.name)] := by
    refine ⟨by simp [interfaceDeclarations, copyNode], fun cls hcls m hm => ?_⟩
    obtain rfl : cls = classOf (copies ifs) (attach pkg.importAlias ifs.name) := mem_singleton.mp hcls
    rw [methodsOf_classOf] at hm
    obtain ⟨m', hm', rfl⟩ := mem_map.mp hm
    exact hdot.1 ifs hi m' hm'
  obtain ⟨t, hscope', hclass⟩ := hp'.class (hp.wf hwf hdot) hdot'
    (mem_singleton.mpr rfl : classOf (copies ifs) (attach pkg.importAlias ifs.name) ∈ classDeclarations [_])
  obtain ⟨mc', mc, hmeta, hmc, hsame, -⟩ := id hclass
  refine ⟨q, _, st'', mc, hst'', hmc, ?_, not_dispatches_copy (hknown.kept (hp'.kept ?_)) hclass hrep⟩
  · rw [hsame.implements, (classMeta_layout hmeta).1, ← hscope'.resolveAlias, State.resolveAlias, hp'.aliasMap]
    exact himpl
  · obtain ⟨mi, -, hmi, -⟩ := hknown
    simp [hmi]

/-- In every run, the methods of an interface that repeats no name are found in a
class that implements it, just when no field of the class has the name of one.
An interface that repeats a name can be implemented by a class where they are
not found. -/
theorem dispatch_layout :
    (∀ (st₀ st : State) (pkgs : List (PackageEntry × List (Statement ν))), st₀.Wf → (∀ e ∈ pkgs, DotFree e.2) →
      declareAll st₀ pkgs = .ok st → ∀ p tree q tree', (p, tree) ∈ pkgs → (q, tree') ∈ pkgs →
      ∀ ifs ∈ interfaceDeclarations tree, ∀ cls ∈ classDeclarations tree', ∀ mc,
      st.classes.lookup (attach q.name cls.name) = some mc → mc.implements = attach p.name ifs.name →
      ((methodsOf ifs.body).map Method.name).Nodup →
      (st.Dispatches (attach p.name ifs.name) ifs (attach q.name cls.name) ↔
        ∀ f ∈ fieldsOf cls.body, ∀ m ∈ methodsOf ifs.body, f.name ≠ m.name)) ∧
      ∀ (st st' : State) (p : PackageEntry) (tree : List (Statement ν)), st.Wf → DotFree tree → 46 ∉ p.importAlias →
        declare st p tree = .ok st' → ∀ ifs ∈ interfaceDeclarations tree,
        ¬ ((methodsOf ifs.body).map Method.name).Nodup →
        ∃ q implements st'' mc, declare st' q [copyNode ifs implements] = .ok st'' ∧
          st''.classes.lookup (attach q.name (ascii "C")) = some mc ∧ mc.implements = attach p.name ifs.name ∧
          ¬ st''.Dispatches (attach p.name ifs.name) ifs (attach q.name (ascii "C")) := by
  refine ⟨?_, fun st st' p tree hwf hdot halias h ifs hi => exists_not_dispatches hwf hdot h hi halias⟩
  intro st₀ st pkgs hwf hdot h p tree q tree' hp hq ifs hifs cls hcls mc hmc himpl hnodup
  have hi := (declareAll_has h hwf hdot hp).1 ifs hifs
  obtain ⟨t, hc⟩ := (declareAll_has h hwf hdot hq).2 cls hcls
  refine dispatches_iff hi hc (by simp [attach]) ?_ ((hdot _ hp).1 ifs hifs) hnodup
  obtain ⟨mc₁, mc', hmeta, hmc', hsame, -⟩ := hc
  cases hmc.symm.trans hmc'
  rw [← himpl, hsame.implements, (classMeta_layout hmeta).1]

def greets : InterfaceDeclaration Empty := ⟨ascii "I", [methodNode "f" [] none false]⟩

def greeter : ClassDeclaration Empty :=
  ⟨ascii "C", [fieldNode "x" (named "int") false, methodNode "f" [] none false], ascii "a.I", false⟩

def greeting : List (Statement Empty) := [interfaceNode "I" greets.body, classNode "C" greeter.body "a.I"]

theorem greeting_dotFree : ∀ e ∈ [(package "a", greeting)], DotFree e.2 := by
  refine forall_mem_singleton.mpr ?_
  rw [DotFree]
  decide

theorem greeting_declared : ∃ st mc, declareAll initial [(package "a", greeting)] = .ok st ∧
    st.classes.lookup (ascii "a.C") = some mc ∧ mc.implements = ascii "a.I" := by
  obtain ⟨st, h⟩ : ∃ st, declareAll initial [(package "a", greeting)] = .ok st := exists_of_isOk (by decide +kernel)
  have hmc : (declareAll initial [(package "a", greeting)]).toOption.bind (fun st =>
      (st.classes.lookup (ascii "a.C")).map MetaClass.implements) = some (ascii "a.I") := by decide +kernel
  rw [h] at hmc
  obtain ⟨mc, hmc, himpl⟩ := map_eq_some_iff.mp hmc
  exact ⟨st, mc, h, hmc, himpl⟩

/-- A class with the method of its interface and a field of another name. -/
theorem dispatch_layout_greeting : ∃ st, declareAll initial [(package "a", greeting)] = .ok st ∧
    st.Dispatches (ascii "a.I") greets (ascii "a.C") := by
  obtain ⟨st, mc, h, hmc, himpl⟩ := greeting_declared
  exact ⟨st, h, (dispatch_layout.1 initial st _ initial_wf greeting_dotFree h _ _ _ _ mem_cons_self mem_cons_self
    greets mem_cons_self greeter mem_cons_self mc hmc himpl (by decide)).mpr (by decide)⟩

/-- An interface with a method `f` twice, a class that implements it, and one
that implements another interface and has a field of the name of its method. -/
def repeating : List (Statement Empty) :=
  [interfaceNode "I" [methodNode "f" [] none false, methodNode "g" [] none false, methodNode "f" [] none false],
    interfaceNode "J" [methodNode "f" [] none false],
    classNode "C" [methodNode "f" [] none false, methodNode "g" [] none false] "a.I",
    classNode "D" [methodNode "f" [] none false, fieldNode "f" (named "int") false] "a.J"]

/-- The second method `f` of the interface has the index 2 there; the class has
`g` and `f` at 0 and 1. The class with the field has its method at 0, but finds
the field at 1 under the name. -/
theorem repeating_indices : ((declare initial (package "a") repeating).toOption.map fun st =>
      [("a.I", "a.I.f"), ("a.I", "a.I.g"), ("a.C", "a.C.f"), ("a.C", "a.C.g"), ("a.J", "a.J.f"), ("a.D", "a.D.f")].map
        fun e => (st.classes.lookup (ascii e.1)).bind fun mc => mc.fieldIndexMap.lookup (ascii e.2)) =
      some [some 2, some 1, some 1, some 0, some 0, some 1] := by
  decide +kernel

end Runs

end Picasso.Declare
