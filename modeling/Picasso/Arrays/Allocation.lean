import Picasso.Arrays.Operations

namespace Picasso.Arrays.Allocation

open Lib.Memory Lib.Stateful Heap Operations
open List hiding length
open Alloc.Allocator (payloadSize)

section Trees

/-- The bytes of the data of an array with `d` slots, which hold elements or,
if there are further dimensions `ds`, sub-arrays. -/
def dataSize (es d : Nat) (ds : List Nat) : Nat := d * (if ds = [] then es else 8)

def totalSize (es : Nat) : List Nat → Nat
  | [] => 0
  | d :: ds => SIZEOF_ARRAY + (ds.length + 1) * 8 + dataSize es d ds + d * totalSize es ds

/-- No size that is computed for the arrays wraps around. -/
def Fits (es : Nat) : List Nat → Prop
  | [] => True
  | d :: ds => SIZEOF_ARRAY + (ds.length + 1) * 8 + 15 < 2 ^ 64 ∧ dataSize es d ds + 15 < 2 ^ 64 ∧ Fits es ds

def subArrays (m : Nat → UInt8) (a d : Nat) (ds : List Nat) : List Nat := if ds = [] then [] else cells m 8 (dataPtr m a) d

def blocks (m : Nat → UInt8) (es : Nat) : List Nat → Nat → List Block
  | [], _ => []
  | d :: ds, a =>
    ⟨a, payloadSize (SIZEOF_ARRAY + (ds.length + 1) * 8)⟩ :: ⟨dataPtr m a, payloadSize (dataSize es d ds)⟩ ::
      (subArrays m a d ds).flatMap (blocks m es ds)

structure Header (m : Nat → UInt8) (es d : Nat) (ds : List Nat) (a : Nat) : Prop where
  fields : Fields m a d (ds.length + 1) d es
  shapePtr : shapePtr m a = a + SIZEOF_ARRAY
  shape : cells m 8 (Operations.shapePtr m a) (ds.length + 1) = d :: ds

def Jagged (m : Nat → UInt8) (es : Nat) : List Nat → Nat → Prop
  | [], _ => True
  | d :: ds, a =>
    Header m es d ds a ∧ (ds = [] → ∀ i < d * es, m (dataPtr m a + i) = 0) ∧ (subArrays m a d ds).Nodup ∧
      ∀ c ∈ subArrays m a d ds, Jagged m es ds c

end Trees

section Frames

variable {m m' : Nat → UInt8} {es d a p n : Nat} {ds : List Nat}

theorem Header.congr (h : Header m es d ds a) (hm : Agree m m' a (SIZEOF_ARRAY + (ds.length + 1) * 8)) :
    Header m' es d ds a := by
  have hstruct : Agree m m' a SIZEOF_ARRAY := hm.mono (le_refl a) (by omega)
  have hshape := shapePtr_congr hstruct
  refine ⟨h.fields.congr hstruct, ?_, ?_⟩
  · rw [hshape, h.shapePtr]
  · rw [hshape, ← h.shape]
    apply cells_congr
    rw [h.shapePtr]
    exact hm.mono (by omega) (by omega)

theorem dataSize_le_totalSize (es d : Nat) (ds : List Nat) :
    SIZEOF_ARRAY + (ds.length + 1) * 8 + dataSize es d ds ≤ totalSize es (d :: ds) := by
  rw [totalSize]
  omega

variable {dims : List Nat}

theorem fits_of_totalSize (hpos : ∀ d ∈ dims, 0 < d) (hfit : totalSize es dims < 2 ^ 64) : Fits es dims := by
  induction dims with
  | nil => trivial
  | cons d ds ih =>
    have htotal := dataSize_le_totalSize es d ds
    have hsub := Nat.le_mul_of_pos_left (totalSize es ds) (hpos d (mem_cons_self ..))
    rw [totalSize] at hfit
    simp only [Fits, SIZEOF_ARRAY] at *
    refine ⟨?_, by omega, ih (fun d hd => hpos d (mem_cons_of_mem _ hd)) (by omega)⟩
    cases ds with
    | nil => decide
    | cons d' ds =>
      have := dataSize_le_totalSize es d' ds
      simp only [SIZEOF_ARRAY] at this
      omega

theorem Jagged.congr (h : Jagged m es dims a) (hfit : Fits es dims)
    (hm : ∀ b ∈ blocks m es dims a, Agree m m' b.addr b.size) :
    Jagged m' es dims a ∧ blocks m' es dims a = blocks m es dims a := by
  induction dims generalizing a with
  | nil => exact ⟨trivial, rfl⟩
  | cons d ds ih =>
    obtain ⟨hheader, hzero, hnodup, hsub⟩ := h
    obtain ⟨hstruct, hdata, hrest⟩ := hfit
    have hown : Agree m m' a (SIZEOF_ARRAY + (ds.length + 1) * 8) :=
      (hm _ (mem_cons_self ..)).mono (le_refl a) (Nat.add_le_add_left (le_payloadSize hstruct) a)
    have hdat : Agree m m' (dataPtr m a) (dataSize es d ds) :=
      (hm _ (mem_cons_of_mem _ (mem_cons_self ..))).mono (le_refl _)
        (Nat.add_le_add_left (le_payloadSize hdata) _)
    have hptr : dataPtr m' a = dataPtr m a := dataPtr_congr (hown.mono (le_refl a) (by omega))
    have hsubs : subArrays m' a d ds = subArrays m a d ds := by
      unfold subArrays
      split
      · rfl
      · next hne =>
        rw [hptr]
        apply cells_congr
        rwa [dataSize, if_neg hne, Nat.mul_comm] at hdat
    have hkids : ∀ c ∈ subArrays m a d ds, Jagged m' es ds c ∧ blocks m' es ds c = blocks m es ds c := by
      intro c hc
      apply ih (hsub c hc) hrest
      intro b hb
      exact hm b (mem_cons_of_mem _ (mem_cons_of_mem _ (mem_flatMap.mpr ⟨c, hc, hb⟩)))
    refine ⟨⟨hheader.congr hown, ?_, ?_, ?_⟩, ?_⟩
    · intro he i hi
      rw [dataSize, if_pos he] at hdat
      rw [hptr, ← hzero he i hi]
      exact (hdat i hi).symm
    · rwa [hsubs]
    · rw [hsubs]
      exact fun c hc => (hkids c hc).1
    · rw [blocks, blocks, hptr, hsubs]
      congr 2
      exact flatMap_congr fun c hc => (hkids c hc).2

end Frames

section Run

variable {A : Allocator} {es d arr dt p size : Nat} {ds : List Nat}

def initialized (m : Nat → UInt8) (es d : Nat) (ds : List Nat) (p size arr dt : Nat) : Nat → UInt8 :=
  let m := copy (store (store m 8 arr dt) 8 (arr + 8) (arr + SIZEOF_ARRAY)) (arr + SIZEOF_ARRAY) p ((ds.length + 1) * 8)
  let m := store (store (store m 8 (arr + 32) d) 8 (arr + 16) d) 8 (arr + 24) (ds.length + 1)
  fill (store m 4 (arr + 40) es) dt 0 size

variable {s t u : State} {data : Block} {new : List Block} {dims : List Nat}

theorem initArray_eq (harr : s.holds arr (SIZEOF_ARRAY + (ds.length + 1) * 8)) (hdt : s.holds dt size)
    (hp : s.holds p ((ds.length + 1) * 8)) (hbound : arr + SIZEOF_ARRAY < 2 ^ 64) (hdt' : dt < 2 ^ 64) (hd : d < 2 ^ 63)
    (hes : es < 2 ^ 31) (hrank : ds.length + 1 < 2 ^ 63) :
    initArray es (ds.length + 1) p d size arr dt s = .ok ((), s.put (initialized s.mem es d ds p size arr dt)) := by
  have hfield (k w : Nat) (h : k + w ≤ SIZEOF_ARRAY + (ds.length + 1) * 8) : s.holds (arr + k) w := by
    obtain ⟨b, hb, ha, hn⟩ := exists_of_holds harr
    exact holds_of_mem hb (by omega) (by omega)
  unfold SIZEOF_ARRAY at *
  have hstruct : s.holds arr 8 := hfield 0 8 (by omega)
  have hshape : s.holds (arr + 48) ((ds.length + 1) * 8) := hfield 48 _ (by omega)
  have hword : word 8 (d : Int) = d := word_natCast (by omega)
  have hword' : word 8 ((ds.length + 1 : Nat) : Int) = ds.length + 1 := word_natCast (by omega)
  have hword'' : word 4 (es : Int) = es := word_natCast (by omega)
  change initArray _ _ _ _ _ _ _ (s.put s.mem) = _
  rw [initArray, run_bind_ok (write_put hstruct _ _), run_bind_ok (write_put (hfield 8 8 (by omega)) _ _),
    run_bind_ok (read_put (hfield 8 8 (by omega)) _), SIZEOF_ARRAY, load_store_self (by omega),
    run_bind_ok (memcpy_put hshape hp _), run_bind_ok (writeInt_put (hfield 32 8 (by omega)) _ _),
    run_bind_ok (writeInt_put (hfield 16 8 (by omega)) _ _), run_bind_ok (writeInt_put (hfield 24 8 (by omega)) _ _),
    run_bind_ok (writeInt_put (hfield 40 4 (by omega)) _ _), run_bind_ok (read_put hstruct _), hword, hword', hword'',
    load_store_apart (by omega), load_store_apart (by omega), load_store_apart (by omega),
    load_store_apart (by omega), load_copy_apart (by omega), load_store_apart (by omega),
    load_store_self (by omega), memset_put hdt]
  rfl

section Initialized

variable {m : Nat → UInt8} {b n : Nat}

theorem agree_initialized (harr : arr + (SIZEOF_ARRAY + (ds.length + 1) * 8) ≤ b ∨ b + n ≤ arr)
    (hdt : dt + size ≤ b ∨ b + n ≤ dt) : Agree (initialized m es d ds p size arr dt) m b n := by
  unfold SIZEOF_ARRAY at harr
  unfold initialized SIZEOF_ARRAY
  refine (agree_overlay _ _ hdt).trans ((agree_overlay _ _ ?_).trans ((agree_overlay _ _ ?_).trans
    ((agree_overlay _ _ ?_).trans ((agree_overlay _ _ ?_).trans ((agree_overlay _ _ ?_).trans
      ((agree_overlay _ _ ?_).trans (agree_overlay _ _ ?_)))))))
  all_goals omega

theorem initialized_data {i : Nat} (hi : i < size) : initialized m es d ds p size arr dt (dt + i) = 0 := by
  unfold initialized fill
  exact overlay_at _ _ _ hi

variable (hda : dt + size ≤ arr ∨ arr + (SIZEOF_ARRAY + (ds.length + 1) * 8) ≤ dt)
include hda

theorem dataPtr_initialized (hdt : dt < 2 ^ 64) : dataPtr (initialized m es d ds p size arr dt) arr = dt := by
  unfold SIZEOF_ARRAY at hda
  unfold dataPtr initialized SIZEOF_ARRAY
  rw [load_fill_apart, load_store_apart, load_store_apart, load_store_apart, load_store_apart, load_copy_apart,
    load_store_apart, load_store_self] <;> omega

theorem header_initialized (hp : p + (ds.length + 1) * 8 ≤ arr ∨ arr + (SIZEOF_ARRAY + (ds.length + 1) * 8) ≤ p)
    (hbound : arr + SIZEOF_ARRAY < 2 ^ 64) (hd : d < 2 ^ 63) (hes : es < 2 ^ 31) (hrank : ds.length + 1 < 2 ^ 63)
    (hdims : cells m 8 p (ds.length + 1) = d :: ds) : Header (initialized m es d ds p size arr dt) es d ds arr := by
  unfold SIZEOF_ARRAY at hda hp hbound
  have hptr : shapePtr (initialized m es d ds p size arr dt) arr = arr + SIZEOF_ARRAY := by
    unfold shapePtr initialized SIZEOF_ARRAY
    rw [load_fill_apart, load_store_apart, load_store_apart, load_store_apart, load_store_apart, load_copy_apart,
      load_store_self] <;> omega
  have hcount : signed 8 d = d := signed_natCast (by omega) (by omega)
  refine ⟨⟨?_, ?_, ?_, ?_⟩, hptr, ?_⟩
  · unfold length initialized SIZEOF_ARRAY
    rw [load_fill_apart, load_store_apart, load_store_apart, load_store_self, hcount] <;> omega
  · unfold rank initialized SIZEOF_ARRAY
    rw [load_fill_apart (by omega), load_store_apart (by omega), load_store_self (by omega)]
    exact signed_natCast (by omega) (by omega)
  · unfold capacity initialized SIZEOF_ARRAY
    rw [load_fill_apart, load_store_apart, load_store_apart, load_store_apart, load_store_self, hcount] <;> omega
  · unfold elemSize initialized SIZEOF_ARRAY
    rw [load_fill_apart (by omega), load_store_self (by omega)]
    exact signed_natCast (by omega) (by omega)
  · rw [hptr, ← hdims]
    apply map_congr_left
    intro i hi
    rw [mem_range] at hi
    unfold initialized SIZEOF_ARRAY
    rw [load_fill_apart, load_store_apart, load_store_apart,
      load_store_apart, load_store_apart, load_copy _ _ _ (by omega),
      load_store_apart, load_store_apart] <;> omega

end Initialized

theorem initArray_spec
    (h : Grows s t [⟨dt, payloadSize (dataSize es d ds)⟩, ⟨arr, payloadSize (SIZEOF_ARRAY + (ds.length + 1) * 8)⟩])
    (hd' : d < 2 ^ 63) (hes : es < 2 ^ 31) (hfit : Fits es (d :: ds)) (hp : s.holds p ((ds.length + 1) * 8))
    (hdims : cells s.mem 8 p (ds.length + 1) = d :: ds) :
    ∃ u, initArray es (ds.length + 1) p d (dataSize es d ds) arr dt t = .ok ((), u) ∧
      Grows s u [⟨dt, payloadSize (dataSize es d ds)⟩, ⟨arr, payloadSize (SIZEOF_ARRAY + (ds.length + 1) * 8)⟩] ∧
      Header u.mem es d ds arr ∧ dataPtr u.mem arr = dt ∧ ∀ i < dataSize es d ds, u.mem (dt + i) = 0 := by
  obtain ⟨hstruct, hdata, -⟩ := hfit
  have hlive := h.valid.apart
  rw [h.live, cons_append, cons_append, nil_append, pairwise_cons, pairwise_cons] at hlive
  obtain ⟨hdt, harr, -⟩ := hlive
  have hle := le_payloadSize hstruct
  have hle' := le_payloadSize hdata
  have hmem := h.mem_new (mem_cons_of_mem _ (mem_cons_self ..))
  have hmem' := h.mem_new (mem_cons_self ..)
  have hbound : arr + payloadSize (SIZEOF_ARRAY + (ds.length + 1) * 8) ≤ 2 ^ 47 := (h.valid.bounds _ hmem).2.2
  have hbound' : dt + payloadSize (dataSize es d ds) ≤ 2 ^ 47 := (h.valid.bounds _ hmem').2.2
  obtain ⟨b, hb, hbp, hbp'⟩ := exists_of_holds hp
  have hda : dt + dataSize es d ds ≤ arr ∨ arr + (SIZEOF_ARRAY + (ds.length + 1) * 8) ≤ dt := by
    rcases hdt _ (mem_cons_self ..) with h' | h' <;> dsimp only at h' <;> omega
  have hpa : p + (ds.length + 1) * 8 ≤ arr ∨ arr + (SIZEOF_ARRAY + (ds.length + 1) * 8) ≤ p := by
    rcases harr b hb with h' | h' <;> dsimp only at h' <;> omega
  have hwords : cells t.mem 8 p (ds.length + 1) = d :: ds := by
    rw [cells_congr (Nat.mul_comm 8 _ ▸ h.agree hp), hdims]
  refine ⟨_, initArray_eq (holds_of_mem hmem (le_refl arr) (Nat.add_le_add_left hle arr))
    (holds_of_mem hmem' (le_refl dt) (Nat.add_le_add_left hle' dt)) (h.holds hp) ?_ (by omega) hd' hes ?_, h.put ?_,
    header_initialized hda hpa ?_ hd' hes ?_ hwords, dataPtr_initialized hda (by omega), fun i hi => initialized_data hi⟩
  · omega
  · omega
  · intro b' hb'
    apply (agree_initialized ?_ ?_).symm
    · rcases harr b' hb' with h' | h' <;> dsimp only at h' <;> omega
    · rcases hdt b' (mem_cons_of_mem _ hb') with h' | h' <;> dsimp only at h' <;> omega
  · omega
  · omega

def Builds (A : Allocator) (es : Nat) (dims : List Nat) : Prop :=
  ∀ s p, s.Valid → s.holds p (dims.length * 8) → cells s.mem 8 p dims.length = dims →
    Ends exhausted (fun a t => ∃ new, Grows s t new ∧ Jagged t.mem es dims a ∧ (blocks t.mem es dims a).Perm new)
      (allocArrayRecursive A es dims.length p s)

/-- The state while the slots of an array are being set: it has grown by the
arrays that the first ones of them hold. -/
structure Filling (s : State) (es : Nat) (ds : List Nat) (data : Block) (i : Nat) (t : State) (new : List Block) : Prop where
  valid : t.Valid
  live : t.live = new ++ s.live
  kept : ∀ b ∈ s.live, b ≠ data → Agree s.mem t.mem b.addr b.size
  jagged : ∀ c ∈ cells t.mem 8 data.addr i, Jagged t.mem es ds c
  perm : ((cells t.mem 8 data.addr i).flatMap (blocks t.mem es ds)).Perm new

theorem exists_mem_blocks (m : Nat → UInt8) (es a : Nat) (hne : ds ≠ []) : ∃ n > 0, ⟨a, n⟩ ∈ blocks m es ds a := by
  cases ds with
  | nil => exact absurd rfl hne
  | cons d ds => exact ⟨_, payloadSize_pos _, mem_cons_self ..⟩

theorem nodup_of_apart {m : Nat → UInt8} {l : List Nat} (hne : ds ≠ []) (h : (l.flatMap (blocks m es ds)).Pairwise Apart) :
    l.Nodup := by
  refine (pairwise_flatMap.mp h).2.imp ?_
  rintro a _ hapart rfl
  obtain ⟨n, hn, hmem⟩ := exists_mem_blocks m es a hne
  exact (hapart _ hmem _ hmem).ne hn rfl

theorem Filling.mem {b : Block} {i : Nat} (h : Filling s es ds data i t new) (hb : b ∈ s.live) : b ∈ t.live := by
  rw [h.live]
  exact mem_append_right _ hb

theorem Filling.new_ne {b : Block} {i : Nat} (h : Filling s es ds data i t new) (hdata : data ∈ s.live) (hb : b ∈ new) :
    b ∈ t.live ∧ b ≠ data := by
  have hmem : b ∈ t.live := by
    rw [h.live]
    exact mem_append_left _ hb
  have hapart := h.valid.apart
  rw [h.live, pairwise_append] at hapart
  exact ⟨hmem, (hapart.2.2 b hb data hdata).ne (h.valid.bounds b hmem).2.1⟩

theorem Filling.next {i a : Nat} {new' : List Block} (h : Filling s es ds data i t new) (hds : ds ≠ [])
    (hfit : Fits es ds) (hdata : data ∈ s.live) (hsize : 8 * (i + 1) ≤ data.size) (hgrows : Grows t u new')
    (hjag : Jagged u.mem es ds a) (hperm : (blocks u.mem es ds a).Perm new') :
    Filling s es ds data (i + 1) (u.put (store u.mem 8 (data.addr + 8 * i) a)) (new' ++ new) := by
  have hdu : data ∈ u.live := hgrows.mem (h.mem hdata)
  have hstore : ∀ c ∈ u.live, c ≠ data → Agree u.mem (store u.mem 8 (data.addr + 8 * i) a) c.addr c.size := by
    intro c hc hcd
    apply Agree.symm
    apply agree_overlay
    rcases hgrows.valid.apart_of_ne hc hdu hcd with hapart | hapart <;> omega
  have hold : ∀ c ∈ cells t.mem 8 data.addr i, Jagged (store u.mem 8 (data.addr + 8 * i) a) es ds c ∧
      blocks (store u.mem 8 (data.addr + 8 * i) a) es ds c = blocks t.mem es ds c := by
    intro c hc
    apply (h.jagged c hc).congr hfit
    intro b hb
    obtain ⟨hmem, hne⟩ := h.new_ne hdata (h.perm.mem_iff.mp (mem_flatMap.mpr ⟨c, hc, hb⟩))
    exact (hgrows.kept b hmem).trans (hstore b (hgrows.mem hmem) hne)
  have hnew : Jagged (store u.mem 8 (data.addr + 8 * i) a) es ds a ∧
      blocks (store u.mem 8 (data.addr + 8 * i) a) es ds a = blocks u.mem es ds a := by
    apply hjag.congr hfit
    intro b hb
    have hmem := hgrows.mem_new (hperm.mem_iff.mp hb)
    exact hstore b hmem (hgrows.new_ne (h.mem hdata) (hperm.mem_iff.mp hb))
  have haddr : a < 256 ^ 8 := by
    obtain ⟨n, -, hn⟩ := exists_mem_blocks u.mem es a hds
    have hbound : a + n ≤ 2 ^ 47 := (hgrows.valid.bounds _ (hgrows.mem_new (hperm.mem_iff.mp hn))).2.2
    omega
  have hslots : cells (store u.mem 8 (data.addr + 8 * i) a) 8 data.addr (i + 1) = cells t.mem 8 data.addr i ++ [a] := by
    have hbefore : Agree t.mem (store u.mem 8 (data.addr + 8 * i) a) data.addr (8 * i) :=
      ((hgrows.kept data (h.mem hdata)).mono (le_refl _) (by omega)).trans (agree_overlay _ _ (by omega)).symm
    rw [cells_succ, load_store_self haddr, cells_congr hbefore]
  refine ⟨hgrows.valid.put _, ?_, ?_, ?_, ?_⟩
  · rw [live_put, hgrows.live, h.live, append_assoc]
  · intro b hb hne
    exact ((h.kept b hb hne).trans (hgrows.kept b (h.mem hb))).trans (hstore b (hgrows.mem (h.mem hb)) hne)
  · rw [mem_put, hslots]
    intro c hc
    rcases mem_append.mp hc with hc | hc
    · exact (hold c hc).1
    · rw [mem_singleton.mp hc]
      exact hnew.1
  · rw [mem_put, hslots, flatMap_append, flatMap_singleton, hnew.2,
      flatMap_congr fun c hc => (hold c hc).2]
    exact (h.perm.append hperm).trans perm_append_comm

theorem Filling.step {b : Block} {i q : Nat} (h : Filling s es ds data i t new) (hbuild : Builds A es ds)
    (hds : ds ≠ []) (hfit : Fits es ds) (hdata : data ∈ s.live) (hsize : 8 * (i + 1) ≤ data.size) (hb : b ∈ s.live)
    (hne : b ≠ data) (hq : b.addr ≤ q) (hq' : q + ds.length * 8 ≤ b.addr + b.size)
    (hdims : cells s.mem 8 q ds.length = ds) : Ends exhausted (fun _ u => ∃ new', Filling s es ds data (i + 1) u new')
      ((do
        let sub ← allocArrayRecursive A es ds.length q
        write 8 (data.addr + 8 * i) sub : Op Unit) t) := by
  have hwords : cells t.mem 8 q ds.length = ds := by
    rw [cells_congr ((h.kept b hb hne).mono hq (by omega)), hdims]
  apply ends_bind
  refine (hbuild t q h.valid (holds_of_mem (h.mem hb) hq hq') hwords).mono ?_
  rintro a u ⟨new', hgrows, hjag, hperm⟩
  have hholds : u.holds (data.addr + 8 * i) 8 := holds_of_mem (hgrows.mem (h.mem hdata)) (by omega) (by omega)
  change Ends _ _ (write 8 _ a (u.put u.mem))
  rw [write_put hholds u.mem a]
  exact .ok ⟨_, h.next hds hfit hdata hsize hgrows hjag hperm⟩

theorem Filling.built {s' : State} {arr dt : Nat}
    (hgrows : Grows s s' [⟨dt, payloadSize (dataSize es d ds)⟩, ⟨arr, payloadSize (SIZEOF_ARRAY + (ds.length + 1) * 8)⟩])
    (hheader : Header s'.mem es d ds arr) (hptr : dataPtr s'.mem arr = dt) (hfit : Fits es (d :: ds)) (hds : ds ≠ [])
    (h : Filling s' es ds ⟨dt, payloadSize (dataSize es d ds)⟩ d t new) :
    ∃ new', Grows s t new' ∧ Jagged t.mem es (d :: ds) arr ∧ (blocks t.mem es (d :: ds) arr).Perm new' := by
  have hdata : ⟨dt, payloadSize (dataSize es d ds)⟩ ∈ s'.live := hgrows.mem_new (by simp)
  have hstruct : Agree s'.mem t.mem arr (SIZEOF_ARRAY + (ds.length + 1) * 8) := by
    have hne := hgrows.valid.apart
    rw [hgrows.live, cons_append, pairwise_cons] at hne
    have hkept := h.kept ⟨arr, _⟩ (hgrows.mem_new (by simp))
      (((hne.1 _ (mem_cons_self ..)).ne (payloadSize_pos _)).symm)
    exact hkept.mono (le_refl arr) (Nat.add_le_add_left (le_payloadSize hfit.1) arr)
  have hptr' : dataPtr t.mem arr = dt := by
    rw [dataPtr_congr (hstruct.mono (le_refl arr) (by omega)), hptr]
  have hsubs : subArrays t.mem arr d ds = cells t.mem 8 dt d := by rw [subArrays, if_neg hds, hptr']
  have hapart : (new ++ s'.live).Pairwise Apart := h.live ▸ h.valid.apart
  refine ⟨new ++ [⟨dt, payloadSize (dataSize es d ds)⟩, ⟨arr, payloadSize (SIZEOF_ARRAY + (ds.length + 1) * 8)⟩],
    ⟨h.valid, ?_, ?_⟩, ⟨hheader.congr hstruct, fun he => absurd he hds, ?_, ?_⟩, ?_⟩
  · rw [h.live, hgrows.live, append_assoc]
  · intro b hb
    exact (hgrows.kept b hb).trans (h.kept b (hgrows.mem hb) (hgrows.new_ne hb (by simp)).symm)
  · rw [hsubs]
    exact nodup_of_apart hds ((h.perm.pairwise_iff Or.symm).mpr (pairwise_append.mp hapart).1)
  · rw [hsubs]
    exact h.jagged
  · rw [blocks, hsubs, hptr']
    refine (List.Perm.swap ..).trans ?_
    change ([_, _] ++ _ : List Block).Perm _
    exact perm_append_comm.trans (h.perm.append_right _)

theorem word_dataSize (hd : d < 2 ^ 63) (hes : es < 2 ^ 31) (hfit : dataSize es d ds + 15 < 2 ^ 64) :
    word 8 (d : Int) * (if 1 < ds.length + 1 then 8 else word 8 (es : Int)) % 2 ^ 64 = dataSize es d ds := by
  rw [word_natCast (by omega), word_natCast (by omega)]
  have hslot : (if 1 < ds.length + 1 then 8 else es) = if ds = [] then es else 8 := by
    cases ds with
    | nil => rfl
    | cons d' ds => rw [if_pos (by simp), if_neg (cons_ne_nil d' ds)]
  rw [hslot]
  exact Nat.mod_eq_of_lt (lt_of_le_of_lt (Nat.le_add_right _ 15) hfit)

theorem dataSize_pos (hes : 0 < es) (hd : 0 < d) : 0 < dataSize es d ds := by
  refine Nat.mul_pos hd ?_
  split <;> omega

theorem built_leaf (hgrows : Grows s u [⟨dt, payloadSize (dataSize es d [])⟩, ⟨arr, payloadSize (SIZEOF_ARRAY + 8)⟩])
    (hheader : Header u.mem es d [] arr) (hptr : dataPtr u.mem arr = dt)
    (hzero : ∀ i < dataSize es d [], u.mem (dt + i) = 0) :
    ∃ new, Grows s u new ∧ Jagged u.mem es [d] arr ∧ (blocks u.mem es [d] arr).Perm new := by
  refine ⟨_, hgrows, ⟨hheader, fun _ => ?_, nodup_nil, fun c hc => absurd hc not_mem_nil⟩, ?_⟩
  · rwa [hptr]
  · rw [blocks, hptr]
    exact List.Perm.swap ..

theorem fill_ends (hbuild : Builds A es ds) (hds : ds ≠ []) (hfit : Fits es (d :: ds))
    (hgrows : Grows s u [⟨dt, payloadSize (dataSize es d ds)⟩, ⟨arr, payloadSize (SIZEOF_ARRAY + (ds.length + 1) * 8)⟩])
    (hheader : Header u.mem es d ds arr) (hptr : dataPtr u.mem arr = dt) (hp : s.holds p ((ds.length + 1) * 8))
    (hdims : cells s.mem 8 (p + 8) ds.length = ds) : Ends exhausted
      (fun _ t => ∃ new, Grows s t new ∧ Jagged t.mem es (d :: ds) arr ∧ (blocks t.mem es (d :: ds) arr).Perm new)
      (upto (fun i => do
        let sub ← allocArrayRecursive A es ds.length (p + 8)
        write 8 (dt + 8 * i) sub) d u) := by
  obtain ⟨b, hb, hbp, hbp'⟩ := exists_of_holds hp
  have hwords : cells u.mem 8 (p + 8) ds.length = ds := by
    rw [cells_congr ((hgrows.kept b hb).mono (by omega) (by omega)), hdims]
  have hslots := le_payloadSize hfit.2.1
  rw [show dataSize es d ds = d * 8 by rw [dataSize, if_neg hds]] at hslots
  refine (ends_upto (fun i t => ∃ new, Filling u es ds ⟨dt, payloadSize (dataSize es d ds)⟩ i t new) d
    ⟨[], hgrows.valid, rfl, fun _ _ _ => Agree.refl _ _ _, ?_, ?_⟩ ?_).mono ?_
  · exact fun c hc => absurd hc not_mem_nil
  · exact List.Perm.nil
  · rintro i hi t ⟨new, hfill⟩
    refine hfill.step hbuild hds hfit.2.2 (hgrows.mem_new (mem_cons_self ..)) ?_ (hgrows.mem hb)
      (hgrows.new_ne hb (mem_cons_self ..)).symm (by omega) (by omega) hwords
    rw [show dataSize es d ds = d * 8 by rw [dataSize, if_neg hds]]
    exact le_trans (by omega) hslots
  · rintro - t ⟨new, hfill⟩
    exact hfill.built hgrows hheader hptr hfit hds

theorem builds (hes : 0 < es) (hint : es < 2 ^ 31) (hne : dims ≠ []) (hpos : ∀ d ∈ dims, 0 < d ∧ d < 2 ^ 63)
    (hfit : Fits es dims) : Builds A es dims := by
  induction dims with
  | nil => exact absurd rfl hne
  | cons d ds ih =>
    intro s p hs hp hdims
    obtain ⟨hd, hd'⟩ := hpos d (mem_cons_self ..)
    have hsplit := hdims
    rw [length_cons, cells_cons, cons_eq_cons] at hsplit
    obtain ⟨hcount, hrest⟩ := hsplit
    have hread : readInt 8 p s = .ok ((d : Int), s) := by
      obtain ⟨b, hb, hbp, hbp'⟩ := exists_of_holds hp
      rw [length_cons] at hbp'
      rw [readInt_eq (holds_of_mem hb hbp (by omega)), hcount, signed_natCast (by omega) (by omega)]
    rw [length_cons, allocArrayRecursive, run_bind_ok hread, run_bind_ok (assert_eq (by omega))]
    simp only [word_dataSize hd' hint hfit.2.1, Int.toNat_natCast]
    apply ends_bind
    refine (allocate_ends hs (by unfold SIZEOF_ARRAY; omega)).mono ?_
    intro arr s1 h1
    apply ends_bind
    refine (allocate_ends h1.valid (dataSize_pos hes hd)).mono ?_
    intro dt s2 h2
    obtain ⟨u, hinit, hgrows, hheader, hptr, hzero⟩ := initArray_spec (h1.trans h2) hd' hint hfit hp hdims
    rw [run_bind_ok hinit]
    by_cases he : ds = []
    · subst he
      exact .ok (built_leaf hgrows hheader hptr hzero)
    · have hlen := length_pos_iff.mpr he
      have hholds : u.holds arr 8 :=
        holds_of_mem (hgrows.mem_new (mem_cons_of_mem _ (mem_cons_self ..))) (le_refl arr)
          (Nat.add_le_add_left (le_trans (by unfold SIZEOF_ARRAY; omega) (le_payloadSize hfit.1)) arr)
      have hbuild := ih he (fun d' hd' => hpos d' (mem_cons_of_mem _ hd')) hfit.2.2
      rw [if_pos (by omega), run_bind_ok (read_eq hholds), show load u.mem 8 arr = dt from hptr]
      apply ends_bind
      refine (fill_ends hbuild he hfit hgrows hheader hptr hp hrest).mono ?_
      exact fun _ t hbuilt => .ok hbuilt

theorem collect_ends {n : Nat} (hgrows : Grows s t [⟨p, n⟩]) (hn : dims.length * 8 ≤ n) (hdims : ∀ d ∈ dims, d < 2 ^ 63) :
    Ends exhausted (fun _ u => Grows s u [⟨p, n⟩] ∧ cells u.mem 8 p dims.length = dims)
      (upto (fun i => writeInt 8 (p + 8 * i) ((dims.map Int.ofNat).getD i 0)) dims.length t) := by
  have hmem : ⟨p, n⟩ ∈ t.live := hgrows.mem_new (mem_cons_self ..)
  refine (ends_upto (fun i u => ∃ m, u = t.put m ∧ Grows s u [⟨p, n⟩] ∧ cells m 8 p i = dims.take i) dims.length
    ⟨t.mem, rfl, hgrows, rfl⟩ ?_).mono ?_
  · rintro i hi _ ⟨m, rfl, hg, hw⟩
    have hval : (dims.map Int.ofNat).getD i 0 = ((dims[i] : Nat) : Int) := by simp [hi]
    have hd := hdims _ (getElem_mem hi)
    have hholds : t.holds (p + 8 * i) 8 := holds_of_mem hmem (Nat.le_add_right ..) (by dsimp only; omega)
    rw [writeInt_put hholds, hval, word_natCast (by omega)]
    refine .ok ⟨_, rfl, hg.put ?_, ?_⟩
    · intro b hb
      apply (agree_overlay _ _ ?_).symm
      rcases hgrows.apart hb (mem_cons_self ..) with h | h <;> dsimp only at h <;> omega
    · rw [cells_succ, load_store_self (by omega), take_succ_eq_append_getElem hi, cells_congr (m := m), hw]
      exact (agree_overlay _ _ (by omega)).symm
  · rintro - _ ⟨m, rfl, hg, hw⟩
    rw [take_length] at hw
    exact ⟨hg, hw⟩

theorem allocArray_ends (hs : s.Valid) (hes : 0 < es) (hint : es < 2 ^ 31) (hne : dims ≠ [])
    (hpos : ∀ d ∈ dims, 0 < d ∧ d < 2 ^ 63) (hfit : Fits es dims) :
    Ends exhausted (fun a t => ∃ new, Grows s t new ∧ Jagged t.mem es dims a ∧ (blocks t.mem es dims a).Perm new)
      (allocArray A es (dims.map Int.ofNat) s) := by
  have hlen := length_pos_iff.mpr hne
  have hbuf : dims.length * 8 ≤ payloadSize (dims.length * 8) := by
    cases dims with
    | nil => exact absurd rfl hne
    | cons d ds =>
      have hstruct := hfit.1
      rw [length_cons]
      exact le_payloadSize (by omega)
  rw [allocArray, if_neg (by simpa using hne), length_map]
  apply ends_bind
  refine (allocate_ends hs (by omega)).mono ?_
  intro p t hgrows
  apply ends_bind
  refine (collect_ends hgrows hbuf fun d hd => (hpos d hd).2).mono ?_
  rintro - u ⟨hgrows', hwords⟩
  have hmem := hgrows'.mem_new (mem_cons_self ..)
  have hholds : u.holds p (dims.length * 8) := holds_of_mem hmem (le_refl p) (Nat.add_le_add_left hbuf p)
  apply ends_bind
  refine (builds hes hint hne hpos hfit u p hgrows'.valid hholds hwords).mono ?_
  rintro a v ⟨new, hbuilt, hjag, hperm⟩
  rw [run_bind_ok (release_eq hbuilt.valid (hbuilt.mem hmem))]
  exact .ok ⟨new, hgrows'.drop hbuilt, hjag, hperm⟩

end Run

/-- For positive dimensions `alloc_array` returns a complete tree of arrays in
blocks of their own, unless there is no memory left for them. -/
theorem alloc_array_jagged (A : Allocator) (s : State) (es : Nat) (dims : List Nat) (hs : s.Valid) (hes : 0 < es)
    (hint : es < 2 ^ 31) (hne : dims ≠ []) (hpos : ∀ d ∈ dims, 0 < d ∧ d < 2 ^ 63) (hfit : totalSize es dims < 2 ^ 64) :
    Ends exhausted (fun a t => Jagged t.mem es dims a ∧ (blocks t.mem es dims a).Pairwise Apart ∧
        t.live.Perm (blocks t.mem es dims a ++ s.live) ∧ ∀ b ∈ s.live, Agree s.mem t.mem b.addr b.size)
      (allocArray A es (dims.map Int.ofNat) s) := by
  have hfits := fits_of_totalSize (fun d hd => (hpos d hd).1) hfit
  refine (allocArray_ends hs hes hint hne hpos hfits).mono ?_
  rintro a t ⟨new, hgrows, hjag, hperm⟩
  have hapart := hgrows.valid.apart
  rw [hgrows.live] at hapart
  refine ⟨hjag, (hperm.pairwise_iff Or.symm).mpr (pairwise_append.mp hapart).1, ?_, hgrows.kept⟩
  rw [hgrows.live]
  exact hperm.symm.append_right _

theorem alloc_array_jagged_two_by_three :
    ∃ a t, allocArray bump (4 : Nat) ([2, 3].map Int.ofNat) start = .ok (a, t) ∧ Jagged t.mem 4 [2, 3] a ∧
      (blocks t.mem 4 [2, 3] a).Pairwise Apart := by
  have hok : (allocArray bump (4 : Nat) ([2, 3].map Int.ofNat) start).isOk = true := by decide +kernel
  have hend := alloc_array_jagged bump start 4 [2, 3] start_valid (by decide) (by decide) (by decide) (by decide) (by decide)
  generalize allocArray bump (4 : Nat) ([2, 3].map Int.ofNat) start = r at hok hend
  cases hend with
  | ok h => exact ⟨_, _, rfl, h.1, h.2.1⟩
  | error h => cases hok

end Picasso.Arrays.Allocation
