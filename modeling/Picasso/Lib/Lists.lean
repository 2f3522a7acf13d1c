import Mathlib.Data.List.Basic
import Mathlib.Data.List.Range

namespace Picasso.Lib.Folds

open List

variable {ε σ α : Type} {f : σ → α → Except ε σ} {l : List α} {s s' : σ} {I : List α → σ → Prop}

theorem bind_eq_ok {τ : Type} {x : Except ε σ} {f : σ → Except ε τ} {t : τ} (h : x >>= f = .ok t) :
    ∃ s, x = .ok s ∧ f s = .ok t := by
  cases x with
  | error e => cases h
  | ok s => exact ⟨s, rfl, h⟩

theorem bind_eq_error {τ : Type} {x : Except ε σ} {f : σ → Except ε τ} {e : ε} (h : x >>= f = .error e) :
    x = .error e ∨ ∃ s, x = .ok s ∧ f s = .error e := by
  cases x with
  | error e' =>
    cases h
    exact .inl rfl
  | ok s => exact .inr ⟨s, rfl, h⟩

theorem foldlM_cons_ok {a : α} (h : (a :: l).foldlM f s = .ok s') : ∃ s1, f s a = .ok s1 ∧ l.foldlM f s1 = .ok s' := by
  rw [foldlM_cons] at h
  exact bind_eq_ok h

theorem foldlM_append_ok {l' : List α} (h : (l ++ l').foldlM f s = .ok s') :
    ∃ s1, l.foldlM f s = .ok s1 ∧ l'.foldlM f s1 = .ok s' := by
  rw [foldlM_append] at h
  exact bind_eq_ok h

theorem foldlM_round {a : α} (h : l.foldlM f s = .ok s') (ha : a ∈ l) :
    ∃ pre post s1 s2, l = pre ++ a :: post ∧ pre.foldlM f s = .ok s1 ∧ f s1 a = .ok s2 ∧ post.foldlM f s2 = .ok s' := by
  obtain ⟨pre, post, rfl⟩ := append_of_mem ha
  obtain ⟨s1, hpre, h⟩ := foldlM_append_ok h
  obtain ⟨s2, hround, hpost⟩ := foldlM_cons_ok h
  exact ⟨pre, post, s1, s2, rfl, hpre, hround, hpost⟩

theorem foldlM_done
    (hstep : ∀ done a rest s s', l = done ++ a :: rest → I done s → f s a = .ok s' → I (done ++ [a]) s')
    (h : l.foldlM f s = .ok s') (hs : I [] s) : I l s' := by
  suffices hall : ∀ rest done s, l = done ++ rest → I done s → rest.foldlM f s = .ok s' → I l s' from
    hall l [] s rfl hs h
  intro rest
  induction rest with
  | nil =>
    intro done s hl hI h
    cases h
    rwa [hl, append_nil]
  | cons a rest ih =>
    intro done s hl hI h
    obtain ⟨s1, hround, hrest⟩ := foldlM_cons_ok h
    exact ih (done ++ [a]) s1 (by simp [hl]) (hstep done a rest s s1 hl hI hround) hrest

theorem foldlM_not_bad {I : σ → Prop} {B : ε → Prop}
    (hbad : ∀ s, ∀ a ∈ l, I s → ∀ e, f s a = .error e → ¬ B e) (hok : ∀ s, ∀ a ∈ l, I s → ∀ s', f s a = .ok s' → I s')
    (hs : I s) : ∀ e, l.foldlM f s = .error e → ¬ B e := by
  induction l generalizing s with
  | nil => exact fun e h => by cases h
  | cons a l ih =>
    intro e h
    rw [foldlM_cons] at h
    cases ha : f s a with
    | error e' =>
      rw [ha] at h
      cases h
      exact hbad s a mem_cons_self hs _ ha
    | ok s' =>
      rw [ha] at h
      exact ih (fun s b hb => hbad s b (mem_cons_of_mem a hb))
        (fun s b hb => hok s b (mem_cons_of_mem a hb)) (hok s a mem_cons_self hs s' ha) e h

theorem foldlM_rel {R : σ → σ → Prop} (hrefl : ∀ s, R s s) (htrans : ∀ s s1 s2, R s s1 → R s1 s2 → R s s2)
    (hround : ∀ s, ∀ a ∈ l, ∀ s', f s a = .ok s' → R s s') (h : l.foldlM f s = .ok s') : R s s' :=
  foldlM_done (I := fun _ t => R s t)
    (fun done a rest t t' hl ht hf => htrans s t t' ht (hround t a (by simp [hl]) t' hf)) h (hrefl s)

theorem foldlM_total
    (hround : ∀ done a rest s, l = done ++ a :: rest → I done s → ∃ s', f s a = .ok s' ∧ I (done ++ [a]) s')
    (hs : I [] s) : ∃ s', l.foldlM f s = .ok s' ∧ I l s' := by
  suffices hall : ∀ rest done s, l = done ++ rest → I done s → ∃ s', rest.foldlM f s = .ok s' ∧ I l s' from
    hall l [] s rfl hs
  intro rest
  induction rest with
  | nil =>
    intro done s hl hI
    exact ⟨s, rfl, by rwa [hl, append_nil]⟩
  | cons a rest ih =>
    intro done s hl hI
    obtain ⟨s1, hs1, hI1⟩ := hround done a rest s hl hI
    obtain ⟨s', hs', hI'⟩ := ih (done ++ [a]) s1 (by simp [hl]) hI1
    refine ⟨s', ?_, hI'⟩
    rw [foldlM_cons, hs1]
    exact hs'

theorem check_isOk {p : Prop} [Decidable p] {e : ε} : (if ¬ p then .error e else .ok () : Except ε Unit) = .ok () ↔ p := by
  split
  · next hp =>
    refine ⟨fun h => ?_, fun h => absurd h hp⟩
    cases h
  · next hp => exact ⟨fun _ => not_not.mp hp, fun _ => rfl⟩

theorem seq_isOk {x y : Except ε Unit} : (x >>= fun _ => y) = .ok () ↔ x = .ok () ∧ y = .ok () := by
  constructor
  · intro h
    obtain ⟨u, hx, hy⟩ := bind_eq_ok h
    exact ⟨hx, hy⟩
  · rintro ⟨hx, hy⟩
    rw [hx]
    exact hy

theorem forM_isOk {g : α → Except ε Unit} : l.forM g = .ok () ↔ ∀ a ∈ l, g a = .ok () := by
  induction l with
  | nil => exact ⟨fun _ => by simp, fun _ => rfl⟩
  | cons a l ih =>
    rw [forall_mem_cons, ← ih]
    exact seq_isOk

theorem mapM_isOk {β : Type} {g : α → Except ε β} : (∃ bs, l.mapM g = .ok bs) ↔ ∀ a ∈ l, ∃ b, g a = .ok b := by
  induction l with
  | nil => exact ⟨fun _ => by simp, fun _ => ⟨[], rfl⟩⟩
  | cons a l ih =>
    rw [forall_mem_cons, ← ih, mapM_cons]
    constructor
    · rintro ⟨bs, h⟩
      obtain ⟨b, hb, h⟩ := bind_eq_ok h
      obtain ⟨bs', hbs, -⟩ := bind_eq_ok h
      exact ⟨⟨b, hb⟩, bs', hbs⟩
    · rintro ⟨⟨b, hb⟩, bs, hbs⟩
      rw [hb, hbs]
      exact ⟨b :: bs, rfl⟩

end Picasso.Lib.Folds

namespace Picasso.Lib.Chunks

variable {α : Type}

def chunk (buf : Nat → α) (start n : Nat) : List α := (List.range n).map fun i => buf (start + i)

@[simp] theorem length_chunk (buf : Nat → α) (start n : Nat) : (chunk buf start n).length = n := by simp [chunk]

theorem chunk_add (buf : Nat → α) (start m n : Nat) :
    chunk buf start (m + n) = chunk buf start m ++ chunk buf (start + m) n := by
  simp [chunk, List.range_add, Nat.add_assoc]

theorem getElem?_chunk (buf : Nat → α) (start : Nat) {n i : Nat} (hi : i < n) :
    (chunk buf start n)[i]? = some (buf (start + i)) := by
  simp [chunk, hi]

theorem append_cons_cases {l1 l2 r1 r2 : List α} {x y : α} (h : l1 ++ x :: r1 = l2 ++ y :: r2) :
    (∃ m, l1 = l2 ++ y :: m ∧ r2 = m ++ x :: r1) ∨ (l1 = l2 ∧ x = y ∧ r1 = r2) ∨
      ∃ m, l2 = l1 ++ x :: m ∧ r1 = m ++ y :: r2 := by
  rcases List.append_eq_append_iff.mp h with ⟨m, rfl, hm⟩ | ⟨m, rfl, hm⟩ <;> cases m with
  | nil =>
    cases hm
    exact .inr (.inl ⟨by simp, rfl, rfl⟩)
  | cons z m =>
    cases hm
    simp

end Picasso.Lib.Chunks
