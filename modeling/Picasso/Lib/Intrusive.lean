import Picasso.Lib.Ring

namespace Picasso.Lib.Intrusive

open Lib.Ring List Function

variable {m m' : Nat → Nat} {f b p h : Nat} {l k : List Nat}

/-- The node `p`, whose forward and backward links are the words at the
offsets `f` and `b`, is taken out and its links are cleared. -/
def SplicedOut (m m' : Nat → Nat) (f b p : Nat) : Prop :=
  ∀ a, m' a = if a = p + f ∨ a = p + b then 0 else if a = m (p + b) + f then m (p + f)
    else if a = m (p + f) + b then m (p + b) else m a

def SplicedIn (m m' : Nat → Nat) (f b p u v : Nat) : Prop :=
  ∀ a, m' a = if a = u + f then p else if a = v + b then p else if a = p + f then v else if a = p + b then u
    else m a

theorem SplicedOut.path (hs : SplicedOut m m' f b p)
    (hp : Path (fun x => m (x + f)) (fun x => m (x + b)) h (l ++ p :: k) h) (hn : (h :: (l ++ p :: k)).Nodup)
    (hsep : ∀ x ∈ h :: (l ++ p :: k), ∀ y ∈ h :: (l ++ p :: k), x + f ≠ y + b) :
    Path (fun x => m' (x + f)) (fun x => m' (x + b)) h (l ++ k) h := by
  have hmem : ∀ a ∈ h :: (l ++ k), a ∈ h :: (l ++ p :: k) ∧ a ≠ p := by
    intro a ha
    constructor
    · simp only [mem_cons, mem_append] at ha ⊢
      tauto
    · rintro rfl
      simp only [nodup_cons, mem_append, mem_cons, nodup_append] at hn ha
      grind
  obtain ⟨hprev, hnext⟩ := hp.link_mem
  refine (hp.unlink hn (nodup_cons.mp hn).1).congr ?_ ?_
  · intro a ha
    obtain ⟨ha, hap⟩ := hmem a ha
    have h1 := hsep a ha p (by simp)
    have h2 := hsep a ha _ hnext
    simp only [hs (a + f), update_apply]
    grind
  · intro a ha
    have ha : a ∈ h :: (l ++ k) := by
      simp only [mem_append, mem_cons, not_mem_nil] at ha ⊢
      tauto
    obtain ⟨ha, hap⟩ := hmem a ha
    have h1 := (hsep p (by simp) a ha).symm
    have h2 := (hsep _ hprev a ha).symm
    simp only [hs (a + b), update_apply]
    grind

theorem SplicedOut.other (hs : SplicedOut m m' f b p) {a : Nat} (hp : a ≠ p + f ∧ a ≠ p + b)
    (hu : a ≠ m (p + b) + f) (hv : a ≠ m (p + f) + b) : m' a = m a := by
  rw [hs a]
  grind

theorem SplicedIn.path {u v : Nat} (hs : SplicedIn m m' f b p u v) (hv : v = first k h) (hu : u = m (v + b))
    (hp : Path (fun x => m (x + f)) (fun x => m (x + b)) h (l ++ k) h) (hn : (h :: (l ++ k)).Nodup)
    (hpn : p ∉ h :: (l ++ k)) (hsep : ∀ x ∈ p :: h :: (l ++ k), ∀ y ∈ p :: h :: (l ++ k), x + f ≠ y + b) :
    Path (fun x => m' (x + f)) (fun x => m' (x + b)) h (l ++ p :: k) h := by
  subst hu hv
  have hfirst : first k h ∈ h :: (l ++ k) := by
    have := first_mem k h
    simp only [mem_append, mem_cons] at this ⊢
    tauto
  have hprev : m (first k h + b) ∈ h :: (l ++ k) := by
    have := Path.prev_mem hp
    simp only [mem_cons, mem_append] at this ⊢
    rcases this with h | h
    · exact .inl h
    · exact .inr (.inl h)
  have hmem : ∀ a, a ∈ h :: (l ++ p :: k) → a ∈ p :: h :: (l ++ k) := by
    intro a ha
    simp only [mem_cons, mem_append] at ha ⊢
    tauto
  refine (hp.insert hn (nodup_cons.mp hn).1 hpn (fun e => hpn (by simp [e]))).congr ?_ ?_
  · intro a ha
    have ha := hmem a ha
    have h1 := hsep a ha p (by simp)
    have h2 := hsep a ha _ (mem_cons_of_mem p hfirst)
    simp only [hs (a + f), update_apply]
    grind
  · intro a ha
    have ha : a ∈ p :: h :: (l ++ k) := by
      simp only [mem_append, mem_cons, not_mem_nil] at ha ⊢
      tauto
    have h1 := (hsep p (by simp) a ha).symm
    have h2 := (hsep _ (mem_cons_of_mem p hprev) a ha).symm
    simp only [hs (a + b), update_apply]
    grind

theorem SplicedIn.other {u v : Nat} (hs : SplicedIn m m' f b p u v) {a : Nat} (hp : a ≠ p + f ∧ a ≠ p + b)
    (hu : a ≠ u + f) (hv : a ≠ v + b) : m' a = m a := by
  rw [hs a]
  grind

end Picasso.Lib.Intrusive
