import Mathlib.Algebra.BigOperators.Fin
import Mathlib.Algebra.Order.BigOperators.Group.Finset

/-! # Teams

A team is a fixed number of workers with a state each and one state they share. A step
of the team changes the state of one worker and the shared state.
-/

namespace Upcalls.Library

structure Team (n : ℕ) (α σ : Type*) where
  worker : Fin n → α
  shared : σ

namespace Team

variable {n : ℕ} {α σ : Type*}

/-! ## Replacing one worker -/

def set (t : Team n α σ) (w : Fin n) (me : α) : Team n α σ :=
  { t with worker := Function.update t.worker w me }

def share (t : Team n α σ) (s : σ) : Team n α σ := { t with shared := s }

@[simp] theorem set_shared (t : Team n α σ) (w : Fin n) (me : α) :
    (t.set w me).shared = t.shared := rfl

@[simp] theorem share_shared (t : Team n α σ) (s : σ) : (t.share s).shared = s := rfl

@[simp] theorem share_worker (t : Team n α σ) (s : σ) : (t.share s).worker = t.worker := rfl

@[simp] theorem set_worker_self (t : Team n α σ) (w : Fin n) (me : α) :
    (t.set w me).worker w = me := Function.update_self ..

theorem set_worker_ne (t : Team n α σ) {w v : Fin n} (me : α) (h : v ≠ w) :
    (t.set w me).worker v = t.worker v := Function.update_of_ne h ..

theorem set_worker (t : Team n α σ) (w v : Fin n) (me : α) :
    (t.set w me).worker v = if v = w then me else t.worker v := Function.update_apply ..

@[simp] theorem set_set (t : Team n α σ) (w : Fin n) (me me' : α) :
    (t.set w me).set w me' = t.set w me' := by
  rw [set, set, set, Function.update_idem]

theorem set_same {t : Team n α σ} {w : Fin n} {me : α} (h : t.worker w = me) :
    t.set w me = t := by
  rw [set, ← h, Function.update_eq_self]

@[simp] theorem set_share (t : Team n α σ) (w : Fin n) (me : α) (s : σ) :
    (t.share s).set w me = (t.set w me).share s := rfl

@[simp] theorem share_share (t : Team n α σ) (s s' : σ) : (t.share s).share s' = t.share s' := rfl

/-- What holds of each worker after a change of `w` holds of `w` and of the others. -/
theorem forall_set {P : Fin n → α → Prop} {t : Team n α σ} {w : Fin n} {me : α}
    (hw : P w me) (h : ∀ v, v ≠ w → P v (t.worker v)) (v : Fin n) :
    P v ((t.set w me).worker v) := by
  by_cases hv : v = w
  · subst hv
    rw [set_worker_self]
    exact hw
  · rw [set_worker_ne t me hv]
    exact h v hv

/-- Apply a function to the state of one worker. -/
def modify (t : Team n α σ) (w : Fin n) (f : α → α) : Team n α σ := t.set w (f (t.worker w))

@[simp] theorem modify_shared (t : Team n α σ) (w : Fin n) (f : α → α) :
    (t.modify w f).shared = t.shared := rfl

/-- What a change keeps of any worker holds of all workers afterwards. -/
theorem forall_modify {P : Fin n → α → Prop} {t : Team n α σ} {w : Fin n} {f : α → α}
    (hf : ∀ v me, P v me → P v (f me)) (h : ∀ v, P v (t.worker v)) (v : Fin n) :
    P v ((t.modify w f).worker v) :=
  forall_set (hf w _ (h w)) (fun v _ => h v) v

/-! ## Adding up over the workers -/

def tally (f : α → ℕ) (t : Team n α σ) : ℕ := ∑ w, f (t.worker w)

@[simp] theorem tally_share (f : α → ℕ) (t : Team n α σ) (s : σ) :
    (t.share s).tally f = t.tally f := rfl

/-- A change of one worker changes the total by what it changes that worker's share. -/
theorem tally_set (f : α → ℕ) (t : Team n α σ) (w : Fin n) (me : α) :
    (t.set w me).tally f + f (t.worker w) = t.tally f + f me := by
  have hsplit : ∀ g : Fin n → ℕ, ∑ v, g v = g w + ∑ v ∈ Finset.univ.erase w, g v := by
    intro g
    rw [Finset.add_sum_erase _ _ (Finset.mem_univ w)]
  have hrest : ∑ v ∈ Finset.univ.erase w, f ((t.set w me).worker v) =
      ∑ v ∈ Finset.univ.erase w, f (t.worker v) := by
    refine Finset.sum_congr rfl ?_
    intro v hv
    rw [set_worker_ne t me (Finset.ne_of_mem_erase hv)]
  rw [tally, tally, hsplit, hsplit (fun v => f (t.worker v)), hrest, set_worker_self]
  omega

theorem tally_set_add {f : α → ℕ} {t : Team n α σ} {w : Fin n} {me : α} {k : ℕ}
    (h : f me = f (t.worker w) + k) : (t.set w me).tally f = t.tally f + k := by
  have hset := tally_set f t w me
  omega

theorem tally_set_eq {f : α → ℕ} {t : Team n α σ} {w : Fin n} {me : α}
    (h : f me = f (t.worker w)) : (t.set w me).tally f = t.tally f :=
  tally_set_add (k := 0) h

theorem tally_modify (g : α → ℕ) (t : Team n α σ) (w : Fin n) (f : α → α) :
    (t.modify w f).tally g + g (t.worker w) = t.tally g + g (f (t.worker w)) :=
  tally_set g t w _

/-- A change that keeps each worker's share keeps the total. -/
theorem tally_modify_eq {g : α → ℕ} {f : α → α} (h : ∀ me, g (f me) = g me)
    (t : Team n α σ) (w : Fin n) : (t.modify w f).tally g = t.tally g := by
  have hset := tally_modify g t w f
  rw [h] at hset
  omega

/-- A change that adds to each worker's share adds to the total. -/
theorem tally_modify_add {g : α → ℕ} {f : α → α} {k : ℕ} (h : ∀ me, g (f me) = g me + k)
    (t : Team n α σ) (w : Fin n) : (t.modify w f).tally g = t.tally g + k := by
  have hset := tally_modify g t w f
  rw [h] at hset
  omega

theorem tally_add (f g : α → ℕ) (t : Team n α σ) :
    t.tally (fun me => f me + g me) = t.tally f + t.tally g :=
  Finset.sum_add_distrib

theorem le_tally (f : α → ℕ) (t : Team n α σ) (w : Fin n) : f (t.worker w) ≤ t.tally f :=
  Finset.single_le_sum (f := fun v => f (t.worker v)) (fun _ _ => Nat.zero_le _)
    (Finset.mem_univ w)

theorem add_le_tally (f : α → ℕ) (t : Team n α σ) {v w : Fin n} (h : v ≠ w) :
    f (t.worker v) + f (t.worker w) ≤ t.tally f := by
  rw [← Finset.sum_pair (f := fun v => f (t.worker v)) h]
  exact Finset.sum_le_sum_of_subset (Finset.subset_univ _)

/-- A positive total comes from some worker. -/
theorem exists_of_tally_pos {f : α → ℕ} {t : Team n α σ} (h : 0 < t.tally f) :
    ∃ w, 0 < f (t.worker w) := by
  by_contra hnone
  have hzero : t.tally f = 0 := by
    refine Finset.sum_eq_zero ?_
    intro w _
    by_contra hw
    exact hnone ⟨w, Nat.pos_of_ne_zero hw⟩
  omega

theorem tally_eq_zero {f : α → ℕ} {t : Team n α σ} (h : ∀ w, f (t.worker w) = 0) :
    t.tally f = 0 :=
  Finset.sum_eq_zero fun w _ => h w

/-! ## What all workers have for one of them -/

/-- What all workers have of `f`, and worker `o` of `g`. -/
def account (f g : α → ℕ) (t : Team n α σ) (o : Fin n) : ℕ := t.tally f + g (t.worker o)

@[simp] theorem account_share (f g : α → ℕ) (t : Team n α σ) (s : σ) (o : Fin n) :
    (t.share s).account f g o = t.account f g o := rfl

theorem account_set (f g : α → ℕ) (t : Team n α σ) (w : Fin n) (me : α) (o : Fin n) :
    (t.set w me).account f g o + (f (t.worker w) + if o = w then g (t.worker w) else 0) =
      t.account f g o + (f me + if o = w then g me else 0) := by
  have htally := tally_set f t w me
  rw [account, account]
  by_cases ho : o = w
  · subst ho
    rw [set_worker_self, if_pos rfl, if_pos rfl]
    omega
  · rw [set_worker_ne t me ho, if_neg ho, if_neg ho]
    omega

theorem account_modify {f g : α → ℕ} {h : α → α} {k : ℕ} (hf : ∀ me, f (h me) = f me)
    (hg : ∀ me, g (h me) = g me + k) (t : Team n α σ) (w o : Fin n) :
    (t.modify w h).account f g o = t.account f g o + if o = w then k else 0 := by
  rw [account, account, tally_modify_eq hf, modify]
  by_cases ho : o = w
  · subst ho
    rw [set_worker_self, hg, if_pos rfl]
    omega
  · rw [set_worker_ne t _ ho, if_neg ho, Nat.add_zero]

end Team

end Upcalls.Library
