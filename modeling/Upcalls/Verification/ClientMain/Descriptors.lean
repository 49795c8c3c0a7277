import Upcalls.Verification.TcpClient.Counts
import Upcalls.Verification.TcpClient.Refusals

/-! # The descriptors of a worker, and calls that fail

While no call fails, a worker has open what was open before it and the sockets of its
connected clients.
-/

namespace Upcalls.TcpClient

open Library

variable {m n : ℕ} {o : Options}

/-! ## Calls that fail -/

/-- The answers that `set_dying` follows on. -/
def Input.fails (a : Input) : Bool := !a.benign || a.refused

theorem Worker.Stepped.not_fails {s s' : Worker n} {a : Input} {out : Output n}
    (h : Stepped o s a s' out) : a.fails = false := by
  cases h with
  | @finished _ _ _ _ _ _ _ hfull | @batchEnded _ _ _ _ _ _ _ hfull | @next _ _ _ _ _ _ _ hfull =>
      cases hfull with
      | data | again => rfl
  | _ => rfl

/-- A worker is dying from the first call on that fails. -/
theorem Worker.step_fails {s s' : Worker n} {a : Input} {out : Output n}
    (h : s.step o a = some (s', out)) : s'.dying = (s.dying || a.fails) := by
  cases hfails : a.fails with
  | false =>
      obtain ⟨hbenign, hrefused⟩ := Bool.or_eq_false_iff.mp hfails
      rw [step_dying (by simpa using hbenign) h, hrefused]
  | true =>
      rw [Bool.or_true]
      by_contra hdying
      have halive : s'.dying = false := by simpa using hdying
      rw [(step_spec h halive).not_fails] at hfails
      cases hfails

theorem process_fails {tr : List ((Fin m × Input) × Output n)} {s : Fin m → Worker n}
    (h : (process m n o).Reaches tr s) (w : Fin m) :
    (s w).dying = tr.any fun x => x.1.2.fails := by
  induction h generalizing w with
  | init hs => exact (hs w).2.dying
  | @step tr s t a out _ hlast ih =>
      obtain ⟨me, hstep, rfl⟩ := processStep_spec hlast
      have hme : me.dying = (tr ++ [(a, out)]).any fun x => x.1.2.fails := by
        rw [Worker.step_fails hstep, ih a.1, List.any_append]
        simp
      rw [← hme]
      cases hdying : me.dying with
      | true => rfl
      | false =>
          simp only [Bool.false_eq_true, if_false]
          by_cases hw : w = a.1
          · rw [hw, Function.update_self, hdying]
          · rw [Function.update_of_ne hw, ih w]
            rw [hdying, List.any_append] at hme
            exact (Bool.or_eq_false_iff.mp hme.symm).1

/-! ## Open descriptors -/

namespace Worker

/-- Behind `base`, the worker has opened the sockets of its connected clients. -/
structure Opens (base : ℤ → Bool) (s : Worker n) : Prop where
  opened : ∀ fd, s.opened fd = true ↔
    base fd = true ∨ ∃ j, (s.clients j).state.live = true ∧ (s.clients j).sock = fd
  fresh : ∀ {j}, (s.clients j).state.live = true → base (s.clients j).sock = false

variable {base : ℤ → Bool} {s s' : Worker n}

theorem Opens.same (h : Opens base s) (hopened : s'.opened = s.opened)
    (hlive : ∀ j, (s'.clients j).state.live = (s.clients j).state.live)
    (hsock : ∀ j, (s.clients j).state.live = true → (s'.clients j).sock = (s.clients j).sock) :
    Opens base s' := by
  refine ⟨?_, ?_⟩
  · intro fd
    rw [hopened, h.opened fd]
    refine or_congr Iff.rfl (exists_congr fun j => ?_)
    rw [hlive j]
    exact and_congr_right fun hj => by rw [hsock j hj]
  · intro j hj
    rw [hlive j] at hj
    rw [hsock j hj]
    exact h.fresh hj

/-- A client changes, but not whether it is connected. -/
theorem Opens.update (h : Opens base s) {j : Fin n} {c : Client} (hopened : s'.opened = s.opened)
    (hclients : s'.clients = Function.update s.clients j c)
    (hlive : c.state.live = (s.clients j).state.live) (hsock : c.sock = (s.clients j).sock) :
    Opens base s' := by
  refine h.same hopened ?_ ?_
  · intro i
    rw [hclients]
    by_cases hi : i = j
    · rw [hi, Function.update_self, hlive]
    · rw [Function.update_of_ne hi]
  · intro i _
    rw [hclients]
    by_cases hi : i = j
    · rw [hi, Function.update_self, hsock]
    · rw [Function.update_of_ne hi]

/-- `socket` gives client `j` a descriptor that was not open. -/
theorem Opens.socket (h : Opens base s) {j : Fin n} {c : Client} {fd : ℤ}
    (hfd : s.opened fd = false) (hstate : (s.clients j).state.live = false)
    (hopened : s'.opened = Function.update s.opened fd true)
    (hclients : s'.clients = Function.update s.clients j c) (hlive : c.state.live = true)
    (hsock : c.sock = fd) : Opens base s' := by
  have hbase : base fd = false := by
    by_contra hnot
    have hopen := (h.opened fd).mpr (.inl (by simpa using hnot))
    rw [hfd] at hopen
    cases hopen
  refine ⟨?_, ?_⟩
  · intro x
    rw [hopened, hclients]
    by_cases hx : x = fd
    · subst hx
      rw [Function.update_self]
      exact iff_of_true rfl (.inr ⟨j, by rw [Function.update_self]; exact ⟨hlive, hsock⟩⟩)
    · rw [Function.update_of_ne hx, h.opened x]
      refine or_congr Iff.rfl (exists_congr fun i => ?_)
      by_cases hi : i = j
      · rw [hi, Function.update_self, hstate, hsock]
        exact iff_of_false (fun hno => Bool.false_ne_true hno.1) (fun hno => hx hno.2.symm)
      · rw [Function.update_of_ne hi]
  · intro i
    rw [hclients]
    by_cases hi : i = j
    · rw [hi, Function.update_self, hsock]
      exact fun _ => hbase
    · rw [Function.update_of_ne hi]
      exact h.fresh

/-- `close` is for the socket of a connected client, which is nobody else's. -/
theorem Opens.close (h : Opens base s) (hs : s.Inv) {j : Fin n} {c : Client}
    (hstate : (s.clients j).state.live = true)
    (hopened : s'.opened = Function.update s.opened (s.clients j).sock false)
    (hclients : s'.clients = Function.update s.clients j c) (hlive : c.state.live = false) :
    Opens base s' := by
  refine ⟨?_, ?_⟩
  · intro x
    rw [hopened, hclients]
    by_cases hx : x = (s.clients j).sock
    · subst hx
      rw [Function.update_self, h.fresh hstate]
      refine iff_of_false Bool.false_ne_true ?_
      rintro (hno | ⟨i, hi, hsock⟩)
      · cases hno
      · by_cases hij : i = j
        · rw [hij, Function.update_self, hlive] at hi
          cases hi
        · rw [Function.update_of_ne hij] at hi hsock
          exact hij (hs.apart hi hstate hsock)
    · rw [Function.update_of_ne hx, h.opened x]
      refine or_congr Iff.rfl (exists_congr fun i => ?_)
      by_cases hi : i = j
      · rw [hi, Function.update_self, hlive]
        exact iff_of_false (fun hno => hx hno.2.symm) (fun hno => Bool.false_ne_true hno.1)
      · rw [Function.update_of_ne hi]
  · intro i
    rw [hclients]
    by_cases hi : i = j
    · rw [hi, Function.update_self, hlive]
      intro hno
      cases hno
    · rw [Function.update_of_ne hi]
      exact h.fresh

theorem Stepped.opens {a : Input} {out : Output n} (h : Stepped o s a s' out) (hs : s.Inv)
    (hopens : Opens base s) : Opens base s' := by
  cases h with
  | waited | timedOut | exited | enteredConnecting | enteredSent | sentPart =>
      exact hopens.same rfl (fun _ => rfl) fun _ _ => rfl
  | enteredInit | receivedPart | again => exact hopens.update rfl rfl rfl rfl
  | enteredOther hpc htodo hstate =>
      exact (hs.not_other hpc (htodo ▸ List.mem_cons_self) hstate).elim
  | connectedAtOnce hpc hstate hpos hfd | began hpc hstate hpos hfd =>
      exact hopens.socket hfd (by rw [hstate]; rfl) rfl rfl rfl rfl
  | connected hpc hstate | added hpc hstate | sentAll hpc hstate | next hpc hstate =>
      exact hopens.update rfl rfl (by rw [hstate]; rfl) rfl
  | finished hpc hstate | batchEnded hpc hstate =>
      exact hopens.close hs (by rw [hstate]; rfl) rfl rfl rfl

theorem opens_start (h : s.Start o) : Opens s.opened s := by
  have hinit : ∀ j, (s.clients j).state.live = false := by
    intro j
    obtain ⟨buf, -, hj⟩ := h.clients j
    rw [hj]
    rfl
  refine ⟨?_, ?_⟩
  · intro fd
    refine (or_iff_left ?_).symm
    rintro ⟨j, hj, -⟩
    rw [hinit j] at hj
    cases hj
  · intro j hj
    rw [hinit j] at hj
    cases hj

end Worker

/-- Between calls that do not fail, what a process has open is known. -/
theorem process_opens {tr : List ((Fin m × Input) × Output n)} {s₀ s : Fin m → Worker n}
    (hinit : (process m n o).Init s₀) (h : (process m n o).Run s₀ tr s)
    (hdying : ∀ w, (s w).dying = false) (w : Fin m) : (s w).Opens (s₀ w).opened := by
  induction h generalizing w with
  | nil => exact Worker.opens_start (hinit w).2
  | @snoc s t tr a out hr hlast ih =>
      obtain ⟨hstep, hother, hbefore⟩ := processStep_alive hlast hdying
      by_cases hw : w = a.1
      · subst hw
        have hreach := process_own ((Machine.Reaches.init hinit).run hr) hbefore a.1
        exact (Worker.step_spec hstep (hdying a.1)).opens
          (Worker.reaches_inv hreach (hbefore a.1)).1
          (ih hbefore a.1)
      · rw [hother w hw]
        exact ih hbefore w

end Upcalls.TcpClient
