import Upcalls.Library.LockStep
import Upcalls.Model.EchoPair

/-! # The handlers echo in lock step -/

namespace Upcalls.EchoPair

open Library LockStep LibUpcall TcpEcho UpcallEcho

namespace Link

variable {m : ℕ} {l l' : Link} {M : List UInt8} {c r : ℕ} {p : Phase UInt8}

def loop (l : Link) : Loop UInt8 := ⟨l.toServer, l.buffer, l.toClient⟩

/-- The handlers of a connection have one request or one completion, the one of the
phase. -/
def Serves (m : ℕ) (l : Link) : Phase UInt8 → Prop
  | .reading f => l.conn.cursor = f ∧ l.requests = [.read l.conn.fd (some .myRead)] ∧
      l.completions = []
  | .read f data => l.conn.cursor = f ∧ l.requests = [] ∧ ∃ buf len, l.completions =
      [(completion (.read l.conn.fd (some .myRead)) data.length buf len, data)]
  | .writing d => l.conn.cursor = d ∧ l.completions = [] ∧
      l.requests = [.write l.conn.fd (position l.conn) (m - d) (some .myWrite)]
  | .wrote d k => l.conn.cursor = d ∧ l.requests = [] ∧ ∃ src size buf len, l.completions =
      [(completion (.write l.conn.fd src size (some .myWrite)) k buf len, [])]

/-- A connection of which the client has sent `c` bytes of `M` and has `r` of them back. -/
def Carries (M : List UInt8) (c r : ℕ) (l : Link) : Prop :=
  0 ≤ l.conn.fd ∧ ∃ p, l.Serves M.length p ∧ LockStep.Carries M c r p l.loop

theorem accepted_carries {fd : ℤ} {block : ℕ} {buffer : List UInt8} (hM : 1 ≤ M.length)
    (hfd : 0 ≤ fd) (hsize : buffer.length = M.length) :
    (accepted fd block buffer).Carries M 0 0 :=
  ⟨hfd, .reading 0, ⟨rfl, rfl, rfl⟩, LockStep.Carries.start hM hsize⟩

/-! ## The client's ends of the streams -/

theorem Carries.send (h : l.Carries M c r) {k : ℕ} (hlt : c < M.length)
    (hfit : c + k ≤ M.length) :
    ({ l with toServer := l.toServer ++ (M.drop c).take k } : Link).Carries M (c + k) r := by
  obtain ⟨hfd, p, hserves, hcarries⟩ := h
  exact ⟨hfd, p, by cases p <;> exact hserves, hcarries.send hlt hfit⟩

theorem Carries.receive (h : l.Carries M M.length r) {bytes : List UInt8} (hbytes : bytes ≠ [])
    (hfront : bytes <+: l.toClient) :
    r + bytes.length ≤ M.length ∧ bytes = slice r (r + bytes.length) M ∧
      (r + bytes.length < M.length →
        ({ l with toClient := l.toClient.drop bytes.length } : Link).Carries M M.length
          (r + bytes.length)) ∧
      (r + bytes.length = M.length →
        ({ l with toClient := l.toClient.drop bytes.length } : Link).Carries M 0 0) := by
  obtain ⟨hfd, p, hserves, hcarries⟩ := h
  obtain ⟨rest, hrest⟩ := hfront
  have hdrop : l.toClient.drop bytes.length = rest := by
    rw [← hrest, List.drop_left]
  obtain ⟨hfit, hslice, hmore, hall⟩ := hcarries.receive hbytes hrest.symm
  rw [hdrop]
  refine ⟨hfit, hslice, ?_, ?_⟩
  · intro hlt
    exact ⟨hfd, p, by cases p <;> exact hserves, hmore hlt⟩
  · intro hend
    exact ⟨hfd, p, by cases p <;> exact hserves, hall hend⟩

/-! ## The kernel -/

theorem kernel_carries {i k : ℕ} {buf : Ptr} {len : ℕ} (h : l.Carries M c r)
    (hk : l.kernel i k buf len = some l') : l'.Carries M c r := by
  obtain ⟨hfd, p, hserves, hcarries⟩ := h
  cases p with
  | reading f =>
      obtain ⟨hcursor, hrequests, hcompletions⟩ := hserves
      rw [kernel, hrequests] at hk
      cases i with
      | zero =>
          simp only [List.getElem?_cons_zero] at hk
          split at hk
          · rename_i hfit
            cases hk
            have hlength : (l.toServer.take k).length = k := by
              rw [List.length_take, Nat.min_eq_left hfit.2]
            have hne : l.toServer.take k ≠ [] := by
              apply List.ne_nil_of_length_pos
              omega
            have hnext := hcarries.arrive hne (List.take_append_drop k l.toServer).symm
            refine ⟨hfd, .read f (l.toServer.take k), ⟨hcursor, rfl, buf, len, ?_⟩, hnext⟩
            rw [hlength]
            simp only [hcompletions]
            rfl
          · cases hk
      | succ i => simp at hk
  | writing d =>
      obtain ⟨hcursor, hcompletions, hrequests⟩ := hserves
      rw [kernel, hrequests] at hk
      cases i with
      | zero =>
          simp only [List.getElem?_cons_zero] at hk
          split at hk
          · rename_i hfit
            cases hk
            have hnext := hcarries.write (k := k) hfit.1 (by omega)
            refine ⟨hfd, .wrote d k, ⟨hcursor, rfl, position l.conn, M.length - d, buf, len, ?_⟩,
              ?_⟩
            · simp only [hcompletions]
              rfl
            · rw [← hcursor] at hnext ⊢
              exact hnext
          · cases hk
      | succ i => simp at hk
  | read f data =>
      obtain ⟨_, hrequests, _⟩ := hserves
      rw [kernel, hrequests] at hk
      cases hk
  | wrote d k =>
      obtain ⟨_, hrequests, _⟩ := hserves
      rw [kernel, hrequests] at hk
      cases hk

/-! ## The handlers -/

/-- `my_read` on a completion with `data`. -/
theorem dispatch_read {f : ℕ} {data : List UInt8} (hfd : 0 ≤ l.conn.fd)
    (hserves : l.Serves m (.read f data)) (hdata : data ≠ []) (h : l.dispatch m = some l') :
    l'.conn.fd = l.conn.fd ∧
      l'.Serves m (if f + data.length < m then .reading (f + data.length) else .writing 0) ∧
      l'.loop = { l.loop with
        buffer := l.buffer.take f ++ data ++ l.buffer.drop (f + data.length) } := by
  obtain ⟨hcursor, hrequests, buf, len, hcompletions⟩ := hserves
  have hpos : 0 < data.length := List.length_pos_of_ne_nil hdata
  have hneg : ¬ l.conn.fd < 0 := by omega
  have hzero : ¬ (data.length : ℤ) = 0 := by omega
  have hcount : ¬ (data.length : ℤ) < 0 := by omega
  rw [dispatch, hcompletions] at h
  simp only [completion, myRead, if_neg hneg, if_neg hzero, if_neg hcount, Int.toNat_natCast,
    hcursor, position] at h
  split at h
  · rename_i hlt
    cases h
    rw [if_pos hlt]
    refine ⟨rfl, ⟨rfl, ?_, rfl⟩, ?_⟩
    · simp only [perform, hrequests, List.nil_append]
    · simp only [perform, loop, List.take_length]
  · rename_i hge
    cases h
    rw [if_neg hge]
    refine ⟨rfl, ⟨rfl, rfl, ?_⟩, ?_⟩
    · simp only [perform, hrequests, List.nil_append]
      rfl
    · simp only [perform, loop, List.take_length]

/-- `my_write` on a completion of `k` bytes. -/
theorem dispatch_write {d k : ℕ} (hserves : l.Serves m (.wrote d k)) (hk : 1 ≤ k)
    (h : l.dispatch m = some l') :
    l'.conn.fd = l.conn.fd ∧
      l'.Serves m (if d + k < m then .writing (d + k) else .reading 0) ∧ l'.loop = l.loop := by
  obtain ⟨hcursor, hrequests, src, size, buf, len, hcompletions⟩ := hserves
  have hzero : ¬ (k : ℤ) = 0 := by omega
  have hcount : ¬ (k : ℤ) < 0 := by omega
  rw [dispatch, hcompletions] at h
  simp only [completion, myWrite, if_neg hzero, if_neg hcount, Int.toNat_natCast,
    hcursor, position, Nat.add_comm k d] at h
  split at h
  · rename_i hlt
    cases h
    rw [if_pos hlt]
    refine ⟨rfl, ⟨rfl, rfl, ?_⟩, rfl⟩
    simp only [perform, hrequests, List.nil_append]
    rfl
  · rename_i hge
    cases h
    rw [if_neg hge]
    refine ⟨rfl, ⟨rfl, ?_, rfl⟩, rfl⟩
    simp only [perform, hrequests, List.nil_append]

theorem dispatch_carries (h : l.Carries M c r) (hd : l.dispatch M.length = some l') :
    l'.Carries M c r := by
  obtain ⟨hfd, p, hserves, hcarries⟩ := h
  cases p with
  | read f data =>
      obtain ⟨hfd', hnext, hloop⟩ := dispatch_read hfd hserves hcarries.data_ne_nil hd
      refine ⟨hfd' ▸ hfd, _, hnext, ?_⟩
      rw [hloop]
      exact hcarries.copy
  | wrote d k =>
      obtain ⟨hfd', hnext, hloop⟩ := dispatch_write hserves hcarries.one_le hd
      refine ⟨hfd' ▸ hfd, _, hnext, ?_⟩
      rw [hloop]
      exact hcarries.goOn
  | reading f =>
      rw [dispatch, hserves.2.2] at hd
      cases hd
  | writing d =>
      rw [dispatch, hserves.2.1] at hd
      cases hd

end Link

end Upcalls.EchoPair
