/-
# Closing a descriptor once

`arm_close` does not look at the state of the connection. When a linked
timeout fires, its completion and that of the cancelled receive both come to
`arm_close`, and the descriptor is closed twice. The same happens to a send
that completes after a close was armed, and to a connection that is closing
when a shutdown closes every connection by force.
-/
import Iohttp.Core.Invariant

namespace Iohttp

open Runs List

variable {ω τ : Type} {c : Conn τ} {i : ℕ} {s : Srv ω τ}

/-- No descriptor was closed twice, and one that was closed belongs to a
connection that is closing or to none. -/
structure ClosedOnce (s : Srv ω τ) : Prop where
  once : ∀ k, closesOf k s.trace ≤ 1
  fresh : ∀ k, s.pool.serial ≤ k → closesOf k s.trace = 0
  distinct : LiveDistinct Conn.serial s.pool.conns
  live : ∀ (i : ℕ) c, s.pool.conns[i]? = some c → c.Live →
    c.serial < s.pool.serial ∧ c.state ≠ .quic ∧ (closesOf c.serial s.trace = 0 ∨ c.state = .closing)

/-- For a connection that is closing, only its close is handled, and a timeout
that was cancelled. -/
def ClosesAlone (s : Srv ω τ) (cqe : Cqe) : Prop :=
  ∀ c ∈ s.pool.conns, c.state = .closing → c.id = cqe.op.id →
    cqe.op.code = .close ∨ (cqe.op.code = .timeout ∧ cqe.res = -ECANCELED)
  deriving Decidable

def NoneClosing (s : Srv ω τ) : Prop := ∀ c ∈ s.pool.conns, c.state ≠ .closing
  deriving Decidable

variable {w' : Work ω τ} {env : Env ω τ}

theorem ClosedOnce.restore (h : ClosedOnce s) (hc : s.pool.conns[i]? = some c) (hl : c.Live)
    (hother : ∀ k, k ≠ c.serial → closesOf k w'.trace = closesOf k s.trace)
    (hown : closesOf c.serial w'.trace ≤ 1)
    (hconn : w'.conn.Live → w'.conn.serial = c.serial ∧ w'.conn.state ≠ .quic ∧
      (closesOf c.serial w'.trace = 0 ∨ w'.conn.state = .closing)) : ClosedOnce (s.restore i w') := by
  have hlt := (h.live i c hc hl).1
  refine ⟨fun k => ?_, fun k hk => ?_, ?_, fun j d hd hdl => ?_⟩
  · by_cases hk : k = c.serial
    · rw [hk]
      exact hown
    · show closesOf k w'.trace ≤ 1
      rw [hother k hk]
      exact h.once k
  · have hne : k ≠ c.serial := by
      rintro rfl
      exact absurd hlt (not_lt.mpr hk)
    exact (hother k hne).trans (h.fresh k hk)
  · exact h.distinct.replace hc hl fun hl' => (hconn hl').1
  · rcases getElem?_set_cases hd with ⟨_, rfl⟩ | ⟨hj, hd⟩
    · obtain ⟨hs, hq, ho⟩ := hconn hdl
      rw [hs]
      exact ⟨hlt, hq, ho⟩
    · obtain ⟨hd₁, hd₂, hd₃⟩ := h.live j d hd hdl
      refine ⟨hd₁, hd₂, ?_⟩
      show closesOf d.serial w'.trace = 0 ∨ _
      rwa [hother d.serial fun he => hj (h.distinct j i d c hd hc hdl hl he)]

theorem ClosedOnce.effect (h : ClosedOnce s) (hc : s.pool.conns[i]? = some c) (hl : c.Live)
    (hn : c.state ≠ .closing) (he : Effect (s.focus c) w') : ClosedOnce (s.restore i w') := by
  obtain ⟨_, hq, ho⟩ := h.live i c hc hl
  have hzero : closesOf c.serial s.trace = 0 := ho.resolve_right hn
  rcases he with he | he
  · refine h.restore hc hl (fun k _ => he.closes k) ?_ fun _ => ⟨he.serial, ?_, .inl ?_⟩
    · rw [he.closes]
      exact h.once _
    · exact he.state_ne hq (.inr rfl)
    · rw [he.closes]
      exact hzero
  · refine h.restore hc hl (fun k hk => ?_) ?_ fun hl' => ?_
    · rw [he.closes, Srv.focus_conn, if_neg hk, Nat.add_zero, Srv.focus_trace]
    · rw [he.closes, Srv.focus_conn, if_pos rfl, Srv.focus_trace, hzero]
    · rcases he.conn with ⟨hf, _⟩ | ⟨_, hs, _, _, hcl, _⟩
      · rw [hf] at hl'
        exact absurd rfl hl'
      · have hst := hcl hl hq
        exact ⟨hs, by simp [hst], .inr hst⟩

theorem ClosedOnce.freed (h : ClosedOnce s)
    (hc : s.pool.conns[i]? = some c) (hl : c.Live) : ClosedOnce (s.restore i (connFree (s.focus c))) :=
  h.restore hc hl (fun _ _ => rfl) (h.once _) fun hl' => absurd rfl hl'

theorem ClosedOnce.quiet {s' : Srv ω τ} (hq : Quiet s s') (h : ClosedOnce s) : ClosedOnce s' := by
  obtain ⟨h₁, h₂, h₃, h₄⟩ := h
  refine ⟨?_, ?_, ?_, ?_⟩
  · rwa [hq.trace]
  · rwa [hq.trace, hq.pool]
  · rwa [hq.pool]
  · rwa [hq.trace, hq.pool]

theorem ClosedOnce.retire (h : ClosedOnce s) (cqe : Cqe) : ClosedOnce (s.retire cqe) :=
  ⟨h.once, h.fresh, h.distinct, h.live⟩

theorem ClosedOnce.conn (h : ClosedOnce s) {cqe : Cqe} (hok : ClosesAlone s cqe)
    (hf : findConnById s.pool cqe.op.id = some i) (hc : s.pool.conns[i]? = some c)
    (hw : completeConn env ((s.retire cqe).focus c) cqe = some w') :
    ClosedOnce ((s.retire cqe).restore i w') := by
  obtain ⟨c', hc', hl, hid⟩ := findConnById_some hf
  obtain rfl : c' = c := Option.some.inj (hc'.symm.trans hc)
  by_cases hcl : c'.state = .closing
  · rcases hok c' (mem_of_getElem? hc) hcl hid with hcode | ⟨hcode, hres⟩
    · simp only [completeConn, hcode, Option.some.injEq] at hw
      subst hw
      exact (h.retire cqe).freed hc hl
    · -- a timeout that was cancelled does nothing
      simp only [completeConn, hcode, onTimeout, hres, if_true, Option.some.injEq] at hw
      subst hw
      refine (h.retire cqe).restore hc hl (fun _ _ => rfl) (h.once _) fun _ => ⟨rfl, ?_, .inr hcl⟩
      exact (h.live i c' hc hl).2.1
  · rcases completeConn_effect hw with he | ⟨_, rfl⟩
    · exact (h.retire cqe).effect hc hl hcl he
    · exact (h.retire cqe).freed hc hl

theorem ClosedOnce.accept (h : ClosedOnce s) (fd : ℤ) : ClosedOnce (acceptFd env s fd) := by
  rcases acceptFd_cases env s fd with he | ⟨i, c, hc, _, he⟩
  · rw [he]
    exact h
  · have hlen : i < s.pool.conns.length := (List.getElem?_eq_some_iff.mp hc).1
    have hxl : (s.newConn env).Live := fun hf => by cases hf
    -- the new connection has a serial number that no act has
    have halloc : ClosedOnce { s.count with pool.conns := s.pool.conns.set i (s.newConn env) } := by
      refine ⟨h.once, fun k hk => h.fresh k (Nat.le_of_succ_le hk), ?_, fun j d hd hdl => ?_⟩
      · exact h.distinct.set fun _ j d _ hd hdl => (h.live j d hd hdl).1.ne
      · rcases getElem?_set_cases hd with ⟨_, rfl⟩ | ⟨_, hd⟩
        · exact ⟨Nat.lt_succ_self _, (fun hf => by cases hf), .inl (h.fresh _ le_rfl)⟩
        · obtain ⟨h₁, h₂⟩ := h.live j d hd hdl
          exact ⟨Nat.lt_succ_of_lt h₁, h₂⟩
    have := halloc.effect (c := s.newConn env) (getElem?_set_self hlen) hxl (fun hf => by cases hf)
      (effect_accepted env (s.count.focus (s.newConn env)) fd)
    simp only [Srv.restore, set_set] at this
    rw [he]
    exact this

theorem ClosedOnce.drain (h : ClosedOnce s) : ClosedOnce s.drainAll := by
  refine ⟨h.once, h.fresh, ?_, fun i d hd hdl => ?_⟩
  · exact h.distinct.map fun c hc => drainConn_live hc
  · change (s.pool.conns.map drainConn)[i]? = some d at hd
    rw [getElem?_map, Option.map_eq_some_iff] at hd
    obtain ⟨c, hc, rfl⟩ := hd
    obtain ⟨hl, hs⟩ := drainConn_live hdl
    obtain ⟨h₁, h₂, h₃⟩ := h.live i c hc hl
    rw [hs]
    refine ⟨h₁, ?_, ?_⟩
    · rcases drainConn_state c with he | ⟨_, he⟩
      · rwa [he]
      · simp [he]
    · rcases drainConn_state c with he | ⟨hst, he⟩
      · rwa [he]
      · exact .inl (h₃.resolve_right (by simp [hst]))

/-- Closing every connection by force closes a descriptor at most once, and
only if its connection is in use. -/
theorem closesOf_forceClosed (k : ℕ) : ∀ {conns : List (Conn τ)}, LiveDistinct Conn.serial conns →
    closesOf k (conns.flatMap forceClosed) ≤ 1 ∧
      (0 < closesOf k (conns.flatMap forceClosed) → ∃ c ∈ conns, c.Live ∧ c.serial = k)
  | [], _ => by simp [closesOf]
  | c :: conns, h => by
    obtain ⟨ih₁, ih₂⟩ := closesOf_forceClosed k h.tail
    rw [flatMap_cons, closesOf_append]
    by_cases hc : c.Live ∧ c.serial = k
    · -- no other connection has this number
      have hzero : closesOf k (conns.flatMap forceClosed) = 0 := by
        by_contra hne
        obtain ⟨d, hd, hdl, hdk⟩ := ih₂ (Nat.pos_of_ne_zero hne)
        obtain ⟨j, hj⟩ := getElem?_of_mem hd
        have := h 0 (j + 1) c d rfl (by simpa using hj) hc.1 hdl (hc.2.trans hdk.symm)
        omega
      have hle : closesOf k (forceClosed c) ≤ 1 := by
        unfold forceClosed
        split_ifs
        · simp [closesOf, Act.closes, countP_cons]
          split_ifs <;> simp
        · simp [closesOf]
      rw [hzero]
      exact ⟨hle, fun _ => ⟨c, mem_cons_self .., hc⟩⟩
    · have hzero : closesOf k (forceClosed c) = 0 := by
        unfold forceClosed
        split_ifs with hl
        · refine closesOf_eq_zero fun a ha => ?_
          obtain rfl := mem_singleton.mp ha
          exact fun he => hc ⟨hl.1, he⟩
        · rfl
      rw [hzero, Nat.zero_add]
      refine ⟨ih₁, fun hpos => ?_⟩
      obtain ⟨d, hd, hdl⟩ := ih₂ hpos
      exact ⟨d, mem_cons_of_mem _ hd, hdl⟩

theorem ClosedOnce.force (h : ClosedOnce s) (hn : NoneClosing s) : ClosedOnce (forceClose s) := by
  have hopen : ∀ c ∈ s.pool.conns, c.Live → closesOf c.serial s.trace = 0 := by
    intro c hc hl
    obtain ⟨i, hi⟩ := getElem?_of_mem hc
    exact (h.live i c hi hl).2.2.resolve_right (hn c hc)
  have hfree : ∀ (i : ℕ) d, (forceClose s).pool.conns[i]? = some d → ¬d.Live := by
    intro i d hd
    change (s.pool.conns.map _)[i]? = some d at hd
    rw [getElem?_map, Option.map_eq_some_iff] at hd
    obtain ⟨c, _, rfl⟩ := hd
    split_ifs with hc
    · exact not_not.mpr hc
    · exact not_not.mpr rfl
  refine ⟨fun k => ?_, fun k hk => ?_, fun i _ c _ hc _ hl => absurd hl (hfree i c hc),
    fun i d hd hdl => absurd hdl (hfree i d hd)⟩
  · obtain ⟨h₁, h₂⟩ := closesOf_forceClosed k h.distinct
    show closesOf k (s.trace ++ _) ≤ 1
    rw [closesOf_append]
    by_cases hz : closesOf k (s.pool.conns.flatMap forceClosed) = 0
    · rw [hz]
      exact h.once k
    · obtain ⟨c, hc, hl, rfl⟩ := h₂ (Nat.pos_of_ne_zero hz)
      rw [hopen c hc hl, Nat.zero_add]
      exact h₁
  · obtain ⟨_, h₂⟩ := closesOf_forceClosed k h.distinct
    show closesOf k (s.trace ++ _) = 0
    rw [closesOf_append, h.fresh k hk, Nat.zero_add]
    by_contra hz
    obtain ⟨c, hc, hl, rfl⟩ := h₂ (Nat.pos_of_ne_zero hz)
    obtain ⟨i, hi⟩ := getElem?_of_mem hc
    exact absurd (h.live i c hi hl).1 (not_lt.mpr hk)

theorem closedOnce_rule :
    SrvRule env ClosedOnce ClosesAlone (fun _ _ => True) NoneClosing where
  quiet _ _ hq h := h.quiet hq
  conn _ _ _ _ _ h hok hf hc hw := h.conn hok hf hc hw
  lost _ cqe h _ _ := h.retire cqe
  accept _ cqe h _ := h.accept cqe.res
  drain _ h := h.drain
  force _ h hn := h.force hn

theorem ClosedOnce.start (maxConns : ℕ) (listenFd signalFd : ℤ) (world : ω) :
    ClosedOnce (serverStart maxConns listenFd signalFd world : Srv ω τ) := by
  have hfree : ∀ (i : ℕ) (c : Conn τ), (List.replicate maxConns freeConn)[i]? = some c → ¬c.Live := by
    intro i c hc
    obtain rfl := eq_of_mem_replicate (mem_of_getElem? hc)
    exact not_not.mpr rfl
  exact ⟨fun _ => Nat.zero_le _, fun _ _ => rfl, fun i _ c _ hc _ hl => absurd hl (hfree i c hc),
    fun i c hc hl => absurd hl (hfree i c hc)⟩

/-- For a connection that is closing, the loop handles only the completion of
its close and cancelled timeouts, and it closes the connections by force only
if none is closing. -/
def ClosingAlone (m : Machine ω τ) (ev : Event) : Prop :=
  srvOk ClosesAlone (fun _ _ => True) NoneClosing m ev

/-- **A descriptor is closed at most once**, by an operation or directly, in
every run in which no receive, no send and no timeout that has fired is
handled for a connection that is closing, and no shutdown closes such a
connection by force. -/
theorem descriptor_closed_once (env : Env ω τ) (maxConns : ℕ) (listenFd signalFd : ℤ) (world : ω)
    {m : Machine ω τ}
    (h : Reaches (Machine.next env) ClosingAlone (Machine.start maxConns listenFd signalFd world) m)
    (k : ℕ) :
    closesOf k m.srv.trace ≤ 1 := by
  have hq : ∀ s s' : Srv ω τ, Quiet s s' → NoneClosing s → NoneClosing s' := by
    intro s s' hq hn
    unfold NoneClosing
    rwa [hq.pool]
  have inv := (closedOnce_rule).holds hq (ClosedOnce.start maxConns listenFd signalFd world) h
  exact inv.once k

instance (m : Machine ω τ) (ev : Event) : Decidable (ClosingAlone m ev) := by
  unfold ClosingAlone srvOk okCqe
  have : ∀ cqe : Cqe, Decidable (match cqe.op.code with
      | .accept => 0 ≤ cqe.res → True
      | .signal | .cancel => True
      | _ => ClosesAlone m.srv cqe) := by
    intro cqe
    split <;> infer_instance
  infer_instance

/-- A client disconnects, and its connection is freed. -/
theorem descriptor_closed_once_eof :
    ∃ m : Machine Unit Unit,
      Reaches (Machine.next plainEnv) ClosingAlone (Machine.start 4 3 9 ()) m ∧
        closesOf 0 m.srv.trace = 1 ∧ ∀ k, closesOf k m.srv.trace ≤ 1 := by
  obtain ⟨m, hm, hp⟩ := exists_reaches (Machine.next plainEnv) ClosingAlone (Machine.start 4 3 9 ())
    (connectEvents ++
      [.call .waitFails, .post ⟨firstRecv, 0, [], false, 0⟩,
        .post ⟨firstTimeout, -ECANCELED, [], false, 0⟩, .call .ready, .step, .step, .step,
        .call .waitFails,
        .post ⟨⟨.close, 1, 4, 0, 0, 0, false⟩, 0, [], false, 0⟩, .call .ready, .step, .step])
    (fun m => closesOf 0 m.srv.trace = 1) (by decide +kernel)
  exact ⟨m, hm, hp, descriptor_closed_once plainEnv 4 3 9 () hm⟩

/-- The first receive times out: the cancelled receive and the timeout both
close the descriptor. -/
theorem descriptor_closed_twice :
    ¬∀ (env : Env Unit Unit) (maxConns : ℕ) (listenFd signalFd : ℤ) (m : Machine Unit Unit),
      Reaches (Machine.next env) Linked (Machine.start maxConns listenFd signalFd ()) m →
        ∀ k, closesOf k m.srv.trace ≤ 1 := by
  intro h
  obtain ⟨m, hm, hp⟩ := exists_reaches (Machine.next plainEnv) Linked (Machine.start 4 3 9 ())
    (connectEvents ++
      [.call .waitFails, .post ⟨firstRecv, -ECANCELED, [], false, 0⟩,
        .post ⟨firstTimeout, -ETIME, [], false, 0⟩, .call .ready, .step, .step])
    (fun m => closesOf 0 m.srv.trace = 2) (by decide +kernel)
  have := h plainEnv 4 3 9 m hm 0
  omega

end Iohttp
