/-
# One connection of the server

What a connection reads and dispatches depends on the others only through the
ring, the clock and the application's state, which they share. `Lane.next` is
the run of one connection: the completions of its operations, each once, and
beside them whatever the others do. A run of the loop in which no completion is
handled twice and no id is given again is, for each of its connections, such a
run, so a fact about every lane is a fact about every connection of the server.

Key definitions: `Lane.next`, `Srv.lane`.

Key theorem: `lane_of_run`.
-/
import Iohttp.Core.Queue

namespace Iohttp

open Runs List

variable {ω τ : Type} {k : ℕ} {cqe : Cqe} {w w' : Work ω τ} {s s' : Srv ω τ} {c : Conn τ}

/-- The operation is one of connection `k`. -/
def Op.isOwn (k : ℕ) (op : Op) : Bool := op.serial = k && op.code.ofConn

/-- The operations of connection `k` in the ring. -/
def Ring.own (r : Ring) (k : ℕ) : List Op := r.ops.filter (Op.isOwn k)

def Act.isRead : Act → Bool
  | .closed _ _ => false
  | _ => true

/-- What connection `k` has read and dispatched. -/
def ownActs (k : ℕ) (trace : List Act) : List Act := trace.filter fun a => a.serial = k ∧ a.isRead = true

/-- Other connections have worked: connection `k` has the operations and the
acts that it had. -/
@[mk_iff]
structure Beside (k : ℕ) (w w' : Work ω τ) : Prop where
  asked : w.ring.asked ≤ w'.ring.asked
  ops : (w'.ring.own k).Perm (w.ring.own k)
  acts : ownActs k w'.trace = ownActs k w.trace

instance (k : ℕ) (w w' : Work ω τ) : Decidable (Beside k w w') := decidable_of_iff' _ (beside_iff k w w')

/-- What happens to one connection. -/
inductive LaneEvent (ω τ : Type) where
  | complete (cqe : Cqe)
  | others (w : Work ω τ)
  | drain
  | force

/-- The completion has been taken from the ring. -/
def Work.retire (w : Work ω τ) (cqe : Cqe) : Work ω τ := { w with ring := w.ring.retire cqe }

/-- The run of connection `k`. After it is freed, its completions are dropped. -/
def Lane.next (env : Env ω τ) (k : ℕ) (w : Work ω τ) : LaneEvent ω τ → Option (Work ω τ)
  | .complete cqe =>
    if cqe.op ∈ w.ring.own k ∧ cqe.WellFormed then
      if w.conn.Live then completeConn env (w.retire cqe) cqe else some (w.retire cqe)
    else none
  | .others w' => if Beside k w w' then some (w'.setConn w.conn) else none
  | .drain => some (w.setConn (drainConn w.conn))
  | .force => some (w.setConn freeConn)

/-- What an event of the lane can be. -/
inductive Lane.Next (env : Env ω τ) (k : ℕ) (w : Work ω τ) : LaneEvent ω τ → Work ω τ → Prop
  | handled {cqe : Cqe} {w' : Work ω τ} (own : cqe.op ∈ w.ring.own k) (wf : cqe.WellFormed)
    (live : w.conn.Live)
      (done : completeConn env (w.retire cqe) cqe = some w') : Next env k w (.complete cqe) w'
  | lost {cqe : Cqe} (own : cqe.op ∈ w.ring.own k) (wf : cqe.WellFormed) (dead : ¬w.conn.Live) :
      Next env k w (.complete cqe) (w.retire cqe)
  | others {v : Work ω τ} (beside : Beside k w v) : Next env k w (.others v) (v.setConn w.conn)
  | drain : Next env k w .drain (w.setConn (drainConn w.conn))
  | force : Next env k w .force (w.setConn freeConn)

variable {ev : LaneEvent ω τ} {i maxConns : ℕ}

theorem Lane.next_spec {env : Env ω τ}
    (hn : Lane.next env k w ev = some w') : Lane.Next env k w ev w' := by
  cases ev with
  | complete cqe =>
    simp only [Lane.next] at hn
    split_ifs at hn with hop hl
    · exact .handled hop.1 hop.2 hl hn
    · cases hn
      exact .lost hop.1 hop.2 hl
  | others v =>
    simp only [Lane.next] at hn
    split_ifs at hn with hb
    cases hn
    exact .others hb
  | drain =>
    cases hn
    exact .drain
  | force =>
    cases hn
    exact .force

/-- What connection `k` has read and dispatched stays so. -/
theorem Lane.next_acts {env : Env ω τ} (hn : Lane.next env k w ev = some w') :
    ∃ acts, ownActs k w'.trace = ownActs k w.trace ++ acts := by
  cases Lane.next_spec hn with
  | @handled cqe _ _ _ hl hw =>
    obtain ⟨acts, ht, -⟩ := (completeConn_worked (w := w.retire cqe) hl hw).trace
    exact ⟨ownActs k acts, by rw [ht]; exact filter_append ..⟩
  | others hb => exact ⟨[], by rw [append_nil]; exact hb.acts⟩
  | lost | drain | force => exact ⟨[], (append_nil _).symm⟩

/-- A condition on the run of a lane: on how often an entry was asked for when
the connection is accepted, on its completions, and whether the server may be
shut down. -/
structure LaneCond (ω τ : Type) where
  start : ℕ → Prop
  complete : Work ω τ → Cqe → Prop
  shutdown : Prop

/-- The condition on a step. -/
def LaneCond.ok (C : LaneCond ω τ) (w : Work ω τ) : LaneEvent ω τ → Prop
  | .complete cqe => C.complete w cqe
  | .others _ => True
  | .drain | .force => C.shutdown

/-- The start of a lane: connection `k` has been accepted, and nothing of it was
in the ring or has happened. -/
def Lane.Start (env : Env ω τ) (k : ℕ) (C : LaneCond ω τ) (w : Work ω τ) : Prop :=
  ∃ (w₁ : Work ω τ) (id : ℕ) (fd : ℤ), w = accepted env w₁ fd ∧ w₁.conn = allocConn id k (env.memory k) ∧
    w₁.ring.own k = [] ∧ ownActs k w₁.trace = [] ∧ C.start w₁.ring.asked

/-- The lane of connection `k` in the server. -/
def Srv.lane (s : Srv ω τ) (k : ℕ) : Work ω τ :=
  s.focus ((s.pool.conns.find? fun c => c.Live ∧ c.serial = k).getD freeConn)

/-! ### What others do -/

theorem mem_own {r : Ring} {op : Op} :
    op ∈ r.own k ↔ op ∈ r.ops ∧ op.serial = k ∧ op.code.ofConn = true := by
  simp [Ring.own, Op.isOwn]

theorem own_connOps (r : Ring) (k : ℕ) : r.own k = r.connOps.filter fun op => op.serial = k := by
  rw [Ring.connOps, filter_filter]
  rfl

theorem own_retire {r : Ring} (h : cqe.op.isOwn k = false) : (r.retire cqe).own k = r.own k := by
  unfold Ring.retire
  split_ifs
  · rfl
  · simp only [Ring.own, Ring.ops, filter_append]
    rw [filter_erase_of_not h, filter_erase_of_not h]

theorem Grows.own_append (h : Grows w w') (k : ℕ) :
    ∃ ops, (w'.ring.own k).Perm (w.ring.own k ++ ops) ∧ ∀ op ∈ ops, op.Of w.conn ∧
    op.isOwn k = true := by
  obtain ⟨ops, hp, ho⟩ := h.prepared
  refine ⟨ops.filter (Op.isOwn k), ?_, fun op hop => ?_⟩
  · simp only [Ring.own, Ring.ops, hp, h.submitted, filter_append, append_assoc]
    exact List.Perm.append_left _ perm_append_comm
  · obtain ⟨hm, hk⟩ := mem_filter.mp hop
    exact ⟨ho op hm, hk⟩

theorem Grows.beside (h : Grows w w') (hk : w.conn.serial ≠ k) : Beside k w w' := by
  refine ⟨h.asked, ?_, ?_⟩
  · obtain ⟨ops, hp, ho⟩ := h.own_append k
    obtain rfl : ops = [] := by
      rw [eq_nil_iff_forall_not_mem]
      intro op hop
      obtain ⟨⟨_, hs⟩, hk'⟩ := ho op hop
      simp only [Op.isOwn, Bool.and_eq_true, decide_eq_true_eq] at hk'
      exact hk (hs.symm.trans hk'.1)
    rwa [append_nil] at hp
  · obtain ⟨acts, ht, ha⟩ := h.trace
    have hnil : ownActs k acts = [] := by
      rw [ownActs, filter_eq_nil_iff]
      intro a hm hd
      exact hk ((ha a hm).symm.trans (of_decide_eq_true hd).1)
    rw [ht, ownActs, filter_append]
    change ownActs k w.trace ++ ownActs k acts = _
    rw [hnil, append_nil]

theorem Beside.trans {w₁ w₂ : Work ω τ} (h : Beside k w w₁) (h' : Beside k w₁ w₂) : Beside k w w₂ :=
  ⟨h.asked.trans h'.asked, h'.ops.trans h.ops, h'.acts.trans h.acts⟩

theorem Beside.congr {v v' : Work ω τ} (h : Beside k w w') (hr : v.ring = w.ring)
    (ht : v.trace = w.trace) (hr' : v'.ring = w'.ring) (ht' : v'.trace = w'.trace) : Beside k v v' :=
  ⟨by rw [hr, hr']; exact h.asked, by rw [hr, hr']; exact h.ops, by rw [ht, ht']; exact h.acts⟩

theorem beside_retire (w : Work ω τ) (h : cqe.op.isOwn k = false) : Beside k w (w.retire cqe) :=
  ⟨(retire_asked ..).ge, by rw [Work.retire, own_retire h], rfl⟩

theorem Quiet.beside (h : Quiet s s') (k : ℕ) (c c' : Conn τ) : Beside k (s.focus c) (s'.focus c') := by
  refine ⟨h.asked, ?_, by rw [Srv.focus_trace, h.trace, Srv.focus_trace]⟩
  rw [own_connOps, own_connOps]
  exact h.ops.filter _

variable {env : Env ω τ} {C : LaneCond ω τ}

theorem lane_others (h : Beside k w w') (hc : w'.conn = w.conn) :
    Reaches (Lane.next env k) C.ok w w' := by
  refine .step (.others w') .start trivial ?_
  rw [Lane.next, if_pos h, ← hc]
  rfl

theorem lane_complete (hm : cqe.op ∈ w.ring.own k) (hwf : cqe.WellFormed) (hok : C.complete w cqe)
    (h : (if w.conn.Live then completeConn env (w.retire cqe) cqe else some (w.retire cqe)) = some w') :
    Reaches (Lane.next env k) C.ok w w' := by
  refine .step (.complete cqe) .start hok ?_
  rw [Lane.next, if_pos ⟨hm, hwf⟩]
  exact h

/-! ### The lane of a connection in the server -/

theorem lane_live (h : LiveDistinct Conn.serial s.pool.conns)
    (hc : c ∈ s.pool.conns) (hl : c.Live) : s.lane c.serial = s.focus c := by
  unfold Srv.lane
  cases hf : s.pool.conns.find? fun d => decide (d.Live ∧ d.serial = c.serial) with
  | none =>
    have := find?_eq_none.mp hf c hc
    simp [hl] at this
  | some d =>
    have hd := find?_some hf
    rw [decide_eq_true_eq] at hd
    obtain ⟨i, hi⟩ := getElem?_of_mem (mem_of_find?_eq_some hf)
    obtain ⟨j, hj⟩ := getElem?_of_mem hc
    obtain rfl := h i j d c hi hj hd.1 hl hd.2
    rw [Option.getD_some, Option.some.inj (hi.symm.trans hj)]

theorem lane_free (h : ∀ c ∈ s.pool.conns, c.Live → c.serial ≠ k) : s.lane k = s.focus freeConn := by
  unfold Srv.lane
  rw [find?_eq_none.mpr, Option.getD_none]
  intro c hc hd
  rw [decide_eq_true_eq] at hd
  exact h c hc hd.1 hd.2

theorem lane_cases (h : LiveDistinct Conn.serial s.pool.conns) (k : ℕ) :
    (∃ c ∈ s.pool.conns, c.Live ∧ c.serial = k ∧ s.lane k = s.focus c) ∨
      ((∀ c ∈ s.pool.conns, c.Live → c.serial ≠ k) ∧ s.lane k = s.focus freeConn) := by
  by_cases hex : ∃ c ∈ s.pool.conns, c.Live ∧ c.serial = k
  · obtain ⟨c, hc, hl, rfl⟩ := hex
    exact .inl ⟨c, hc, hl, rfl, lane_live h hc hl⟩
  · have hno : ∀ c ∈ s.pool.conns, c.Live → c.serial ≠ k := fun c hc hl hk => hex ⟨c, hc, hl, hk⟩
    exact .inr ⟨hno, lane_free hno⟩

theorem lane_congr (h : LiveDistinct Conn.serial s.pool.conns)
    (h' : LiveDistinct Conn.serial s'.pool.conns)
    (hc : ∀ c : Conn τ, c.Live → c.serial = k → (c ∈ s'.pool.conns ↔ c ∈ s.pool.conns)) :
    (s'.lane k).conn = (s.lane k).conn := by
  rcases lane_cases h k with ⟨c, hm, hl, rfl, he⟩ | ⟨hno, he⟩
  · rw [he, lane_live h' ((hc c hl rfl).mpr hm) hl]
    rfl
  · rw [he, lane_free fun c hm hl hk => hno c ((hc c hl hk).mp hm) hl hk]
    rfl

theorem mem_set_iff {conns : List (Conn τ)} {x d : Conn τ} (hc : conns[i]? = some c)
    (hcd : c ≠ d) (hxd : x ≠ d) : d ∈ conns.set i x ↔ d ∈ conns := by
  constructor
  · intro h
    exact (mem_or_eq_of_mem_set h).resolve_right fun he => hxd he.symm
  · intro h
    obtain ⟨j, hj⟩ := getElem?_of_mem h
    refine mem_of_getElem? (i := j) ?_
    rw [getElem?_set_ne, hj]
    rintro rfl
    exact hcd (Option.some.inj (hc.symm.trans hj))

theorem lane_restore (h : LiveDistinct Conn.serial s.pool.conns) (hc : s.pool.conns[i]? = some c)
    (hl : c.Live) (hw : Worked (s.focus c) w') : (s.restore i w').lane c.serial = w' := by
  have hilt := (List.getElem?_eq_some_iff.mp hc).1
  have h' : LiveDistinct Conn.serial (s.restore i w').pool.conns :=
    h.replace hc hl fun hl' => (hw.of_live hl').2
  rcases hw.conn with hfree | ⟨hl', _, hs'⟩
  · have hno : ∀ d ∈ (s.restore i w').pool.conns, d.Live → d.serial ≠ c.serial := by
      intro d hd hdl hds
      obtain ⟨j, hj⟩ := getElem?_of_mem hd
      rcases getElem?_set_cases hj with ⟨_, rfl⟩ | ⟨hji, hj⟩
      · exact hdl (hfree ▸ rfl)
      · exact hji (h j i d c hj hc hdl hl hds)
    rw [lane_free hno, ← hfree]
    rfl
  · have hmem : w'.conn ∈ (s.restore i w').pool.conns := mem_of_getElem? (getElem?_set_self hilt)
    have := lane_live h' hmem hl'
    rw [hs'] at this
    exact this

theorem lane_quiet (h : Quiet s s') : Reaches (Lane.next env k) C.ok (s.lane k) (s'.lane k) := by
  refine lane_others (h.beside k _ _) ?_
  simp only [Srv.lane, h.pool]
  rfl

theorem isOwn_false {op : Op} (h : op.serial ≠ k) : op.isOwn k = false := by
  simp [Op.isOwn, h]

theorem lane_conn (h : Numbered s) (hop : cqe.op ∈ s.ring.ops) (hcode : cqe.op.code.ofConn = true)
    (hwf : cqe.WellFormed) (hok : cqe.op.serial = k → C.complete (s.lane k) cqe)
    (hf : findConnById s.pool cqe.op.id = some i) (hc : s.pool.conns[i]? = some c)
    (hw : completeConn env ((s.retire cqe).focus c) cqe = some w') :
    Reaches (Lane.next env k) C.ok (s.lane k) (((s.retire cqe).restore i w').lane k) := by
  obtain ⟨c', hc', hl, hid⟩ := findConnById_some hf
  obtain rfl := Option.some.inj (hc'.symm.trans hc)
  have hm := mem_of_getElem? hc
  -- the operation is one of this connection
  have hser : c'.serial = cqe.op.serial :=
    IdOf.inj h.few (h.live c' hm hl) (by rw [hid]; exact h.ops _ (mem_connOps.mpr ⟨hop, hcode⟩))
  have hwork := completeConn_worked hl hw
  have h' := h.conn hc hl hw
  by_cases hk : c'.serial = k
  · subst hk
    rw [lane_live h.distinct hm hl] at hok ⊢
    refine lane_complete (mem_own.mpr ⟨hop, hser.symm, hcode⟩) hwf (hok hser.symm) ?_
    refine (if_pos hl).trans (hw.trans (congrArg some ?_))
    exact (lane_restore (s := s.retire cqe) h.distinct hc hl hwork).symm
  · refine lane_others ?_ ?_
    · exact (beside_retire (s.lane k) (isOwn_false fun he => hk (hser.trans he))).trans
        ((hwork.toGrows.beside hk).congr rfl rfl rfl rfl)
    · refine lane_congr h.distinct h'.distinct fun d hdl hdk => mem_set_iff hc ?_ ?_
      · rintro rfl
        exact hk hdk
      · rintro rfl
        exact hk ((hwork.of_live hdl).2.symm.trans hdk)

theorem lane_lost (h : Numbered s) (hop : cqe.op ∈ s.ring.ops)
    (hcode : cqe.op.code.ofConn = true) (hwf : cqe.WellFormed)
    (hok : cqe.op.serial = k → C.complete (s.lane k) cqe) (hf : findConnById s.pool cqe.op.id = none) :
    Reaches (Lane.next env k) C.ok (s.lane k) ((s.retire cqe).lane k) := by
  by_cases hk : cqe.op.serial = k
  · have hno : ∀ c ∈ s.pool.conns, c.Live → c.serial ≠ k := by
      intro c hc hl hs
      refine findConnById_none hf hc hl ?_
      rw [(h.live c hc hl).2, (h.ops _ (mem_connOps.mpr ⟨hop, hcode⟩)).2, hs, hk]
    refine lane_complete (mem_own.mpr ⟨hop, hk, hcode⟩) hwf (hok hk) ?_
    rw [lane_free hno, if_neg (fun hl => hl rfl)]
    exact congrArg some (lane_free (s := s.retire cqe) hno).symm
  · exact lane_others (beside_retire (s.lane k) (isOwn_false hk)) rfl

theorem lane_accept (h : Numbered s) (hfew : FewConns s cqe) (hk : k ≠ s.pool.serial) (fd : ℤ) :
    Reaches (Lane.next env k) C.ok (s.lane k) ((acceptFd env s fd).lane k) := by
  have h' := h.accept env hfew fd
  rcases acceptFd_cases env s fd with he | ⟨i, c, hc, hfree, he⟩
  · rw [he]
    exact .start
  · have hwork := (effect_accepted env (s.count.focus (s.newConn env)) fd).worked (fun hf => by cases hf)
    rw [he] at h' ⊢
    refine lane_others ((hwork.toGrows.beside hk.symm).congr rfl rfl rfl rfl) ?_
    refine lane_congr h.distinct h'.distinct fun d hdl hdk => mem_set_iff hc ?_ ?_
    · rintro rfl
      exact hfree hdl
    · rintro rfl
      exact hk (hdk.symm.trans (hwork.of_live hdl).2)

/-! ### The lanes of a run -/

theorem drainConn_isLive (h : c.Live) : (drainConn c).Live := by
  by_contra hd
  exact hd (by rwa [drainConn_free hd])

variable {P : Srv ω τ → Prop} {m : Machine ω τ} {listenFd signalFd : ℤ}

theorem lane_drainAll (h : Numbered s) (k : ℕ) :
    s.drainAll.lane k = (s.lane k).setConn (drainConn (s.lane k).conn) := by
  rcases lane_cases h.distinct k with ⟨c, hc, hl, rfl, hlane⟩ | ⟨hno, hlane⟩
  · have hl' := drainConn_isLive hl
    have := lane_live h.drain.distinct (mem_map_of_mem hc) hl'
    rw [(drainConn_live hl').2] at this
    rw [hlane, this]
    rfl
  · rw [hlane, lane_free fun d hd hdl hdk => ?_]
    · rfl
    · obtain ⟨c, hc, rfl⟩ := mem_map.mp hd
      exact hno c hc (drainConn_live hdl).1 ((drainConn_live hdl).2.symm.trans hdk)

theorem lane_drain (h : Numbered s) (he : C.shutdown) :
    Reaches (Lane.next env k) C.ok (s.lane k) (s.drainAll.lane k) :=
  .step .drain .start he (congrArg some (lane_drainAll h k).symm)

theorem lane_forceClose (s : Srv ω τ) (k : ℕ) :
    (forceClose s).lane k = (forceClose s).focus freeConn := by
  refine lane_free fun d hd hdl => absurd hdl ?_
  obtain ⟨c, _, rfl⟩ := mem_map.mp hd
  split_ifs with hs
  · exact not_not.mpr hs
  · exact not_not.mpr rfl

theorem lane_force (s : Srv ω τ) (he : C.shutdown) :
    Reaches (Lane.next env k) C.ok (s.lane k) ((forceClose s).lane k) := by
  have hacts : ownActs k (s.pool.conns.flatMap forceClosed) = [] := by
    rw [ownActs, filter_eq_nil_iff]
    intro a ha hd
    obtain ⟨c, _, ha⟩ := mem_flatMap.mp ha
    unfold forceClosed at ha
    split_ifs at ha
    · rw [mem_singleton.mp ha] at hd
      cases (of_decide_eq_true hd).2
    · cases ha
  refine Reaches.trans (s := (s.lane k).setConn freeConn) (.step .force .start he rfl)
    (lane_others ⟨le_rfl, .refl _, ?_⟩ ?_)
  · show ownActs k (s.trace ++ _) = ownActs k s.trace
    rw [ownActs, filter_append]
    change ownActs k s.trace ++ ownActs k _ = _
    rw [hacts, append_nil]
  · rw [lane_forceClose]
    rfl

/-- Once connection `k` has been accepted, its lane has a run. -/
def LaneRuns (env : Env ω τ) (k : ℕ) (C : LaneCond ω τ) (s : Srv ω τ) : Prop :=
  k < s.pool.serial →
    ∃ w₀, Lane.Start env k C w₀ ∧ Reaches (Lane.next env k) C.ok w₀ (s.lane k)

theorem LaneRuns.step (h : LaneRuns env k C s) (hs : s'.pool.serial = s.pool.serial)
    (hr : Reaches (Lane.next env k) C.ok (s.lane k) (s'.lane k)) : LaneRuns env k C s' := by
  intro hk
  obtain ⟨w₀, h₀, hw⟩ := h (hs ▸ hk)
  exact ⟨w₀, h₀, hw.trans hr⟩

theorem Numbered.own_nil (h : Numbered s) (hk : s.pool.serial ≤ k) :
    s.ring.own k = [] ∧ ownActs k s.trace = [] := by
  constructor
  · rw [eq_nil_iff_forall_not_mem]
    intro op hop
    obtain ⟨hm, hs, hc⟩ := mem_own.mp hop
    have := (h.ops op (mem_connOps.mpr ⟨hm, hc⟩)).1
    omega
  · rw [ownActs, filter_eq_nil_iff]
    intro a ha hd
    have := h.acts a ha
    have := (of_decide_eq_true hd).1
    omega

theorem LaneRuns.accept (h : Numbered s) (hl : LaneRuns env k C s)
    (hfew : FewConns s cqe) (hstart : s.pool.serial = k → C.start s.ring.asked) (fd : ℤ) :
    LaneRuns env k C (acceptFd env s fd) := by
  by_cases hk : k = s.pool.serial
  · subst hk
    rcases acceptFd_cases env s fd with he | ⟨i, c, hc, hfree, he⟩
    · rw [he]
      exact hl
    · have h' := h.accept env hfew fd
      have hwork :=
        (effect_accepted env (s.count.focus (s.newConn env)) fd).worked (fun hf => by cases hf)
      obtain ⟨hops, hacts⟩ := h.own_nil le_rfl
      rw [he] at h' ⊢
      intro _
      refine ⟨_, ⟨s.count.focus (s.newConn env), s.pool.nextId, fd, ?_, rfl, hops, hacts,
        hstart rfl⟩, .start⟩
      -- the lane is what the work has left
      rcases hwork.conn with hf | ⟨hl', _, hs'⟩
      · rw [lane_free, ← hf]
        · rfl
        · intro d hd hdl hds
          rcases mem_or_eq_of_mem_set hd with hd | rfl
          · exact absurd hds (h.live d hd hdl).1.ne
          · exact hdl (hf ▸ rfl)
      · have hlt := (List.getElem?_eq_some_iff.mp hc).1
        have := lane_live h'.distinct (mem_of_getElem? (getElem?_set_self hlt)) hl'
        rw [hs'] at this
        exact this
  · have hr : Reaches (Lane.next env k) C.ok (s.lane k) ((acceptFd env s fd).lane k) :=
      lane_accept h hfew hk fd
    intro hlt
    refine (hl ?_).imp fun w₀ hw => ⟨hw.1, hw.2.trans hr⟩
    rcases acceptFd_cases env s fd with he | ⟨i, c, _, _, he⟩
    · rwa [he] at hlt
    · rw [he] at hlt
      exact lt_of_le_of_ne (Nat.le_of_lt_succ hlt) hk

/-- A completion answers an operation of a connection in the ring, and meets
the condition of the lane if that is `k`. -/
def LaneCqe (k : ℕ) (C : LaneCond ω τ) (s : Srv ω τ) (cqe : Cqe) : Prop :=
  cqe.op ∈ s.ring.connOps ∧ cqe.WellFormed ∧ (cqe.op.serial = k → C.complete (s.lane k) cqe)

/-- A connection may be accepted, also if it is `k`. -/
def LaneAccept (k : ℕ) (C : LaneCond ω τ) (s : Srv ω τ) (cqe : Cqe) : Prop :=
  FewConns s cqe ∧ (s.pool.serial = k → C.start s.ring.asked)

/-- What a step of the lane keeps is kept by the handling of every completion. -/
theorem lane_handleRule
    (step : ∀ s s', s'.pool.serial = s.pool.serial → Reaches (Lane.next env k) C.ok (s.lane k)
      (s'.lane k) →
      P s → P s')
    (accept : ∀ s cqe, Numbered s → LaneAccept k C s cqe → P s → P (acceptFd env s cqe.res)) :
    HandleRule env (fun s => Numbered s ∧ P s) (LaneCqe k C) (LaneAccept k C) where
  quiet s s' hq h := ⟨h.1.quiet hq, step s s' (by rw [hq.pool]) (lane_quiet hq) h.2⟩
  conn s cqe i c w' h hok hf hc hw := by
    obtain ⟨c', hc', hl, _⟩ := findConnById_some hf
    obtain rfl := Option.some.inj (hc'.symm.trans hc)
    obtain ⟨hop, hcode⟩ := mem_connOps.mp hok.1
    exact ⟨h.1.conn hc hl hw, step s _ rfl (lane_conn h.1 hop hcode hok.2.1 hok.2.2 hf hc hw) h.2⟩
  lost s cqe h hok hf := by
    obtain ⟨hop, hcode⟩ := mem_connOps.mp hok.1
    exact ⟨h.1.retire cqe, step s _ rfl (lane_lost h.1 hop hcode hok.2.1 hok.2.2 hf) h.2⟩
  accept s cqe h hacc := ⟨h.1.accept env hacc.1 cqe.res, accept s cqe h.1 hacc h.2⟩

theorem lane_rule (k : ℕ) (C : LaneCond ω τ) :
    HandleRule env (fun s => Numbered s ∧ LaneRuns env k C s) (LaneCqe k C) (LaneAccept k C) :=
  lane_handleRule (fun _ _ hs hr h => h.step hs hr) fun _ cqe hnum hacc h =>
  h.accept hnum hacc.1 hacc.2 cqe.res

/-- The steps of the loop, seen from connection `k`: no completion is handled
twice, fewer than `2 ^ 32` connections are accepted, and the completions of
connection `k` meet the condition of its lane. -/
def LaneStep (env : Env ω τ) (k : ℕ) (C : LaneCond ω τ) (m : Machine ω τ) (ev : Event) : Prop :=
  CalmTerm env m ev ∧ (m.drains ev = true ∨ m.forces ev = true → C.shutdown) ∧
    (ev = .step → ∀ cqe ∈ m.current,
      (cqe.op.code = .accept → 0 ≤ cqe.res → m.srv.pool.serial + 1 < 2 ^ 32 ∧
        (m.srv.pool.serial = k → C.start m.srv.ring.asked)) ∧
      (cqe.op.code.ofConn = true → cqe.op.serial = k → C.complete (m.srv.lane k) cqe))

/-- The queue is in order, and no id has been given twice. -/
structure Orderly (env : Env ω τ) (m : Machine ω τ) : Prop where
  aligned : Aligned env m
  queued : Queued m
  numbered : Numbered m.srv

theorem Orderly.start (env : Env ω τ) (maxConns : ℕ) (listenFd signalFd : ℤ) (world : ω) :
    Orderly env (Machine.start maxConns listenFd signalFd world : Machine ω τ) :=
  ⟨.idle (by simp [Machine.start]) rfl, ⟨by simp [Machine.start], by simp [Machine.start],
    by simp [Machine.start]⟩, Numbered.start ..⟩

theorem Orderly.next
    (R : HandleRule env (fun s => Numbered s ∧ P s) (LaneCqe k C) (LaneAccept k C))
    (hdrain : ∀ s, C.shutdown → Numbered s → P s → P s.drainAll)
    (hforce : ∀ s, C.shutdown → P s → P (forceClose s)) {m' : Machine ω τ} {ev : Event}
    (h : Orderly env m) (hP : P m.srv) (hok : LaneStep env k C m ev) (hn : m.next env ev = some m') :
    Orderly env m' ∧ P m'.srv := by
  obtain ⟨hcalm, hend, hstep⟩ := hok
  have hnum := h.numbered
  have hsrv : Numbered m'.srv ∧ P m'.srv := by
    rcases srvStep_next hn with hq | ⟨cqe, he, hcur, hh, _⟩ | ⟨hd, hq, he⟩ | ⟨hd, hq, hq'⟩
    · exact R.quiet _ _ hq ⟨hnum, hP⟩
    · refine R.handle ⟨hnum, hP⟩ ?_ hh
      obtain ⟨hacc, hconn⟩ := hstep he cqe hcur
      have hfirst := h.aligned.current hcur
      have legal : cqe.op.code.ofConn = true → LaneCqe k C m.srv cqe := fun hc =>
        ⟨mem_connOps.mpr ⟨mem_append_right _ (h.queued.pending _ cqe le_rfl hfirst hc), hc⟩,
          h.queued.wellFormed cqe (mem_of_getElem? hfirst), hconn hc⟩
      unfold okCqe
      split
      · next hc =>
        intro hr
        refine ⟨(hacc hc hr).1, fun hk => ?_⟩
        show C.start (m.srv.ring.retire cqe).asked
        rw [retire_asked]
        exact (hacc hc hr).2 hk
      · trivial
      · trivial
      · refine legal ?_
        cases hc : cqe.op.code <;> simp_all [OpCode.ofConn]
    · rw [he]
      have h₁ := R.quiet _ _ hq ⟨hnum, hP⟩
      exact ⟨h₁.1.drain, hdrain _ (hend (.inl hd)) h₁.1 h₁.2⟩
    · have h₁ := R.quiet _ _ hq ⟨hnum, hP⟩
      exact R.quiet _ _ hq' ⟨h₁.1.force, hforce _ (hend (.inr hd)) h₁.2⟩
  exact ⟨⟨(h.aligned.next hcalm hn).1, h.queued.next h.aligned hcalm hn, hsrv.1⟩, hsrv.2⟩

theorem lanes_of_run {world : ω}
    (h : Reaches (Machine.next env) (LaneStep env k C)
      (Machine.start maxConns listenFd signalFd world) m) : Orderly env m ∧ LaneRuns env k C m.srv := by
  refine h.invariant (fun m => Orderly env m ∧ LaneRuns env k C m.srv)
    ⟨Orderly.start .., fun hlt => absurd hlt (Nat.not_lt_zero k)⟩ fun m ev m' hi hok hn => ?_
  exact hi.1.next (lane_rule k C) (fun s he hs hl => hl.step rfl (lane_drain hs he))
    (fun s he hl => hl.step rfl (lane_force s he)) hi.2 hok hn

/-- **Every connection of the server runs in its lane.** -/
theorem lane_of_run {world : ω}
    (h : Reaches (Machine.next env) (LaneStep env k C)
      (Machine.start maxConns listenFd signalFd world) m) (hk : k < m.srv.pool.serial) :
    ∃ w₀, Lane.Start env k C w₀ ∧ Reaches (Lane.next env k) C.ok w₀ (m.srv.lane k) :=
  (lanes_of_run h).2 hk

/-- The lane of a connection that is there, from any state on. -/
def LaneFrom (env : Env ω τ) (k : ℕ) (C : LaneCond ω τ) (w₀ : Work ω τ) (s : Srv ω τ) : Prop :=
  k < s.pool.serial ∧ Reaches (Lane.next env k) C.ok w₀ (s.lane k)

theorem laneFrom_rule (k : ℕ) (C : LaneCond ω τ) (w₀ : Work ω τ) :
    HandleRule env (fun s => Numbered s ∧ LaneFrom env k C w₀ s) (LaneCqe k C) (LaneAccept k C) := by
  refine lane_handleRule (fun s s' hs hr h => ⟨hs ▸ h.1, h.2.trans hr⟩) fun s cqe hnum hacc h => ?_
  refine ⟨?_, h.2.trans (lane_accept hnum hacc.1 h.1.ne cqe.res)⟩
  rcases acceptFd_cases env s cqe.res with he | ⟨i, c, _, _, he⟩
  · rw [he]
    exact h.1
  · rw [he]
    exact Nat.lt_succ_of_lt h.1

theorem lane_of_reaches {m₀ : Machine ω τ} (h₀ : Orderly env m₀) (hk : k < m₀.srv.pool.serial)
    (h : Reaches (Machine.next env) (LaneStep env k C) m₀ m) :
    Reaches (Lane.next env k) C.ok (m₀.srv.lane k) (m.srv.lane k) := by
  refine (h.invariant (fun m => Orderly env m ∧ LaneFrom env k C (m₀.srv.lane k) m.srv)
    ⟨h₀, hk, .start⟩ fun m ev m' hi hok hn => ?_).2.2
  exact hi.1.next (laneFrom_rule k C _)
    (fun s he hs hl => ⟨hl.1, hl.2.trans (lane_drain hs he)⟩)
    (fun s he hl => ⟨hl.1, hl.2.trans (lane_force s he)⟩) hi.2 hok hn

end Iohttp
