/-
# What a connection reads

A client sends messages on a plaintext connection, and the kernel hands them to
the server in pieces. The receive buffer keeps what has arrived of a message
until it is whole; then the request is dispatched, its bytes leave the buffer,
and nothing is received until the response is sent. When that is done,
`ioh_server_run_once` sets `recv_len` to 0: bytes of the next message that came
with the last one are lost, and so is a chunked body, which the parser does not
count as part of its request, if it was received by then. What comes later of
it is parsed as a request.

Key definitions: `Phase`, `Reads`.

Key theorems: `onHttp_message`, `Reads.onRecv`, `Reads.onSend`.
-/
import Iohttp.Core.Lane
import Iohttp.Core.InFlight
import Iohttp.Http.Message

namespace Iohttp

open Runs List

variable {ω τ : Type} {op : Op} {k n : ℕ} {r : Ring} {w w' : Work ω τ} {cqe : Cqe} {env : Env ω τ}
  {c : Conn τ} {u cur : Bytes} {m : Message} {acts : List Act}

def received (acts : List Act) : Bytes :=
  acts.flatMap fun
    | .received _ data => data
    | _ => []

def dispatched (acts : List Act) : List Request :=
  acts.filterMap fun
    | .dispatched _ req => some req
    | _ => none

/-- The buffers that were given to the parser, by their position in what was
received and their length; `n` bytes were received before. -/
def parseSpans (n : ℕ) : List Act → List (ℕ × ℕ)
  | [] => []
  | .received _ data :: acts => parseSpans (n + data.length) acts
  | .parsed _ buf :: acts => (n - buf.length, buf.length) :: parseSpans n acts
  | _ :: acts => parseSpans n acts

@[simp]
theorem received_append (a b : List Act) : received (a ++ b) = received a ++ received b :=
  flatMap_append

@[simp]
theorem dispatched_append (a b : List Act) : dispatched (a ++ b) = dispatched a ++ dispatched b :=
  filterMap_append

theorem parseSpans_append : ∀ (n : ℕ) (a b : List Act),
    parseSpans n (a ++ b) = parseSpans n a ++ parseSpans (n + (received a).length) b
  | n, [], b => rfl
  | n, a :: as, b => by
    cases a with
    | received k data =>
      simp only [cons_append, parseSpans, parseSpans_append, received, flatMap_cons,
        length_append, Nat.add_assoc]
    | parsed k buf =>
      simp only [cons_append, parseSpans, parseSpans_append]
      rfl
    | fed | dispatched | closed => exact parseSpans_append n as b

/-! ### The receives and sends of a connection -/

/-- The operation is a receive or a send of connection `k`. -/
def Op.isData (k : ℕ) (op : Op) : Bool := op.serial = k && (op.code = .recv || op.code = .send)

/-- The receives and sends of connection `k` in the ring. -/
def Ring.data (r : Ring) (k : ℕ) : List Op := r.ops.filter (Op.isData k)

theorem data_own (r : Ring) (k : ℕ) :
    r.data k = (r.own k).filter fun op => op.code = .recv || op.code = .send := by
  rw [Ring.own, filter_filter]
  refine filter_congr fun op _ => ?_
  unfold Op.isData Op.isOwn
  cases op.code <;> simp [OpCode.ofConn]

theorem data_of_own (h : r.own k = []) : r.data k = [] := by
  rw [data_own, h]
  rfl

theorem Beside.data (h : Beside k w w') : (w'.ring.data k).Perm (w.ring.data k) := by
  rw [data_own, data_own]
  exact h.ops.filter _

theorem data_retire (h : r.data k = [op]) (hc : cqe.op = op)
    (hm : cqe.more = false) : (r.retire cqe).data k = [] := by
  simp only [Ring.retire, hm, Bool.false_eq_true, if_false, Ring.data, Ring.ops, filter_append,
    ← erase_filter, hc]
  simp only [Ring.data, Ring.ops, filter_append] at h
  rcases append_eq_singleton_iff.mp h with ⟨h₁, h₂⟩ | ⟨h₁, h₂⟩ <;> simp [h₁, h₂]

theorem data_retire_other (h : cqe.op.isData k = false) : (r.retire cqe).data k = r.data k := by
  unfold Ring.retire
  split_ifs
  · rfl
  · simp only [Ring.data, Ring.ops, filter_append]
    rw [filter_erase_of_not h, filter_erase_of_not h]

theorem data_prep (h : w.ring.data k = []) (op : Op) :
    (w.prep op).ring.data k = if op.isData k then [op] else [] := by
  simp only [Ring.data, Ring.ops, filter_append, append_eq_nil_iff] at h
  simp only [Work.prep, Ring.prepare, Ring.data, Ring.ops, filter_append, h.1, h.2, nil_append,
    append_nil, filter_cons, filter_nil]

/-- Work has left `ops` as the receives and sends of the connection; it has
closed nothing and read nothing. -/
structure Adds (k : ℕ) (w w' : Work ω τ) (ops : List Op) : Prop where
  data : w'.ring.data k = ops
  acts : ownActs k w'.trace = ownActs k w.trace
  opened : ∀ op ∈ w'.ring.own k, op ∈ w.ring.own k ∨ op.code ≠ .close

theorem adds_ask (h : w.ring.data k = []) : Adds k w w.ask [] :=
  ⟨h, rfl, fun _ hop => .inl hop⟩

variable {ops : List Op}

theorem Adds.opened_prep (h : Adds k w w' ops) (hc : op.code ≠ .close) :
    ∀ o ∈ (w'.prep op).ring.own k, o ∈ w.ring.own k ∨ o.code ≠ .close := by
  intro o ho
  obtain ⟨hm, hs⟩ := mem_own.mp ho
  obtain hm | rfl := mem_ops_prep.mp hm
  · exact h.opened o (mem_own.mpr ⟨hm, hs⟩)
  · exact .inr hc

theorem Adds.prep (h : Adds k w w' []) (op : Op) (hc : op.code ≠ .close) :
    Adds k w (w'.prep op) (if op.isData k then [op] else []) :=
  ⟨data_prep h.data op, h.acts, h.opened_prep hc⟩

theorem Adds.prep_timeout (h : Adds k w w' ops)
    (hc : op.code = .timeout) : Adds k w (w'.prep op) ops := by
  refine ⟨?_, h.acts, h.opened_prep (by simp [hc])⟩
  rw [← h.data]
  simp [Work.prep, Ring.prepare, Ring.data, Ring.ops, filter_append, Op.isData, hc]

theorem adds_armRecv (hd : w.ring.data k = []) (hk : w.conn.serial = k) :
    (env.sqe w.ring.asked = true ∧ ∃ op : Op, op.code = .recv ∧ op.off = w.conn.recvLen ∧
        op.len = recvBufSize - w.conn.recvLen ∧ Adds k w (armRecv env w).1 [op]) ∨
      (env.sqe w.ring.asked = false ∧ Adds k w (armRecv env w).1 []) := by
  have recv : ∀ linked w', Adds k w w' [] → Adds k w (w'.prep (w.recvOp linked)) [w.recvOp linked] := by
    intro linked w' h
    have hi : (w.recvOp linked).isData k = true := by simp [Op.isData, Work.recvOp, Work.opFor, hk]
    have := h.prep (w.recvOp linked) (by simp [Work.recvOp, Work.opFor])
    rwa [if_pos hi] at this
  have ask₁ := adds_ask hd
  have ask₂ : Adds k w w.ask.ask [] := ⟨hd, rfl, fun _ hop => .inl hop⟩
  unfold armRecv
  by_cases hs : env.sqe w.ring.asked = true
  · left
    simp only [hs, if_true, true_and]
    split_ifs
    · exact ⟨w.recvOp true, rfl, rfl, rfl, (recv true _ ask₂).prep_timeout rfl⟩
    · exact ⟨w.recvOp false, rfl, rfl, rfl, recv false _ ask₂⟩
    · exact ⟨w.recvOp false, rfl, rfl, rfl, recv false _ ask₁⟩
  · right
    rw [if_neg hs]
    exact ⟨by simpa using hs, ask₁⟩

theorem armRecv_zero (h : env.sqe w.ring.asked = true) : (armRecv env w).2 = 0 := by
  unfold armRecv
  simp only
  split_ifs <;> rfl

theorem adds_send (hd : w.ring.data k = []) (hk : w.conn.serial = k) (c : Conn τ) (off len : ℕ) :
    Adds k w ((w.setConn c).ask.prep (w.opFor .send off len false)) [w.opFor .send off len false] := by
  have hi : (w.opFor .send off len false).isData k = true := by simp [Op.isData, Work.opFor, hk]
  have hask : Adds k w (w.setConn c).ask [] := ⟨hd, rfl, fun _ hop => .inl hop⟩
  have := hask.prep (w.opFor .send off len false) (by simp [Work.opFor])
  rwa [if_pos hi] at this

variable {buf data : Bytes}

theorem take_drop_buf (hu : buf.take u.length = u) {i j : ℕ} (h : i + j ≤ u.length) :
    (buf.drop i).take j = (u.drop i).take j := by
  rw [← hu, drop_take, take_take, min_eq_left (by omega)]

/-- The HTTP part of a receive, with a piece `u` of a message in the buffer. -/
theorem onHttp_message
    (len : w.conn.recvLen = u.length) (buf : w.conn.recvBuf.take u.length = u) (hu : u <+: m.bytes) :
    onHttp env w =
      if u.length > env.config.maxHeaderSize then .reject w 431 (bytes "Request Header Fields Too Large")
      else let w' := w.note (.parsed w.conn.serial u)
        if u.length < m.hdrLen then .done (armRecv env w').1
        else if m.req.contentLength > env.config.maxBodySize then
          .reject w' 413 (bytes "Content Too Large")
        else if u.length < m.total then .done (armRecv env (w'.setConn (bodyTimeout env w.conn m.req))).1
        else .dispatch w' m.request m.total := by
  have hbuf : w.conn.buf = u := by rw [Conn.buf, len, buf]
  unfold onHttp
  rw [hbuf, len]
  by_cases hbig : u.length > env.config.maxHeaderSize
  · rw [if_pos hbig, if_pos hbig]
  rw [if_neg hbig, if_neg hbig]
  by_cases hshort : u.length < m.hdrLen
  · rw [m.parse_short hu hshort, if_pos hshort]
    simp
  rw [m.parse_head hu (not_lt.mp hshort), if_neg hshort]
  show onRequest env _ _ _ = _
  unfold onRequest
  by_cases hbody : m.req.contentLength > env.config.maxBodySize
  · rw [if_pos hbody, if_pos hbody]
  have hiff : (m.req.contentLength > 0 ∧
      (w.note (.parsed w.conn.serial u)).conn.recvLen - m.hdrLen < m.req.contentLength) ↔
      u.length < m.total := by
    show m.req.contentLength > 0 ∧ w.conn.recvLen - m.hdrLen < m.req.contentLength ↔ _
    unfold Message.total
    omega
  by_cases hmore : u.length < m.total
  · rw [if_pos hmore, if_pos (hiff.mpr hmore)]
    rfl
  rw [if_neg hmore, if_neg (fun h => hmore (hiff.mp h))]
  have hreq : withBody (w.note (.parsed w.conn.serial u)).conn m.req m.hdrLen = m.request := by
    have ht : m.total ≤ u.length := not_lt.mp hmore
    unfold withBody Message.request
    rw [← m.request_take hu ht, ← take_drop_buf buf ht]
    rfl
  rw [hreq]
  rfl

/-! ### Where a connection stands -/

/-- An HTTP connection without TLS. -/
def Conn.Plain (c : Conn τ) : Prop :=
  c.tls = none ∧ (c.state = .httpActive ∨ c.state = .draining ∨ c.state = .closing)

theorem Conn.Plain.live (h : c.Plain) : c.Live := by
  rcases h.2 with h | h | h <;> simp [Conn.Live, h]

/-- A buffer that was given to the parser is the start of a message, or all of
it. -/
def AtMessage (ms : List Message) (span : ℕ × ℕ) : Prop :=
  ∃ i m, ms[i]? = some m ∧ span.1 = (stream (ms.take i)).length ∧ span.2 ≤ m.bytes.length

/-- Of the messages, `n` were dispatched, and `cur` was received of the next
one. -/
structure Progress (ms : List Message) (acts : List Act) (n : ℕ) (cur : Bytes) : Prop where
  received : received acts = stream (ms.take n) ++ cur
  dispatched : dispatched acts = (ms.take n).map Message.request
  spans : ∀ p ∈ parseSpans 0 acts, AtMessage ms p

/-- There is more to come of the message of which `cur` was received. -/
def Short (ms : List Message) (n : ℕ) (cur : Bytes) : Prop :=
  cur = [] ∨ ∃ m, ms[n]? = some m ∧ cur <+: m.bytes ∧ cur.length < m.total

/-- Between two completions, every message that has arrived was dispatched, if
the messages are within the limits of the server (`lim`). -/
structure Settled (lim : Prop) (ms : List Message) (acts : List Act) (n : ℕ) (cur : Bytes) : Prop extends
    Progress ms acts n cur where
  short : lim → Short ms n cur

/-- The connection receives a message, of which `cur` is in the buffer; it sends
a response; or, unless all is `good`, it will not receive any more. -/
inductive Phase (good : Prop) (ms : List Message) (n : ℕ) (cur : Bytes) (c : Conn τ) (ops : List Op) :
    Prop where
  | reading (op : Op) (plain : c.Plain) (active : good → c.state = .httpActive)
      (idle : c.sendActive = false) (len : c.recvLen = cur.length)
      (buf : c.recvBuf.take cur.length = cur)
      (data : ops = [op]) (code : op.code = .recv) (off : op.off = cur.length)
      (room : op.len = recvBufSize - cur.length) (short : Short ms n cur)
  | sending (op : Op) (plain : c.Plain) (active : good → c.state = .httpActive ∧ c.keepAlive = true)
      (none : cur = []) (data : ops = [op]) (code : op.code = .send)
  | ended (bad : ¬good) (ends : c.Live → c.Plain ∧ (∀ op ∈ ops, op.code ≠ .recv) ∧
      (c.keepAlive = false ∨ c.state = .closing ∨ ops = []))

/-- What holds along the lane of connection `k`. -/
structure Reads (lim good : Prop) (ms : List Message) (k : ℕ) (w : Work ω τ) : Prop where
  serial : w.conn.Live → w.conn.serial = k
  opened : good → ∀ op ∈ w.ring.own k, op.code ≠ .close
  phase : ∃ n cur, Settled lim ms (ownActs k w.trace) n cur ∧ Phase good ms n cur w.conn (w.ring.data k)

variable {lim good : Prop} {ms : List Message} {k : ℕ}

theorem Progress.settled (h : Progress ms acts n cur)
    (short : Short ms n cur) : Settled lim ms acts n cur :=
  { h with short := fun _ => short }

theorem Progress.settled_nil (h : Progress ms acts n []) : Settled lim ms acts n [] :=
  h.settled (.inl rfl)

theorem Adds.stays (h : Adds k w w' ops) (ho : good → ∀ op ∈ w.ring.own k, op.code ≠ .close) :
    good → ∀ op ∈ w'.ring.own k, op.code ≠ .close := by
  intro hg op hop
  rcases h.opened op hop with hop | hc
  · exact ho hg op hop
  · exact hc

theorem mem_own_retire (h : op ∈ (r.retire cqe).own k) : op ∈ r.own k := by
  rw [own_connOps] at h ⊢
  obtain ⟨hm, hs⟩ := mem_filter.mp h
  exact mem_filter.mpr ⟨connOps_retire hm, hs⟩

theorem mem_data : op ∈ r.data k ↔ op ∈ r.own k ∧ (op.code = .recv ∨ op.code = .send) := by
  rw [data_own, mem_filter]
  simp

theorem Reads.mono {good' : Prop} (h : Reads lim good ms k w) (hg : good' → good) :
    Reads lim good' ms k w := by
  obtain ⟨n, cur, hp, hphase⟩ := h.phase
  refine ⟨h.serial, fun g => h.opened (hg g), n, cur, hp, ?_⟩
  cases hphase with
  | reading op plain active idle len buf data code off room short =>
    exact .reading op plain (active ∘ hg) idle len buf data code off room short
  | sending op plain active none data code => exact .sending op plain (active ∘ hg) none data code
  | ended bad ends => exact .ended (bad ∘ hg) ends

theorem Reads.freed (h : Reads lim good ms k w) (bad : ¬good) (hf : w'.conn = freeConn)
    (ht : ownActs k w'.trace = ownActs k w.trace) : Reads lim good ms k w' := by
  obtain ⟨n, cur, hp, _⟩ := h.phase
  have hdead : ¬w'.conn.Live := fun hl => hl (hf ▸ rfl)
  exact ⟨fun hl => absurd hl hdead, fun hg => absurd hg bad,
    ⟨n, cur, ht ▸ hp, .ended bad fun hl => absurd hl hdead⟩⟩

/-- The connection behind `arm_close`. -/
def Conn.closing (c : Conn τ) : Conn τ := (connTransition { c with tls := none } .closing).1

theorem closing_eq (h : .closing ∈ validTransitions c.state ∨ c.state = .closing) :
    c.closing = { c with tls := none, state := .closing } := by
  unfold Conn.closing connTransition
  obtain h | h := h
  · simp [h]
  · simp [h, validTransitions]

theorem Conn.Plain.closable (h : c.Plain) :
    .closing ∈ validTransitions c.state ∨ c.state = .closing := by
  obtain ⟨_, h | h | h⟩ := h <;> simp [h, validTransitions]

/-- Closing: a connection that receives or sends goes on with that, and closes
then. -/
theorem Phase.closing (h : Phase good ms n cur c ops)
    (bad : ¬good) (hl : c.Live) : Phase good ms n cur c.closing ops := by
  have hc : c.Plain → c.closing = { c with tls := none, state := .closing } :=
    fun hp => closing_eq hp.closable
  cases h with
  | reading op plain active idle len buf data code off room short =>
    rw [hc plain]
    exact .reading op ⟨rfl, .inr (.inr rfl)⟩ (fun hg => absurd hg bad) idle len buf data code off
      room short
  | sending op plain active none data code =>
    rw [hc plain]
    exact .sending op ⟨rfl, .inr (.inr rfl)⟩ (fun hg => absurd hg bad) none data code
  | ended _ ends =>
    rw [hc (ends hl).1]
    exact .ended bad fun _ => ⟨⟨rfl, .inr (.inr rfl)⟩, (ends hl).2.1, .inr (.inl rfl)⟩

theorem ownActs_closed (t : List Act) (j : ℕ) (fd : ℤ) :
    ownActs k (t ++ [.closed j fd]) = ownActs k t := by
  simp [ownActs, Act.isRead]

theorem data_armClose (env : Env ω τ) (w : Work ω τ) : (armClose env w).ring.data k = w.ring.data k := by
  unfold armClose
  split_ifs
  · simp [Work.prep, Work.ask, Work.setConn, Work.note, Ring.ask, Ring.prepare, Ring.data, Ring.ops,
      filter_append, Op.isData, Work.opFor]
  · rfl

theorem Reads.armClose (env : Env ω τ) (h : Reads lim good ms k w) (bad : ¬good)
    (hl : w.conn.Live) : Reads lim good ms k (armClose env w) := by
  obtain ⟨n, cur, hp, hphase⟩ := h.phase
  have hdata := data_armClose (k := k) env w
  unfold Iohttp.armClose at hdata ⊢
  split_ifs at hdata ⊢
  · refine ⟨fun _ => (connTransition_serial ..).trans (h.serial hl), fun hg => absurd hg bad, n,
      cur, ?_, ?_⟩
    · show Settled lim ms (ownActs k (w.trace ++ _)) n cur
      rw [ownActs_closed]
      exact hp
    · rw [hdata]
      exact hphase.closing bad hl
  · exact h.freed bad rfl (ownActs_closed ..)

/-! ### Sends, timeouts and closes -/

theorem Reads.retire_other (h : Reads lim good ms k w)
    (hc : cqe.op.isData k = false) : Reads lim good ms k (w.retire cqe) := by
  obtain ⟨n, cur, hp, hphase⟩ := h.phase
  refine ⟨h.serial, fun hg op hop => h.opened hg op (mem_own_retire hop), n, cur, hp, ?_⟩
  show Phase good ms n cur w.conn ((w.ring.retire cqe).data k)
  rwa [data_retire_other hc]

/-- The connection has neither a receive nor a send in the ring: its completion
is being handled. -/
structure Between (good : Prop) (k : ℕ) (w : Work ω τ) : Prop where
  serial : w.conn.serial = k
  opened : good → ∀ op ∈ w.ring.own k, op.code ≠ .close
  plain : w.conn.Plain
  active : good → w.conn.state = .httpActive
  idle : w.conn.sendActive = false
  data : w.ring.data k = []

section

variable (h : Between good k w)

include h

theorem Between.setConn (hs : c.serial = w.conn.serial)
    (hst : c.state = w.conn.state) (ht : c.tls = w.conn.tls) (ha : c.sendActive = w.conn.sendActive) :
    Between good k (w.setConn c) :=
  ⟨hs.trans h.serial, h.opened, ⟨ht.trans h.plain.1, hst ▸ h.plain.2⟩, fun hg => hst.trans (h.active hg),
    ha.trans h.idle, h.data⟩

theorem Between.note (a : Act) : Between good k (w.note a) :=
  ⟨h.serial, h.opened, h.plain, h.active, h.idle, h.data⟩

theorem Between.tick (world : ω) : Between good k (w.tick world) :=
  ⟨h.serial, h.opened, h.plain, h.active, h.idle, h.data⟩

theorem Between.ended (bad : ¬good)
    (hp : Settled lim ms (ownActs k w.trace) n cur) : Reads lim good ms k w :=
  ⟨fun _ => h.serial, h.opened, n, cur, hp,
    .ended bad fun _ => ⟨h.plain, by simp [h.data], .inr (.inr h.data)⟩⟩

theorem Between.armRecv (hs : good → env.sqe w.ring.asked = true)
    (hp : Progress ms (ownActs k w.trace) n cur) (len : w.conn.recvLen = cur.length)
    (buf : w.conn.recvBuf.take cur.length = cur)
    (short : Short ms n cur) : Reads lim good ms k (armRecv env w).1 := by
  rcases adds_armRecv h.data h.serial with ⟨_, op, hcode, hoff, hroom, ha⟩ | ⟨hno, ha⟩
  · refine ⟨fun _ => by rw [armRecv_conn]; exact h.serial, ha.stays h.opened, n, cur,
      ha.acts ▸ hp.settled short, ?_⟩
    rw [ha.data, armRecv_conn]
    exact .reading op h.plain h.active h.idle len buf rfl hcode (hoff.trans len)
      (by rw [hroom, len]) short
  · have bad : ¬good := fun hg => by
      rw [hs hg] at hno
      cases hno
    have hb : Between good k (Iohttp.armRecv env w).1 := by
      refine ⟨?_, ha.stays h.opened, ?_, ?_, ?_, ha.data⟩ <;> rw [armRecv_conn]
      exacts [h.serial, h.plain, h.active, h.idle]
    exact hb.ended bad (ha.acts ▸ hp.settled short)

theorem Between.send (hs : c.serial = w.conn.serial)
    (hst : c.state = w.conn.state) (ht : c.tls = w.conn.tls) (hka : good → c.keepAlive = true)
    (hp : Progress ms (ownActs k w.trace) n []) (off len : ℕ) :
    Reads lim good ms k ((w.setConn c).ask.prep (w.opFor .send off len false)) := by
  have ha := adds_send h.data h.serial c off len
  refine ⟨fun _ => hs.trans h.serial, ha.stays h.opened, n, [], ha.acts ▸ hp.settled_nil, ?_⟩
  rw [ha.data]
  exact .sending _ ⟨ht.trans h.plain.1, hst ▸ h.plain.2⟩ (fun hg => ⟨hst.trans (h.active hg), hka hg⟩)
    rfl rfl rfl

end

theorem Between.armClose (env : Env ω τ) (h : Between good k w) (bad : ¬good)
    (hp : Settled lim ms (ownActs k w.trace) n cur) : Reads lim good ms k (armClose env w) :=
  (h.ended bad hp).armClose env bad h.plain.live

theorem Between.resend (h : Between good k w)
    (hka : good → w.conn.keepAlive = true) (hs : good → env.sqe w.ring.asked = true)
    (hp : Progress ms (ownActs k w.trace) n []) : Reads lim good ms k (resend env w) := by
  unfold Iohttp.resend
  split_ifs with hsqe
  · refine h.send ?_ ?_ ?_ ?_ hp _ _
    exacts [rfl, rfl, rfl, hka]
  · have ha : Between good k w.ask := ⟨h.serial, h.opened, h.plain, h.active, h.idle, h.data⟩
    exact ha.armClose env (fun hg => hsqe (hs hg)) hp.settled_nil

theorem Reads.routeTimeouts (h : Reads lim good ms k w) (opts : Option RouteOpts) :
    Reads lim good ms k (w.setConn (routeTimeouts w.conn opts)) := by
  cases opts with
  | none => exact h
  | some o =>
    obtain ⟨n, cur, hp, hphase⟩ := h.phase
    refine ⟨h.serial, h.opened, n, cur, hp, ?_⟩
    cases hphase with
    | reading op plain active idle len buf data code off room short =>
      exact .reading op plain active idle len buf data code off room short
    | sending op plain active none data code => exact .sending op plain active none data code
    | ended bad ends => exact .ended bad ends

theorem Between.sendDone (h : Between good k w)
    (hka : good → w.conn.keepAlive = true) (hs : good → env.sqe w.ring.asked = true)
    (hp : Progress ms (ownActs k w.trace) n []) : Reads lim good ms k (sendDone env w) := by
  have h₁ : Between good k (w.setConn w.conn.sentAll) := by refine h.setConn ?_ ?_ ?_ ?_ <;> rfl
  unfold Iohttp.sendDone
  simp only
  split_ifs with htls halive
  · exfalso
    rcases h₁.plain.2 with hst | hst | hst <;> rw [htls] at hst <;> cases hst
  · have h₂ : Between good k ((w.setConn w.conn.sentAll).setConn (nextRequest w.conn.sentAll)) := by
      refine h₁.setConn ?_ ?_ ?_ ?_ <;> rfl
    exact (h₂.armRecv hs hp rfl rfl (.inl rfl)).routeTimeouts (some ⟨0, 0⟩)
  · exact h₁.armClose env (fun hg => halive ⟨hka hg, h₁.active hg⟩) hp.settled_nil

/-- A connection that will not receive any more, and closes when its response
is sent. -/
structure Ending (k : ℕ) (w : Work ω τ) : Prop where
  serial : w.conn.serial = k
  plain : w.conn.Plain
  data : ∀ op ∈ w.ring.data k, op.code ≠ .recv
  ends : w.conn.keepAlive = false ∨ w.conn.state = .closing

theorem Ending.reads (h : Ending k w) (bad : ¬good)
    (hp : Settled lim ms (ownActs k w.trace) n cur) : Reads lim good ms k w :=
  ⟨fun _ => h.serial, fun hg => absurd hg bad, n, cur, hp,
    .ended bad fun _ => ⟨h.plain, h.data, h.ends.imp_right .inl⟩⟩

theorem Ending.setConn (h : Ending k w) (hs : c.serial = w.conn.serial)
    (hst : c.state = w.conn.state) (ht : c.tls = w.conn.tls) (hka : c.keepAlive = w.conn.keepAlive) :
    Ending k (w.setConn c) :=
  ⟨hs.trans h.serial, ⟨ht.trans h.plain.1, hst ▸ h.plain.2⟩, h.data, by
    rcases h.ends with he | he
    · exact .inl (hka.trans he)
    · exact .inr (hst.trans he)⟩

theorem Ending.ask (h : Ending k w) : Ending k w.ask := ⟨h.serial, h.plain, h.data, h.ends⟩

theorem Ending.prep (h : Ending k w) {p : Op} (hc : p.code ≠ .recv) : Ending k (w.ask.prep p) := by
  refine ⟨h.serial, h.plain, fun o ho => ?_, h.ends⟩
  obtain ⟨hm, hi⟩ := mem_filter.mp ho
  obtain hm | rfl := mem_ops_prep.mp hm
  · exact h.data o (mem_filter.mpr ⟨hm, hi⟩)
  · exact hc

theorem Ending.armClose (env : Env ω τ) (h : Ending k w) (bad : ¬good)
    (hp : Settled lim ms (ownActs k w.trace) n cur) : Reads lim good ms k (armClose env w) :=
  (h.reads bad hp).armClose env bad h.plain.live

theorem Ending.resend (h : Ending k w) (bad : ¬good)
    (hp : Settled lim ms (ownActs k w.trace) n cur) : Reads lim good ms k (resend env w) := by
  unfold Iohttp.resend
  split_ifs
  · have h₁ : Ending k (w.setConn { w.conn with sendActive := true }) := by
      refine h.setConn ?_ ?_ ?_ ?_ <;> rfl
    exact (h₁.prep (by simp [Work.opFor])).reads bad hp
  · exact h.ask.armClose env bad hp

theorem Ending.sendDone (h : Ending k w) (bad : ¬good)
    (hp : Settled lim ms (ownActs k w.trace) n cur) : Reads lim good ms k (sendDone env w) := by
  have h₁ : Ending k (w.setConn w.conn.sentAll) := by refine h.setConn ?_ ?_ ?_ ?_ <;> rfl
  unfold Iohttp.sendDone
  simp only
  split_ifs with htls halive
  · exfalso
    rcases h₁.plain.2 with hst | hst | hst <;> rw [htls] at hst <;> cases hst
  · exfalso
    rcases h₁.ends with he | he
    · exact absurd (he.symm.trans halive.1) (by simp)
    · exact absurd (he.symm.trans halive.2) (by simp)
  · exact h₁.armClose env bad hp

theorem Ending.onSend (h : Ending k w) (bad : ¬good) (hp : Settled lim ms (ownActs k w.trace) n cur)
    (cqe : Cqe) : Reads lim good ms k (onSend env w cqe) := by
  have h₁ : Ending k (w.setConn { w.conn with sendActive := false }) := by
    refine h.setConn ?_ ?_ ?_ ?_ <;> rfl
  have h₂ : ∀ off, Ending k ((w.setConn { w.conn with sendActive := false }).setConn
      { w.conn with sendActive := false, sendOffset := off }) := by
    intro off
    refine h₁.setConn ?_ ?_ ?_ ?_ <;> rfl
  unfold Iohttp.onSend
  simp only
  split_ifs
  · exact h₁.armClose env bad hp
  · exact (h₂ _).resend bad hp
  · exact (h₂ _).sendDone bad hp

/-- A send completes. -/
theorem Reads.onSend (h : Reads lim good ms k w) (hl : w.conn.Live)
    (hm : cqe.op ∈ w.ring.own k) (hc : cqe.op.code = .send) (hwf : cqe.WellFormed)
    (hok : good → 0 ≤ cqe.res ∧ env.sqe w.ring.asked = true) :
    Reads lim good ms k (onSend env (w.retire cqe) cqe) := by
  obtain ⟨n, cur, hp, hphase⟩ := h.phase
  have hmem : cqe.op ∈ w.ring.data k := mem_data.mpr ⟨hm, .inr hc⟩
  have hmore : cqe.more = false := ofConn_not_more hwf (by rw [hc]; rfl)
  cases hphase with
  | reading op plain active idle len buf data code =>
    rw [data, mem_singleton] at hmem
    rw [hmem, code] at hc
    cases hc
  | sending op plain active none data code =>
    subst none
    rw [data, mem_singleton] at hmem
    -- the only operation is gone
    have hb : Between good k ((w.retire cqe).setConn { w.conn with sendActive := false }) :=
      ⟨h.serial hl, fun hg op hop => h.opened hg op (mem_own_retire hop), plain, fun hg =>
        (active hg).1, rfl,
        data_retire data hmem hmore⟩
    have hb' :
      ∀ off, Between good k (((w.retire cqe).setConn { w.conn with sendActive := false }).setConn
        { w.conn with sendActive := false, sendOffset := off }) := by
      intro off
      refine hb.setConn ?_ ?_ ?_ ?_ <;> rfl
    have hs : good → env.sqe (w.retire cqe).ring.asked = true := by
      intro hg
      rw [Work.retire, retire_asked]
      exact (hok hg).2
    unfold Iohttp.onSend
    simp only
    split_ifs with hres
    · exact hb.armClose env (fun hg => absurd (hok hg).1 (not_le.mpr hres)) hp
    · exact (hb' _).resend (fun hg => (active hg).2) hs hp.toProgress
    · exact (hb' _).sendDone (fun hg => (active hg).2) hs hp.toProgress
  | ended bad ends =>
    obtain ⟨plain, hd, he⟩ := ends hl
    have he' : w.conn.keepAlive = false ∨ w.conn.state = .closing := by
      rcases he with he | he | he
      · exact .inl he
      · exact .inr he
      · rw [he] at hmem
        cases hmem
    have hend : Ending k (w.retire cqe) :=
      ⟨h.serial hl, plain, fun op hop => hd op (mem_data.mpr
        ⟨mem_own_retire (mem_data.mp hop).1, (mem_data.mp hop).2⟩), he'⟩
    exact hend.onSend bad hp cqe

theorem Reads.onTimeout (h : Reads lim good ms k w) (hl : w.conn.Live)
    (hc : cqe.op.code = .timeout) (hok : good → cqe.res = -ECANCELED) :
    Reads lim good ms k (onTimeout env (w.retire cqe) cqe) := by
  have hr : Reads lim good ms k (w.retire cqe) := h.retire_other (by simp [Op.isData, hc])
  unfold Iohttp.onTimeout
  split_ifs with hres
  · exact hr
  · exact hr.armClose env (fun hg => hres (hok hg)) hl

/-! ### Receives -/

theorem ownActs_note (w : Work ω τ) {a : Act} (hs : a.serial = k) (hr : a.isRead = true) :
    ownActs k (w.note a).trace = ownActs k w.trace ++ [a] := by
  show ownActs k (w.trace ++ [a]) = _
  simp [ownActs, hs, hr]

theorem Progress.receive (h : Progress ms acts n cur) (j : ℕ)
    (data : Bytes) : Progress ms (acts ++ [.received j data]) n (cur ++ data) := by
  refine ⟨?_, ?_, fun p hp => ?_⟩
  · rw [received_append, h.received, append_assoc]
    simp [Iohttp.received]
  · rw [dispatched_append, h.dispatched]
    simp [Iohttp.dispatched]
  · rw [parseSpans_append] at hp
    exact h.spans p (by simpa [parseSpans] using hp)

theorem Progress.parse (h : Progress ms acts n u) (j : ℕ)
    (hm : ms[n]? = some m) (hu : u <+: m.bytes) : Progress ms (acts ++ [.parsed j u]) n u := by
  refine ⟨?_, ?_, fun p hp => ?_⟩
  · rw [received_append, h.received]
    simp [Iohttp.received]
  · rw [dispatched_append, h.dispatched]
    simp [Iohttp.dispatched]
  · rw [parseSpans_append] at hp
    rcases mem_append.mp hp with hp | hp
    · exact h.spans p hp
    · rw [parseSpans, parseSpans, mem_singleton] at hp
      subst hp
      refine ⟨n, m, hm, ?_, hu.length_le⟩
      rw [h.received, length_append]
      omega

theorem Progress.dispatch (h : Progress ms acts n m.bytes)
    (j : ℕ) (hm : ms[n]? = some m) : Progress ms (acts ++ [.dispatched j m.request]) (n + 1) [] := by
  refine ⟨?_, ?_, fun p hp => ?_⟩
  · rw [received_append, h.received, stream_take_succ hm]
    simp [Iohttp.received]
  · rw [dispatched_append, h.dispatched, take_add_one, hm]
    simp [Iohttp.dispatched]
  · rw [parseSpans_append] at hp
    exact h.spans p (by simpa [parseSpans] using hp)

/-- The bytes do not go beyond the end of a message. -/
def Apart (ms : List Message) (acts : List Act) (data : Bytes) : Prop :=
  ∀ i m, ms[i]? = some m →
    ¬((received acts).length < (stream (ms.take i)).length + m.bytes.length ∧
      (stream (ms.take i)).length + m.bytes.length < (received acts).length + data.length)

/-- A completion brings the next bytes of what the client sends. It does not go
beyond the end of a message, and if it brings the last byte of what a head
announces, it goes to that end. -/
@[mk_iff]
structure InStep (ms : List Message) (acts : List Act) (data : Bytes) : Prop where
  follows : received acts ++ data <+: stream ms
  apart : Apart ms acts data
  whole : ∀ i m, ms[i]? = some m → (received acts).length < (stream (ms.take i)).length + m.total →
    (stream (ms.take i)).length + m.total ≤ (received acts).length + data.length →
    (stream (ms.take i)).length + m.bytes.length ≤ (received acts).length + data.length

theorem InStep.piece (h : InStep ms acts data)
    (hp : Progress ms acts n cur) (hd : data ≠ []) (short : Short ms n cur) :
    ∃ m, ms[n]? = some m ∧ cur ++ data <+: m.bytes ∧
      (m.total ≤ (cur ++ data).length → cur ++ data = m.bytes) := by
  have hpre : cur ++ data <+: stream (ms.drop n) := by
    have := h.follows
    rw [hp.received, stream_take_append_drop ms n, append_assoc] at this
    exact (prefix_append_right_inj _).mp this
  have hpos : 0 < data.length := length_pos_iff.mpr hd
  have hrec : (received acts).length = (stream (ms.take n)).length + cur.length := by
    rw [hp.received, length_append]
  obtain ⟨m, hm⟩ : ∃ m, ms[n]? = some m := by
    by_cases hn : n < ms.length
    · exact ⟨_, getElem?_eq_getElem hn⟩
    exfalso
    rw [drop_eq_nil_of_le (not_lt.mp hn)] at hpre
    have := hpre.length_le
    rw [length_append] at this
    change cur.length + data.length ≤ 0 at this
    omega
  have hlt : cur.length < m.total := by
    rcases short with rfl | ⟨m', hm', _, hlt⟩
    · have := m.hdrLen_pos
      unfold Message.total
      simp only [length_nil]
      omega
    · rw [hm] at hm'
      cases hm'
      exact hlt
  have htot := m.total_le
  have hle : (cur ++ data).length ≤ m.bytes.length := by
    have := h.apart n m hm
    rw [length_append]
    omega
  have hu : cur ++ data <+: m.bytes := by
    rw [stream_drop hm] at hpre
    exact prefix_of_prefix_length_le hpre (prefix_append _ _) hle
  refine ⟨m, hm, hu, fun ht => hu.eq_of_length ?_⟩
  have := h.whole n m hm (by omega)
  rw [length_append] at ht hle ⊢
  omega

theorem armSend_plain (idle : w.conn.sendActive = false)
    (htls : w.conn.tls = none) (data : Bytes) : armSend env w data = startSend env w data := by
  unfold armSend encrypt
  rw [if_neg (by simp [idle]), htls]

theorem startSend_cases (w : Work ω τ) (data : Bytes) :
    (env.sqe w.ring.asked = true ∧ startSend env w data =
      ((w.setConn { w.conn with sendBuf := data, sendOffset := 0, sendActive := true }).ask.prep
        (w.opFor .send 0 data.length false), 0)) ∨
    (env.sqe w.ring.asked = false ∧ startSend env w data =
      ((w.setConn { w.conn with sendBuf := data, sendOffset := 0, sendActive := false }).ask,
        -ENOSPC)) := by
  unfold startSend
  by_cases hs : env.sqe w.ring.asked = true
  · exact .inl ⟨hs, by rw [if_pos hs]⟩
  · exact .inr ⟨by simpa using hs, by rw [if_neg hs]⟩

theorem Between.ending (h : Between good k w) (hs : c.serial = w.conn.serial)
    (hst : c.state = w.conn.state) (ht : c.tls = w.conn.tls) (hka : c.keepAlive = false) :
    Ending k (w.setConn c) :=
  ⟨hs.trans h.serial, ⟨ht.trans h.plain.1, hst ▸ h.plain.2⟩,
    by simp [show (w.setConn c).ring.data k = [] from h.data], .inl hka⟩

theorem Between.sendErrorResponse (env : Env ω τ) (h : Between good k w) (bad : ¬good)
    (hp : Settled lim ms (ownActs k w.trace) n cur) (status : ℕ) (msg : Bytes) :
    Reads lim good ms k (sendErrorResponse env w status msg) := by
  have hend : ∀ buf off act, Ending k (w.setConn
      { w.conn with sendBuf := buf, sendOffset := off, sendActive := act, keepAlive := false }) := by
    intro buf off act
    refine h.ending ?_ ?_ ?_ ?_ <;> rfl
  unfold Iohttp.sendErrorResponse
  split
  · next out _ =>
    rw [armSend_plain h.idle h.plain.1]
    rcases startSend_cases w out with ⟨_, he⟩ | ⟨_, he⟩
    · rw [he]
      exact ((hend out 0 true).prep (p := w.opFor .send 0 out.length false)
        (by simp [Work.opFor])).reads bad hp
    · rw [he]
      exact (hend out 0 false).ask.reads bad hp
  · exact (hend w.conn.sendBuf w.conn.sendOffset w.conn.sendActive).reads bad hp

theorem Between.sendAnswer (h : Between good k w) {ans : Answer ω}
    (hans : good → (serializeResponse ans.ctx.resp 8192).isSome = true ∧ ans.keepAlive = true)
    (hs : good → env.sqe w.ring.asked = true) (hp : Progress ms (ownActs k w.trace) n []) :
    Reads lim good ms k (sendAnswer env w ans).1 ∧
      ∀ op ∈ (sendAnswer env w ans).1.ring.data k, op.code ≠ .recv := by
  unfold Iohttp.sendAnswer
  split
  · next out _ =>
    rw [armSend_plain h.idle h.plain.1]
    rcases startSend_cases w out with ⟨_, he⟩ | ⟨hno, he⟩
    · rw [he, if_neg (by simp)]
      have hsend : Reads lim good ms k ((w.setConn { w.conn with
          sendBuf := out, sendOffset := 0, sendActive := true, keepAlive := ans.keepAlive }).ask.prep
          (w.opFor .send 0 out.length false)) := by
        refine h.send ?_ ?_ ?_ ?_ hp 0 out.length
        exacts [rfl, rfl, rfl, fun hg => (hans hg).2]
      refine ⟨hsend, ?_⟩
      show ∀ op ∈ ((w.setConn w.conn).ask.prep _).ring.data k, _
      rw [(adds_send h.data h.serial w.conn 0 out.length).data]
      simp [Work.opFor]
    · have bad : ¬good := fun hg => by
        rw [hs hg] at hno
        cases hno
      have hb : Between good k (w.setConn
          { w.conn with sendBuf := out, sendOffset := 0, sendActive := false }).ask :=
        ⟨h.serial, h.opened, h.plain, h.active, rfl, h.data⟩
      rw [he, if_pos (by simp)]
      refine ⟨hb.armClose env bad hp.settled_nil, ?_⟩
      rw [data_armClose, hb.data]
      simp
  · next hnone =>
    have bad : ¬good := fun hg => by simpa [hnone] using (hans hg).1
    have hb : Between good k (w.setKeepAlive ans.keepAlive) := by refine h.setConn ?_ ?_ ?_ ?_ <;> rfl
    refine ⟨hb.ended bad hp.settled_nil, ?_⟩
    show ∀ op ∈ w.ring.data k, _
    rw [h.data]
    simp

theorem Reads.discard (h : Reads lim good ms k w) (hno : ∀ op ∈ w.ring.data k, op.code ≠ .recv)
    (total : ℕ) : Reads lim good ms k (w.setConn (w.conn.discard total)) := by
  obtain ⟨n, cur, hp, hphase⟩ := h.phase
  refine ⟨h.serial, h.opened, n, cur, hp, ?_⟩
  cases hphase with
  | reading op plain active idle len buf data code =>
    exact absurd code (hno op (data ▸ mem_singleton_self op))
  | sending op plain active none data code => exact .sending op plain active none data code
  | ended bad ends => exact .ended bad ends

theorem Between.dispatch (h : Between good k w) (hm : ms[n]? = some m)
    (hans : good → (serializeResponse (w.answer env m.request).ctx.resp 8192).isSome = true ∧
      (w.answer env m.request).keepAlive = true)
    (hs : good → env.sqe w.ring.asked = true) (hp : Progress ms (ownActs k w.trace) n m.bytes)
    {total : ℕ}
    (hw : finish env (.dispatch w m.request total) = some w') : Reads lim good ms k w' := by
  simp only [finish, compact] at hw
  split_ifs at hw
  cases hw
  have hrt : ∀ o, (routeTimeouts w.conn o).serial = w.conn.serial ∧
      (routeTimeouts w.conn o).state = w.conn.state ∧ (routeTimeouts w.conn o).tls = w.conn.tls ∧
      (routeTimeouts w.conn o).sendActive = w.conn.sendActive := by
    rintro (_ | o) <;> exact ⟨rfl, rfl, rfl, rfl⟩
  have hb := ((h.note (.dispatched w.conn.serial m.request)).setConn
    (hrt (w.answer env m.request).opts).1 (hrt (w.answer env m.request).opts).2.1
    (hrt (w.answer env m.request).opts).2.2.1 (hrt (w.answer env m.request).opts).2.2.2).tick
    (w.answer env m.request).ctx.world
  have hp' : Progress ms (ownActs k (w.note (.dispatched w.conn.serial m.request)).trace) (n + 1)
      [] := by
    rw [ownActs_note w (a := .dispatched w.conn.serial m.request) h.serial rfl]
    exact hp.dispatch _ hm
  obtain ⟨hr, hno⟩ := hb.sendAnswer hans hs hp'
  exact hr.discard hno total

/-- The limits of the server on what is sent. -/
def WithinLimits (env : Env ω τ) (ms : List Message) : Prop :=
  ∀ m ∈ ms, m.bytes.length ≤ env.config.maxHeaderSize ∧ m.req.contentLength ≤ env.config.maxBodySize

theorem take_write (h : buf.take cur.length = cur) :
    (buf.take cur.length ++ data ++ buf.drop (cur.length + data.length)).take (cur ++ data).length =
      cur ++ data := by
  rw [h, take_append_of_le_length le_rfl, take_length]

/-- A completion is being handled, and `u` is in the buffer of the connection. -/
structure Holding (good : Prop) (ms : List Message) (k : ℕ) (w : Work ω τ) (n : ℕ) (u : Bytes) :
    Prop extends
    Between good k w where
  progress : Progress ms (ownActs k w.trace) n u
  len : w.conn.recvLen = u.length
  buf : w.conn.recvBuf.take u.length = u

theorem Holding.receive (h : Holding good ms k w n cur)
    (hoff : cqe.op.off = cur.length) (hlen : cqe.data.length = cqe.res.toNat) :
    Holding good ms k (receive w cqe) n (cur ++ cqe.data) := by
  refine { (h.toBetween.note (.received w.conn.serial cqe.data)).setConn rfl rfl rfl rfl with
    progress := ?_, len := ?_, buf := ?_ }
  · show Progress ms (ownActs k (w.note (.received w.conn.serial cqe.data)).trace) n _
    rw [ownActs_note w (a := .received w.conn.serial cqe.data) h.serial rfl]
    exact h.progress.receive _ _
  · show w.conn.recvLen + cqe.res.toNat = _
    rw [h.len, length_append, hlen]
  · show (w.conn.recvBuf.take cqe.op.off ++ cqe.data ++ w.conn.recvBuf.drop _).take _ = _
    rw [hoff]
    exact take_write h.buf

theorem Holding.parse (h : Holding good ms k w n u) (hm : ms[n]? = some m) (hu : u <+: m.bytes) :
    Holding good ms k (w.note (.parsed w.conn.serial u)) n u := by
  refine { h.toBetween.note (.parsed w.conn.serial u) with progress := ?_, len := h.len, buf := h.buf }
  rw [ownActs_note w (a := .parsed w.conn.serial u) h.serial rfl]
  exact h.progress.parse _ hm hu

theorem Holding.armRecv (h : Holding good ms k w n u)
    (hs : good → env.sqe w.ring.asked = true) (hm : ms[n]? = some m) (hu : u <+: m.bytes)
    (hlt : u.length < m.total) : Reads lim good ms k (armRecv env w).1 :=
  h.toBetween.armRecv hs h.progress h.len h.buf (.inr ⟨m, hm, hu, hlt⟩)

theorem Holding.bodyTimeout (h : Holding good ms k w n u)
    (req : Request) : Holding good ms k (w.setConn (bodyTimeout env w.conn req)) n u := by
  unfold Iohttp.bodyTimeout
  split
  · exact { h.toBetween.setConn rfl rfl rfl rfl with progress := h.progress, len := h.len, buf := h.buf }
  · exact { h.toBetween.setConn rfl rfl rfl rfl with progress := h.progress, len := h.len, buf := h.buf }

/-- The application's answer can be sent, and the connection stays open
behind it. -/
def GoodAnswer (env : Env ω τ) : Outcome ω τ → Prop
  | .dispatch w req _ => (serializeResponse (w.answer env req).ctx.resp 8192).isSome = true ∧
      (w.answer env req).keepAlive = true
  | _ => True

theorem Holding.not_reject (h : Holding good ms k w n u)
    (hm : ms[n]? = some m) (hu : u <+: m.bytes) (hlim : WithinLimits env ms) (w' : Work ω τ)
    (status : ℕ) (msg : Bytes) : onHttp env w ≠ .reject w' status msg := by
  have hlen := hu.length_le
  have hhdr := (hlim m (mem_of_getElem? hm)).1
  have hbody := (hlim m (mem_of_getElem? hm)).2
  rw [onHttp_message h.len h.buf hu, if_neg (by omega)]
  split_ifs <;> first | omega | simp

/-- The HTTP part of a receive, with a piece of the next message in the
buffer. -/
theorem Holding.onHttp (h : Holding good ms k w n u) (hm : ms[n]? = some m) (hu : u <+: m.bytes)
    (hwhole : m.total ≤ u.length → u = m.bytes) (hlim : lim → WithinLimits env ms) (hgl : good → lim)
    (hs : good → env.sqe w.ring.asked = true) (hans : good → GoodAnswer env (onHttp env w))
    (hw : finish env (onHttp env w) = some w') : Reads lim good ms k w' := by
  have hparse := h.parse hm hu
  have hno : ∀ w' status msg, Iohttp.onHttp env w = .reject w' status msg → ¬lim :=
    fun w' status msg he hl => h.not_reject hm hu (hlim hl) w' status msg he
  rw [onHttp_message h.len h.buf hu] at hw hans hno
  by_cases hbig : u.length > env.config.maxHeaderSize
  · rw [if_pos hbig] at hw hno
    cases hw
    have hlim' := hno _ _ _ rfl
    exact h.toBetween.sendErrorResponse env (fun hg => hlim' (hgl hg))
      { h.progress with short := fun hl => absurd hl hlim' } _ _
  rw [if_neg hbig] at hw hans hno
  by_cases hshort : u.length < m.hdrLen
  · rw [if_pos hshort] at hw
    cases hw
    exact hparse.armRecv hs hm hu (by unfold Message.total; omega)
  rw [if_neg hshort] at hw hans hno
  by_cases hbody : m.req.contentLength > env.config.maxBodySize
  · rw [if_pos hbody] at hw hno
    cases hw
    have hlim' := hno _ _ _ rfl
    exact hparse.toBetween.sendErrorResponse env (fun hg => hlim' (hgl hg))
      { hparse.progress with short := fun hl => absurd hl hlim' } _ _
  rw [if_neg hbody] at hw hans
  by_cases hmore : u.length < m.total
  · rw [if_pos hmore] at hw
    cases hw
    exact (hparse.bodyTimeout m.req).armRecv hs hm hu hmore
  rw [if_neg hmore] at hw hans
  obtain rfl := hwhole (not_lt.mp hmore)
  exact hparse.toBetween.dispatch hm hans hs hparse.progress hw

theorem Reads.holding (h : Reads lim good ms k w) (hl : w.conn.Live)
    (hm : cqe.op ∈ w.ring.own k) (hc : cqe.op.code = .recv) (hwf : cqe.WellFormed) :
    ∃ n cur, Holding good ms k (w.retire cqe) n cur ∧ Short ms n cur ∧ cqe.op.off = cur.length := by
  obtain ⟨n, cur, hp, hphase⟩ := h.phase
  have hmem : cqe.op ∈ w.ring.data k := mem_data.mpr ⟨hm, .inl hc⟩
  have hmore : cqe.more = false := ofConn_not_more hwf (by rw [hc]; rfl)
  cases hphase with
  | sending op plain active none data code =>
    rw [data, mem_singleton] at hmem
    rw [hmem, code] at hc
    cases hc
  | ended bad ends => exact absurd hc ((ends hl).2.1 _ hmem)
  | reading op plain active idle len buf data code off room short =>
    rw [data, mem_singleton] at hmem
    exact ⟨n, cur,
      { serial := h.serial hl, opened := fun hg op hop => h.opened hg op (mem_own_retire hop)
        plain := plain, active := active, idle := idle, data := data_retire data hmem hmore
        progress := hp.toProgress, len := len, buf := buf }, short, by rw [hmem, off]⟩

theorem recvOutcome_plain (hres : 0 < cqe.res) (hst : w.conn.state ≠ .proxyHeader)
    (htls : w.conn.tls = none) : recvOutcome env w cqe = onHttp env (receive w cqe) := by
  have hproxy : onProxy env (receive w cqe) = .ok (receive w cqe) := by
    unfold onProxy
    rw [if_neg (show (receive w cqe).conn.state ≠ _ from hst)]
  have hpass : onTls env (receive w cqe) = .ok (receive w cqe) := by
    unfold onTls
    rw [show (receive w cqe).conn.tls = none from htls]
  unfold recvOutcome
  rw [if_neg (not_le.mpr hres), hproxy]
  simp only [hpass]

/-- A receive brings bytes of the next message, and neither the PROXY protocol
nor TLS takes them. -/
theorem Reads.receive (h : Reads lim good ms k w) (env : Env ω τ) (hl : w.conn.Live)
    (hm : cqe.op ∈ w.ring.own k) (hc : cqe.op.code = .recv) (hwf : cqe.WellFormed)
    (hres : 0 < cqe.res) (hstep : InStep ms (ownActs k w.trace) cqe.data) :
    ∃ n m u, ms[n]? = some m ∧ u <+: m.bytes ∧ (m.total ≤ u.length → u = m.bytes) ∧
      Holding good ms k (Iohttp.receive (w.retire cqe) cqe) n u ∧
      recvOutcome env (w.retire cqe) cqe = onHttp env (Iohttp.receive (w.retire cqe) cqe) := by
  obtain ⟨n, cur, hhold, short, hoff⟩ := h.holding hl hm hc hwf
  have hlen : cqe.data.length = cqe.res.toNat := (hwf.2.1 hc).1
  obtain ⟨m, hmsg, hu, hwhole⟩ := hstep.piece hhold.progress (length_pos_iff.mp (by omega)) short
  have hrecv := hhold.receive hoff hlen
  refine ⟨n, m, cur ++ cqe.data, hmsg, hu, hwhole, hrecv, ?_⟩
  refine recvOutcome_plain hres (fun hst => ?_) hrecv.plain.1
  rcases hrecv.plain.2 with h | h | h <;> rw [show (w.retire cqe).conn.state = _ from h] at hst <;>
    cases hst

/-- What it brings is received behind what was. -/
theorem Reads.received_onRecv (h : Reads lim good ms k w) (hl : w.conn.Live)
    (hm : cqe.op ∈ w.ring.own k) (hc : cqe.op.code = .recv) (hwf : cqe.WellFormed)
    (hres : 0 < cqe.res) (hstep : InStep ms (ownActs k w.trace) cqe.data)
    (hw : onRecv env (w.retire cqe) cqe = some w') :
    received (ownActs k w.trace) ++ cqe.data <+: received (ownActs k w'.trace) := by
  obtain ⟨-, -, -, -, -, -, -, hout⟩ := h.receive env hl hm hc hwf hres hstep
  set w₁ := Iohttp.receive (w.retire cqe) cqe
  have hacts : ownActs k w₁.trace = ownActs k w.trace ++ [.received w.conn.serial cqe.data] :=
    ownActs_note (w.retire cqe) (h.serial hl) rfl
  have R := keeps_rule env w₁
  have heff : Effect w₁ w' :=
    R.stages.finish (fun h => R.sendErrorResponse .inl h _ _) (fun h => R.sendAnswer .inl h _)
      (R.stages.onHttp (Keeps.refl w₁)) (hout ▸ hw)
  obtain ⟨acts, ht, -⟩ := (heff.elim (·.toGrows) (·.toGrows)).trace
  have hdata : received (ownActs k w₁.trace) = received (ownActs k w.trace) ++ cqe.data := by
    rw [hacts, received_append]
    simp [received]
  rw [← hdata, ht, ownActs, ownActs, filter_append, received_append]
  exact prefix_append _ _

/-- A receive completes. -/
theorem Reads.onRecv (h : Reads lim good ms k w) (hl : w.conn.Live)
    (hm : cqe.op ∈ w.ring.own k) (hc : cqe.op.code = .recv) (hwf : cqe.WellFormed)
    (hstep : 0 < cqe.res → InStep ms (ownActs k w.trace) cqe.data) (hlim : lim → WithinLimits env ms)
    (hgl : good → lim) (hok : good → 0 < cqe.res ∧ env.sqe w.ring.asked = true ∧
      GoodAnswer env (recvOutcome env (w.retire cqe) cqe))
    (hw : onRecv env (w.retire cqe) cqe = some w') : Reads lim good ms k w' := by
  unfold Iohttp.onRecv at hw
  by_cases hres : cqe.res ≤ 0
  · obtain ⟨n, cur, hhold, short, _⟩ := h.holding hl hm hc hwf
    rw [recvOutcome, if_pos hres] at hw
    cases hw
    exact hhold.toBetween.armClose env (fun hg => absurd (hok hg).1 (not_lt.mpr hres))
      (hhold.progress.settled short)
  · obtain ⟨n, m, u, hmsg, hu, hwhole, hrecv, hout⟩ :=
      h.receive env hl hm hc hwf (not_le.mp hres) (hstep (not_le.mp hres))
    rw [hout] at hw hok
    refine hrecv.onHttp hmsg hu hwhole hlim hgl (fun hg => ?_) (fun hg => (hok hg).2.2) hw
    show env.sqe (w.ring.retire cqe).asked = true
    rw [retire_asked]
    exact (hok hg).2.1

end Iohttp
