/-
# Resets of an HTTP/2 session

`on_frame_recv_cb` of `src/http/ioh_http2.c` over the calls that a session
gets: it counts the resets of a second, and ends a session that has too many.

The count of resets shares the flag `goaway_sent` with `ioh_http2_goaway`: the
excess is answered exactly if no GOAWAY has been sent before it.
-/
import Iohttp.Http.Session

namespace Iohttp

open List

variable {ω : Type}

/-! ### Resets -/

/-- What a session gets, at a time in whole seconds: a frame, or a call of
`ioh_http2_goaway`. -/
inductive H2Event where
  | frame (now : ℤ) (f : H2Frame)
  | goaway (now : ℤ) (lastProcStreamId : ℕ)
  deriving DecidableEq, Repr

def H2Event.now : H2Event → ℤ
  | .frame now _ | .goaway now _ => now

/-- The event is a reset in the second `t`. -/
def H2Event.resetsAt (t : ℤ) : H2Event → Bool
  | .frame now f => f.type = .rstStream ∧ now = t
  | .goaway .. => false

/-- The event is a call of `ioh_http2_goaway`. -/
def H2Event.isGoaway : H2Event → Bool
  | .frame .. => false
  | .goaway .. => true

def H2Session.next (s : H2Session ω) : H2Event → H2Session ω
  | .frame now f => onFrameRecv s now f
  | .goaway _ lastProcStreamId => h2Goaway s lastProcStreamId

def H2Session.after (s : H2Session ω) (es : List H2Event) : H2Session ω := es.foldl H2Session.next s

/-- The number of resets in the second `t`. -/
def resets (es : List H2Event) (t : ℤ) : ℕ := es.countP (·.resetsAt t)

/-- Some second has more than `limit` resets. -/
def Excess (limit : ℕ) (es : List H2Event) : Prop := ∃ t, limit < resets es t

/-- A GOAWAY with `ENHANCE_YOUR_CALM` has been submitted. -/
def H2Session.Calmed (s : H2Session ω) : Prop := .enhanceYourCalm ∈ s.goaways.map (·.error)

/-- The time does not run backwards. -/
abbrev Clocked (es : List H2Event) : Prop := (es.map (·.now)).Pairwise (· ≤ ·)

/-- What a session knows of the events so far: the window is the second of the
last reset. -/
structure ResetsCounted (limit : ℕ) (es : List H2Event) (s : H2Session ω) : Prop where
  configured : s.maxRstStreamPerSec = limit
  count : s.rstCount = resets es s.rstWindowStart % 2 ^ 32
  window : ∀ t, 0 < resets es t → t ≤ s.rstWindowStart ∧ ∃ e ∈ es, e.now = s.rstWindowStart
  sent : s.goawaySent = true ↔ (∃ e ∈ es, e.isGoaway) ∨ s.Calmed
  calmed : s.Calmed → Excess limit es

theorem resets_concat (es : List H2Event) (e : H2Event) (t : ℤ) :
    resets (es ++ [e]) t = resets es t + if e.resetsAt t then 1 else 0 := by
  simp [resets, countP_append, countP_cons]

variable {limit : ℕ} {es : List H2Event} {s : H2Session ω} {e : H2Event}

theorem Excess.concat (h : Excess limit es) (e : H2Event) : Excess limit (es ++ [e]) := by
  obtain ⟨t, ht⟩ := h
  exact ⟨t, by rw [resets_concat]; omega⟩

theorem calmed_submitGoaway (s : H2Session ω) (lastId : ℕ) (error : H2Error) :
    (s.submitGoaway lastId error).Calmed ↔ s.Calmed ∨ error = .enhanceYourCalm := by
  simp [H2Session.Calmed, H2Session.submitGoaway, eq_comm]

/-- A reset in the session: the window is its second, and the excess is
answered if the flag is not set. -/
theorem countReset_spec (s : H2Session ω) (now : ℤ) :
    ∃ c, c = (if now ≠ s.rstWindowStart then 1 else (s.rstCount + 1) % 2 ^ 32) ∧
      (s.countReset now).maxRstStreamPerSec = s.maxRstStreamPerSec ∧ (s.countReset now).rstCount = c ∧
      (s.countReset now).rstWindowStart = now ∧
      ((s.countReset now).Calmed ↔ s.Calmed ∨ (s.maxRstStreamPerSec < c ∧ s.goawaySent = false)) ∧
      ((s.countReset now).goawaySent = true ↔ s.goawaySent = true ∨ s.maxRstStreamPerSec < c) := by
  refine ⟨_, rfl, ?_⟩
  unfold H2Session.countReset
  by_cases hw : now = s.rstWindowStart <;> simp only [hw, ne_eq, not_true, if_false,
    not_false_eq_true, if_true] <;>
    split <;> simp_all [H2Session.Calmed, H2Session.submitGoaway]

/-- What the session knows after an event that is no reset. -/
theorem ResetsCounted.other {s' : H2Session ω}
    (h : ResetsCounted limit es s)
    (he : ∀ t, e.resetsAt t = false)
    (hsame : s'.maxRstStreamPerSec = s.maxRstStreamPerSec ∧ s'.rstCount = s.rstCount ∧
      s'.rstWindowStart = s.rstWindowStart)
    (hcalm : s'.Calmed ↔ s.Calmed) (hsent : s'.goawaySent = true ↔ s.goawaySent = true ∨
      e.isGoaway = true) :
    ResetsCounted limit (es ++ [e]) s' := by
  have hres : resets (es ++ [e]) = resets es := by
    funext t
    simp [resets_concat, he]
  obtain ⟨hmax, hcount, hwin⟩ := hsame
  refine ⟨hmax.trans h.configured, by rw [hcount, hwin, hres, h.count], fun t ht => ?_, ?_, fun hc => ?_⟩
  · obtain ⟨hle, e', he', hnow⟩ := h.window t (hres ▸ ht)
    exact ⟨hwin ▸ hle, e', mem_append_left _ he', hwin ▸ hnow⟩
  · rw [hsent, h.sent, hcalm]
    simp only [mem_append, mem_singleton, or_and_right, exists_or, exists_eq_left, or_right_comm]
  · exact (h.calmed (hcalm.mp hc)).concat e

/-- The count behind a reset: if its second is not the window, it is the first
reset of that second. -/
theorem ResetsCounted.count_reset (h : ResetsCounted limit es s) (now : ℤ)
    (hclock : ∀ e' ∈ es, e'.now ≤ now) :
    (if now ≠ s.rstWindowStart then 1 else (s.rstCount + 1) % 2 ^ 32) = (resets es now + 1) % 2 ^
    32 := by
  split
  · next hne =>
    have hzero : resets es now = 0 := by
      by_contra hpos
      obtain ⟨hle, e', he', hnow⟩ := h.window now (by omega)
      exact hne (le_antisymm hle (hnow ▸ hclock e' he'))
    simp [hzero]
  · next heq =>
    rw [h.count, ← not_not.mp heq, Nat.mod_add_mod]

/-- What the session knows is kept by every event. -/
theorem ResetsCounted.next (h : ResetsCounted limit es s) (hclock : ∀ e' ∈ es, e'.now ≤ e.now) :
    ResetsCounted limit (es ++ [e]) (s.next e) := by
  cases e with
  | goaway now last =>
    refine h.other (fun _ => rfl)
      ⟨rfl, rfl, rfl⟩ ?_ (by simp [H2Session.next, h2Goaway, H2Session.submitGoaway,
      H2Event.isGoaway])
    simp [H2Session.next, h2Goaway, calmed_submitGoaway]
  | frame now f =>
    by_cases hf : f.type = .rstStream
    · obtain ⟨c, hc, hmax, hcount, hwin, hcalm, hsent⟩ := countReset_spec s now
      rw [h.count_reset now hclock] at hc
      rw [h.configured] at hmax hcalm hsent
      simp only [H2Session.next, onFrameRecv, hf, if_true]
      have hres (t : ℤ) : resets (es ++ [.frame now f]) t = resets es t + if now = t then 1 else 0 := by
        simp [resets_concat, H2Event.resetsAt, hf]
      refine ⟨hmax, ?_, fun t ht => ?_, ?_, fun hC => ?_⟩
      · rw [hcount, hwin, hres, if_pos rfl, hc]
      · refine ⟨?_, .frame now f, by simp, by rw [hwin]; rfl⟩
        rw [hwin]
        rw [hres] at ht
        by_cases htn : now = t
        · exact htn.ge
        · rw [if_neg htn] at ht
          obtain ⟨hle, e', he', hnow⟩ := h.window t ht
          exact hle.trans (hnow ▸ hclock e' he')
      · have hex : (∃ e ∈ es ++ [.frame now f], e.isGoaway = true) ↔ ∃ e ∈ es, e.isGoaway = true := by
          simp only [mem_append, mem_singleton, or_and_right, exists_or, exists_eq_left,
            H2Event.isGoaway,
            Bool.false_eq_true, or_false]
        rw [hsent, hcalm, hex, ← or_assoc, ← h.sent]
        cases s.goawaySent <;> simp
      · obtain hC | ⟨hlt, -⟩ := hcalm.mp hC
        · exact (h.calmed hC).concat _
        · refine ⟨now, lt_of_lt_of_le hlt ?_⟩
          rw [hres, if_pos rfl, hc]
          exact Nat.mod_le _ _
    · obtain ⟨base, hs⟩ : ∃ base, s.next (.frame now f) = { s with base := base } := by
        simp only [H2Session.next, onFrameRecv, hf, if_false]
        split
        · exact ⟨_, rfl⟩
        · exact ⟨s.base, rfl⟩
      rw [hs]
      exact h.other (fun _ => by simp [H2Event.resetsAt, hf]) ⟨rfl, rfl, rfl⟩ Iff.rfl
        (by simp [H2Event.isGoaway])

theorem after_concat (s : H2Session ω) (es : List H2Event) (e : H2Event) :
    s.after (es ++ [e]) = (s.after es).next e := by
  simp [H2Session.after, foldl_append]

theorem resetsCounted_after (base : Session ω) (maxRst : ℕ) (es : List H2Event) (hclock : Clocked es) :
    ResetsCounted (h2SessionCreate base maxRst).maxRstStreamPerSec es
    ((h2SessionCreate base maxRst).after es) := by
  induction es using reverseRecOn with
  | nil => exact ⟨rfl,
    rfl, by simp [resets], by simp [H2Session.after, h2SessionCreate, H2Session.Calmed],
      by simp [H2Session.after, h2SessionCreate, H2Session.Calmed]⟩
  | append_singleton es e ih =>
    rw [Clocked, map_append, pairwise_append] at hclock
    rw [after_concat]
    exact (ih hclock.1).next fun e' he' => hclock.2.2 _ (mem_map_of_mem he') _ (by simp)

theorem H2Session.Calmed.next (h : s.Calmed) (e : H2Event) : (s.next e).Calmed := by
  cases e with
  | goaway now last => exact (calmed_submitGoaway ..).mpr (.inl h)
  | frame now f =>
    simp only [H2Session.next, onFrameRecv]
    split_ifs
    · obtain ⟨c, -, -, -, -, hcalm, -⟩ := countReset_spec s now
      exact hcalm.mpr (.inl h)
    · exact h
    · exact h

theorem H2Session.Calmed.after (h : s.Calmed) : ∀ es :
    List H2Event, (s.after es).Calmed := by
  intro es
  induction es using reverseRecOn with
  | nil => exact h
  | append_singleton es e ih => exact after_concat s es e ▸ ih.next e

/-- The event with which a second first has too many resets. -/
theorem Excess.exists_first (h : Excess limit es) :
    ∃ pre e, pre ++ [e] <+: es ∧ ¬Excess limit pre ∧ Excess limit (pre ++ [e]) := by
  induction es using reverseRecOn with
  | nil => simp [Excess, resets] at h
  | append_singleton es e ih =>
    by_cases hes : Excess limit es
    · obtain ⟨pre, e', hpre, hfirst⟩ := ih hes
      exact ⟨pre, e', hpre.trans (prefix_append _ _), hfirst⟩
    · exact ⟨es, e, prefix_rfl, hes, h⟩

/-- The first excess is answered exactly if the count does not wrap at it and no
GOAWAY has been sent before. -/
theorem ResetsCounted.calmed_first {pre : List H2Event} (h : ResetsCounted limit pre s)
    (hclock : ∀ e' ∈ pre, e'.now ≤ e.now) (hpre : ¬Excess limit pre)
    (hexcess : Excess limit (pre ++ [e])) :
    (s.next e).Calmed ↔ limit + 1 < 2 ^ 32 ∧ ∀ e' ∈ pre, e'.isGoaway = false := by
  obtain ⟨t, ht⟩ := hexcess
  have hle : resets pre t ≤ limit := not_lt.mp fun hlt => hpre ⟨t, hlt⟩
  rw [resets_concat] at ht
  have hreset : e.resetsAt t = true := by
    by_contra hne
    rw [if_neg hne] at ht
    omega
  cases e with
  | goaway now last => cases hreset
  | frame now f =>
    obtain ⟨hf, rfl⟩ : f.type = .rstStream ∧ now = t := by simpa [H2Event.resetsAt] using hreset
    rw [if_pos hreset] at ht
    have hat : resets pre now = limit := by omega
    obtain ⟨c, hc, -, -, -, hcalm, -⟩ := countReset_spec s now
    rw [h.count_reset now hclock, hat] at hc
    have hnot : ¬s.Calmed := fun hC => hpre (h.calmed hC)
    have hsent : s.goawaySent = false ↔ ∀ e' ∈ pre, e'.isGoaway = false := by
      rw [← Bool.not_eq_true, h.sent]
      simp [hnot]
    simp only [H2Session.next, onFrameRecv, hf, if_true]
    rw [hcalm, h.configured, hsent, hc]
    simp only [hnot, false_or]
    refine and_congr_left fun _ => ?_
    omega

/-- **Rapid reset protection.** In every run of a session under a clock, an
excess of resets in one second is answered with `ENHANCE_YOUR_CALM` exactly if
no call of `ioh_http2_goaway` came before the first excess, and the limit is
not the last value of the counter. -/
theorem h2Session_calmed_iff (base : Session ω) (maxRst : ℕ) (es : List H2Event) (hclock : Clocked es) :
    (∀ l, l <+: es → Excess (h2SessionCreate base maxRst).maxRstStreamPerSec l →
      ((h2SessionCreate base maxRst).after l).Calmed) ↔
    ∀ pre e, pre ++ [e] <+: es → ¬Excess (h2SessionCreate base maxRst).maxRstStreamPerSec pre →
      Excess (h2SessionCreate base maxRst).maxRstStreamPerSec (pre ++ [e]) →
      (h2SessionCreate base maxRst).maxRstStreamPerSec + 1 < 2 ^ 32 ∧ ∀ e' ∈ pre,
      e'.isGoaway = false := by
  have hfirst {pre : List H2Event} {e : H2Event} (hl : pre ++ [e] <+: es)
      (hpre : ¬Excess (h2SessionCreate base maxRst).maxRstStreamPerSec pre)
      (hex : Excess (h2SessionCreate base maxRst).maxRstStreamPerSec (pre ++ [e])) := by
    have hc : Clocked (pre ++ [e]) := hclock.sublist (hl.sublist.map _)
    rw [Clocked, map_append, pairwise_append] at hc
    exact (resetsCounted_after base maxRst pre hc.1).calmed_first
      (fun e' he' => hc.2.2 _ (mem_map_of_mem he') _ (by simp)) hpre hex
  constructor
  · intro h pre e hl hpre hex
    exact (hfirst hl hpre hex).mp (after_concat .. ▸ h _ hl hex)
  · intro h l hl hex
    obtain ⟨pre, e, hle, hpre, hexe⟩ := hex.exists_first
    have hcalm := (hfirst (hle.trans hl) hpre hexe).mpr (h pre e (hle.trans hl) hpre hexe)
    obtain ⟨rest, rfl⟩ := hle
    rw [H2Session.after, foldl_append]
    exact (after_concat .. ▸ hcalm :
      ((h2SessionCreate base maxRst).after (pre ++ [e])).Calmed).after rest

/-- A session without an application. -/
def idleSession : Session Unit := ⟨none, fun _ => true, fun _ => none, [], ()⟩

def resetFrame : H2Event := .frame 5 ⟨.rstStream, 1, false⟩

theorem h2Session_two_resets : Clocked [resetFrame, resetFrame] ∧
    Excess (h2SessionCreate idleSession 1).maxRstStreamPerSec [resetFrame, resetFrame] ∧
    ((h2SessionCreate idleSession 1).after [resetFrame, resetFrame]).Calmed := by
  have hexcess : Excess (h2SessionCreate idleSession 1).maxRstStreamPerSec
    [resetFrame, resetFrame] := ⟨5, by decide⟩
  refine ⟨by decide, hexcess, (h2Session_calmed_iff idleSession 1 _ (by decide)).mpr ?_ _ prefix_rfl
    hexcess⟩
  intro pre e hpre _ _
  refine ⟨by decide, fun e' he' => ?_⟩
  obtain rfl : e' = resetFrame := by simpa using hpre.subset (mem_append_left _ he')
  rfl

/-- A graceful GOAWAY turns the protection off. -/
theorem h2Session_goaway_then_resets :
    Clocked [.goaway 5 0, resetFrame, resetFrame] ∧
    Excess (h2SessionCreate idleSession 1).maxRstStreamPerSec [.goaway 5 0, resetFrame, resetFrame] ∧
    ¬((h2SessionCreate idleSession 1).after [.goaway 5 0, resetFrame, resetFrame]).Calmed :=
  ⟨by decide, ⟨5, by decide⟩, by unfold H2Session.Calmed; decide⟩

end Iohttp
