/-
# Token buckets

A bucket holds at most `burst` tokens, gets `rate` of them per unit of time and
loses one with every draw that is granted. In a window of time no more draws are
granted than `burst` and what the rate brings meanwhile (`granted_le`): at the
first draw in the window the bucket holds at most `burst`, and from then on each
token that is drawn was in it or has come since (`granted_from_le`).

Key definitions: `draw`, `answers`, `granted`, `Bucket.Sound`.

Key theorems: `draw_spec`, `granted_from_le`, `granted_le`.
-/
import Mathlib.Tactic
import Mathlib.Algebra.Order.Field.Basic

namespace TokenBucket

open List

variable {F : Type*} [Field F] [LinearOrder F]

/-- The tokens, and when they were counted last. -/
@[ext] structure Bucket (F : Type*) where
  tokens : F
  last : F

variable (rate burst : F)

/-- The tokens that have come since. -/
def refill (b : Bucket F) (now : F) : Bucket F :=
  if 0 < now - b.last then ⟨min burst (b.tokens + (now - b.last) * rate), now⟩ else b

/-- A draw: it is granted if there is a token. -/
def draw (b : Bucket F) (now : F) : Bucket F × Bool :=
  if 1 ≤ (refill rate burst b now).tokens then
    (⟨(refill rate burst b now).tokens - 1, (refill rate burst b now).last⟩, true)
  else (refill rate burst b now, false)

/-- Draws at these times, each with its answer. -/
def answers : Bucket F → List F → List (F × Bool)
  | _, [] => []
  | b, t :: ts => (t, (draw rate burst b t).2) :: answers (draw rate burst b t).1 ts

/-- The number of draws that were granted in the window. -/
def granted (t₀ t₁ : F) (as : List (F × Bool)) : ℕ :=
  as.countP fun a => a.2 && (decide (t₀ ≤ a.1) && decide (a.1 ≤ t₁))

/-- A bucket that is neither overdrawn nor too full. -/
structure Bucket.Sound (b : Bucket F) : Prop where
  nonneg : 0 ≤ b.tokens
  le_burst : b.tokens ≤ burst

variable {b : Bucket F} {now t : F}

section Draw

variable {rate burst} [IsStrictOrderedRing F]

theorem refill_spec (hrate : 0 ≤ rate) (hburst : 0 ≤ burst) (hb : b.Sound burst)
    (hnow : b.last ≤ now) : (refill rate burst b now).Sound burst ∧
    (refill rate burst b now).last = now ∧
      (refill rate burst b now).tokens ≤ b.tokens + (now - b.last) * rate := by
  unfold refill
  split_ifs with h
  · have hcome : 0 ≤ (now - b.last) * rate := mul_nonneg h.le hrate
    have hsum : 0 ≤ b.tokens + (now - b.last) * rate := add_nonneg hb.nonneg hcome
    exact ⟨⟨le_min hburst hsum, min_le_left _ _⟩, rfl, min_le_right _ _⟩
  · have hsame : b.last = now := le_antisymm hnow (by linarith)
    refine ⟨hb, hsame, ?_⟩
    rw [hsame, sub_self, zero_mul, add_zero]

/-- **What a draw does**: the tokens that are left and the one that was drawn have
been there or have come since, and are at most `burst`. -/
theorem draw_spec (hrate : 0 ≤ rate) (hburst : 0 ≤ burst) (hb : b.Sound burst)
    (hnow : b.last ≤ now) : (draw rate burst b now).1.Sound burst ∧
    (draw rate burst b now).1.last = now ∧
      (draw rate burst b now).1.tokens + (if (draw rate burst b now).2 then 1 else 0) ≤
        min burst (b.tokens + (now - b.last) * rate) := by
  obtain ⟨hsound, hlast, htokens⟩ := refill_spec hrate hburst hb hnow
  have hmin := le_min hsound.le_burst htokens
  unfold draw
  split_ifs with h h' h'
  · refine ⟨⟨sub_nonneg.mpr h, ?_⟩, hlast, ?_⟩
    · exact (sub_le_self _ zero_le_one).trans hsound.le_burst
    · simpa using hmin
  · exact absurd rfl h'
  · cases h'
  · exact ⟨hsound, hlast, by simpa using hmin⟩

end Draw

theorem answers_times (b : Bucket F) : ∀ ts : List F, (answers rate burst b ts).map Prod.fst = ts
  | [] => rfl
  | t :: ts => by rw [answers, map_cons, answers_times]

/-- Nothing is granted in the window behind its end. -/
theorem granted_late {t₀ t₁ : F} {ts : List F} (hsorted : (t :: ts).Pairwise (· ≤ ·)) (h : t₁ < t) :
    granted t₀ t₁ (answers rate burst b (t :: ts)) = 0 := by
  rw [granted, countP_eq_zero]
  intro a ha
  have hmem : a.1 ∈ t :: ts := by
    rw [← answers_times rate burst b (t :: ts)]
    exact mem_map_of_mem ha
  have hlate : t₁ < a.1 := by
    rcases mem_cons.mp hmem with heq | hmem
    · rwa [heq]
    · exact h.trans_le ((pairwise_cons.mp hsorted).1 a.1 hmem)
  simp [not_le.mpr hlate]

/-- Nothing is granted in the window before its start. -/
theorem granted_early {t₀ t₁ : F} {ts : List F} (h : t < t₀) :
    granted t₀ t₁ (answers rate burst b (t :: ts)) =
      granted t₀ t₁ (answers rate burst (draw rate burst b t).1 ts) := by
  rw [answers, granted, countP_cons_of_neg]
  · rfl
  · simp [not_le.mpr h]

variable {rate burst} [IsStrictOrderedRing F]

theorem granted_cons_le {t₀ t₁ : F} {ts : List F} :
    (granted t₀ t₁ (answers rate burst b (t :: ts)) : F) ≤
      granted t₀ t₁ (answers rate burst (draw rate burst b t).1 ts) + if (draw rate burst b t).2
      then 1 else 0 := by
  have hcount : granted t₀ t₁ (answers rate burst b (t :: ts)) ≤
      granted t₀ t₁ (answers rate burst (draw rate burst b t).1 ts) + if (draw rate burst b t).2
      then 1 else 0 := by
    rw [answers, granted, countP_cons]
    refine Nat.add_le_add_left ?_ _
    cases (draw rate burst b t).2 with
    | false => simp
    | true =>
      rw [if_pos rfl]
      split_ifs
      · exact le_rfl
      · exact Nat.zero_le _
  calc (granted t₀ t₁ (answers rate burst b (t :: ts)) : F)
      ≤ ((granted t₀ t₁ (answers rate burst (draw rate burst b t).1 ts) +
          if (draw rate burst b t).2 then 1 else 0 : ℕ) : F) := Nat.cast_le.mpr hcount
    _ = _ := by push_cast; rfl

/-- **From a bucket on**: what is granted up to the end of the window was in the
bucket or has come since. -/
theorem granted_from_le (hrate : 0 ≤ rate) (hburst : 0 ≤ burst) {t₀ t₁ : F} :
    ∀ {ts : List F} {b : Bucket F},
    b.Sound burst → b.last ≤ t₁ → (b.last :: ts).Pairwise (· ≤ ·) →
    (granted t₀ t₁ (answers rate burst b ts) : F) ≤ b.tokens + (t₁ - b.last) * rate
  | ts, b, hb, hlast, hsorted => by
    have hcome : 0 ≤ b.tokens + (t₁ - b.last) * rate :=
      add_nonneg hb.nonneg (mul_nonneg (sub_nonneg.mpr hlast) hrate)
    match ts with
    | [] => exact Nat.cast_zero.trans_le hcome
    | t :: ts =>
      obtain ⟨hfirst, hrest⟩ := pairwise_cons.mp hsorted
      by_cases hin : t ≤ t₁
      · obtain ⟨hsound, hnext, htokens⟩ := draw_spec hrate hburst hb (hfirst t mem_cons_self)
        have ih := @granted_from_le hrate hburst t₀ t₁ ts (draw rate burst b t).1 hsound
          (by rwa [hnext]) (by rwa [hnext])
        rw [hnext] at ih
        have hmin := htokens.trans (min_le_right _ _)
        calc (granted t₀ t₁ (answers rate burst b (t :: ts)) : F)
            ≤ (draw rate burst b t).1.tokens + (t₁ - t) * rate +
                (if (draw rate burst b t).2 then 1 else 0) := granted_cons_le.trans (by gcongr)
          _ ≤ b.tokens + (t - b.last) * rate + (t₁ - t) * rate := by linarith
          _ = b.tokens + (t₁ - b.last) * rate := by ring
      · rw [granted_late rate burst hrest (not_le.mp hin), Nat.cast_zero]
        exact hcome

/-- **The bound of a token bucket**: in a window of time no more is granted than
`burst` and what the rate brings meanwhile. -/
theorem granted_le (hrate : 0 ≤ rate) (hburst : 0 ≤ burst) {t₀ t₁ : F} (hwin : t₀ ≤ t₁) :
    ∀ {ts : List F} {b : Bucket F},
    b.Sound burst → (b.last :: ts).Pairwise (· ≤ ·) →
    (granted t₀ t₁ (answers rate burst b ts) : F) ≤ burst + (t₁ - t₀) * rate
  | ts, b, hb, hsorted => by
    have hbound : 0 ≤ burst + (t₁ - t₀) * rate :=
      add_nonneg hburst (mul_nonneg (sub_nonneg.mpr hwin) hrate)
    match ts with
    | [] => exact Nat.cast_zero.trans_le hbound
    | t :: ts =>
      obtain ⟨hfirst, hrest⟩ := pairwise_cons.mp hsorted
      obtain ⟨hsound, hnext, htokens⟩ := draw_spec hrate hburst hb (hfirst t mem_cons_self)
      rcases lt_or_ge t t₀ with hearly | hstart
      · rw [granted_early rate burst hearly]
        exact granted_le hrate hburst hwin hsound (by rwa [hnext])
      · by_cases hin : t ≤ t₁
        · -- the first draw in the window
          have hrest' :=
            @granted_from_le _ _ _ rate burst _ hrate hburst t₀ t₁ ts (draw rate burst b t).1 hsound
            (by rwa [hnext]) (by rwa [hnext])
          rw [hnext] at hrest'
          have hmin := htokens.trans (min_le_left _ _)
          have hlater : (t₁ - t) * rate ≤ (t₁ - t₀) * rate :=
            mul_le_mul_of_nonneg_right (by linarith) hrate
          calc (granted t₀ t₁ (answers rate burst b (t :: ts)) : F)
              ≤ (draw rate burst b t).1.tokens + (t₁ - t) * rate +
                  (if (draw rate burst b t).2 then 1 else 0) := granted_cons_le.trans (by gcongr)
            _ ≤ burst + (t₁ - t₀) * rate := by linarith
        · rw [granted_late rate burst hrest (not_le.mp hin), Nat.cast_zero]
          exact hbound

end TokenBucket
