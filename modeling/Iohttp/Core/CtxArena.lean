/-
# The arena of the request context

`arena_grow`, `ioh_ctx_alloc` and `ioh_ctx_alloc_aligned` of
`src/core/ioh_ctx.c`. Sizes and addresses have 64 bits and wrap around. The
buffer is an object of the memory; what `realloc` returns, where the buffers
lie and what is in them at first is the allocator's choice, and the loop that
doubles the size has fuel, since it need not end.

An aligned block needs padding, which depends on the address of the buffer. It
is worked out again when the buffer has grown, but the buffer has grown for the
padding of the old address: the room is not enough if the new one is longer.
-/
import Iohttp.Http.Arena
import Iohttp.Lib.Runs

namespace Iohttp

open Memory (Mem)
open Runs List

/-- What `malloc` and `realloc` do. Buffer 0 comes from `malloc` and buffer `n + 1`
from the `n`-th call of `realloc`, if that moves the contents. -/
structure Heap extends Allocator where
  refuses : ℕ → Bool
  addr : ℕ → ℕ

/-- `ioh_arena_t` with the memory around it. -/
structure CtxArena where
  mem : Mem UInt8
  base : ℕ
  size : ℕ
  used : ℕ
  reallocs : ℕ

/-- `IOH_CTX_ARENA_DEFAULT`. -/
abbrev ctxArenaDefault : ℕ := 4096

/-- What is in new memory, from its `n`-th byte on. -/
def Heap.fresh (H : Heap) (buf n size : ℕ) : Bytes := (List.range (size - n)).map (H.fill buf)

/-- The arena of `ioh_ctx_init`. -/
def ctxArenaInit (H : Heap) : CtxArena :=
  ⟨Mem.empty.set 0 (H.fresh 0 0 ctxArenaDefault), 0, ctxArenaDefault, 0, 0⟩

/-- The loop of `arena_grow`. -/
def growSize (needed : ℕ) : ℕ → ℕ → Option ℕ
  | 0, _ => none
  | fuel + 1, size => if size < needed then growSize needed fuel (size * 2 % 2 ^ 64) else some size

/-- The buffer that `realloc` returns, with the old contents at its start. -/
def ctxArenaMove (H : Heap) (a : CtxArena) (size : ℕ) : CtxArena :=
  let old := (a.mem a.base).getD []
  let base := if H.moves a.reallocs then a.reallocs + 1 else a.base
  { a with
    mem := (a.mem.kill a.base).set base (old.take size ++ H.fresh (a.reallocs + 1) old.length size)
    base := base, size := size, reallocs := a.reallocs + 1 }

/-- `arena_grow`: whether there is room now. -/
def ctxArenaGrow (H : Heap) (fuel : ℕ) (a : CtxArena) (needed : ℕ) : Option (CtxArena × Bool) :=
  (growSize needed fuel a.size).map fun size =>
    if H.refuses a.reallocs then ({ a with reallocs := a.reallocs + 1 }, false)
      else (ctxArenaMove H a size, true)

def ctxArenaRoom (H : Heap) (fuel : ℕ) (a : CtxArena) (needed : ℕ) : Option (CtxArena × Bool) :=
  if needed > a.size then ctxArenaGrow H fuel a needed else some (a, true)

/-- `ioh_ctx_alloc`. -/
def ctxAlloc (H : Heap) (fuel : ℕ) (a : CtxArena) (size : ℕ) : Option (CtxArena × Option Memory.Ptr) :=
  if size = 0 then some (a, none)
  else
    (ctxArenaRoom H fuel a ((a.used + size) % 2 ^ 64)).map fun r =>
      if r.2 then ({ r.1 with used := (r.1.used + size) % 2 ^ 64 }, some ⟨r.1.base, r.1.used⟩)
        else (r.1, none)

def alignPadding (cur align : ℕ) : ℕ :=
  let mask := align - 1
  let aligned := (cur + mask) % 2 ^ 64 &&& (2 ^ 64 - 1 - mask)
  (aligned + 2 ^ 64 - cur) % 2 ^ 64

/-- The padding in front of the next block. -/
def CtxArena.padding (H : Heap) (a : CtxArena) (align : ℕ) : ℕ :=
  alignPadding ((H.addr a.base + a.used) % 2 ^ 64) align

/-- `ioh_ctx_alloc_aligned`. -/
def ctxAllocAligned (H : Heap) (fuel : ℕ) (a : CtxArena) (size align : ℕ) :
    Option (CtxArena × Option Memory.Ptr) :=
  if size = 0 ∨ align = 0 ∨ align &&& (align - 1) ≠ 0 then some (a, none)
  else
    (ctxArenaRoom H fuel a (((a.used + a.padding H align) % 2 ^ 64 + size) % 2 ^ 64)).map fun r =>
      if r.2 then
        -- the padding of the buffer as it is now
        let alignedUsed := (r.1.used + r.1.padding H align) % 2 ^ 64
        ({ r.1 with used := (alignedUsed + size) % 2 ^ 64 }, some ⟨r.1.base, alignedUsed⟩)
      else (r.1, none)

inductive ArenaCall where
  | alloc (size : ℕ)
  | allocAligned (size align : ℕ)
  | reset
  deriving DecidableEq, Repr

def ArenaCall.size : ArenaCall → ℕ
  | .alloc size | .allocAligned size _ => size
  | .reset => 0

def ArenaCall.align : ArenaCall → ℕ
  | .alloc _ => 1
  | .allocAligned _ align => align
  | .reset => 1

/-- The end of the block that a call asks for, with the buffer where it is. -/
def CtxArena.taken (H : Heap) (a : CtxArena) (c : ArenaCall) : ℕ := a.used + a.padding H c.align + c.size

/-- A call, with what `ioh_ctx_reset` does to the arena. -/
def arenaCall (H : Heap) (fuel : ℕ) (a : CtxArena) : ArenaCall → Option (CtxArena × Option Memory.Ptr)
  | .alloc size => ctxAlloc H fuel a size
  | .allocAligned size align => ctxAllocAligned H fuel a size align
  | .reset => some ({ a with used := 0 }, none)

variable {H : Heap} {a a' : CtxArena} {fuel needed size align k n : ℕ}

theorem and_not_mask {x : ℕ} (hk : k < 64) (hx : x < 2 ^ 64) :
    x &&& (2 ^ 64 - 1 - (2 ^ k - 1)) = x / 2 ^ k * 2 ^ k := by
  have hmask : 2 ^ k - 1 < 2 ^ 64 := by
    have := Nat.pow_lt_pow_right (a := 2) (by omega) hk
    omega
  rw [Nat.sub_sub, Nat.add_comm 1, ← Nat.shiftRight_eq_div_pow, ← Nat.shiftLeft_eq]
  refine Nat.eq_of_testBit_eq fun i => ?_
  rw [Nat.testBit_and, Nat.testBit_two_pow_sub_succ hmask, Nat.testBit_two_pow_sub_one,
    Nat.testBit_shiftLeft,
    Nat.testBit_shiftRight]
  by_cases hi : k ≤ i
  · rw [Nat.add_sub_cancel' hi]
    by_cases h64 : i < 64
    · simp [hi, h64]
    · have : x.testBit i = false :=
        Nat.testBit_lt_two_pow (hx.trans_le (Nat.pow_le_pow_right (by omega) (by omega)))
      simp [this]
  · simp [hi, Nat.lt_of_not_le hi]

/-- **The padding is the distance to the next multiple of the alignment**, also where
the sum with the mask wraps around. -/
theorem alignPadding_spec {cur : ℕ} (hk : k < 64) (hcur : cur < 2 ^ 64) :
    alignPadding cur (2 ^ k) < 2 ^ k ∧ 2 ^ k ∣ cur + alignPadding cur (2 ^ k) := by
  have hpos : 0 < 2 ^ k := Nat.two_pow_pos k
  have hdvd : 2 ^ k ∣ 2 ^ 64 := Nat.pow_dvd_pow 2 hk.le
  have hlt : 2 ^ k < 2 ^ 64 := Nat.pow_lt_pow_right (by omega) hk
  have hpad : alignPadding cur (2 ^ k) =
      ((cur + (2 ^ k - 1)) % 2 ^ 64 / 2 ^ k * 2 ^ k + 2 ^ 64 - cur) % 2 ^ 64 := by
    rw [alignPadding, and_not_mask hk (Nat.mod_lt _ (by omega))]
  rw [hpad]
  generalize 2 ^ k = m at hpos hdvd hlt
  by_cases hwrap : cur + (m - 1) < 2 ^ 64
  · rw [Nat.mod_eq_of_lt hwrap]
    have hdiv := Nat.div_add_mod (cur + (m - 1)) m
    have hmod := Nat.mod_lt (cur + (m - 1)) hpos
    rw [Nat.mul_comm] at hdiv
    generalize hq : (cur + (m - 1)) / m * m = q at hdiv
    have hval : (q + 2 ^ 64 - cur) % 2 ^ 64 = q - cur := by omega
    rw [hval]
    refine ⟨by omega, ?_⟩
    rw [Nat.add_sub_cancel' (by omega), ← hq]
    exact Dvd.intro_left _ rfl
  · have hzero : (cur + (m - 1)) % 2 ^ 64 / m = 0 := Nat.div_eq_of_lt (by omega)
    rw [hzero]
    have hval : (0 * m + 2 ^ 64 - cur) % 2 ^ 64 = 2 ^ 64 - cur := by omega
    rw [hval]
    refine ⟨by omega, ?_⟩
    rwa [Nat.add_sub_cancel' hcur.le]

theorem padding_lt (hk : k < 64) : a.padding H (2 ^ k) < 2 ^ k :=
  (alignPadding_spec hk (Nat.mod_lt _ (by omega))).1

theorem padding_aligned (hk : k < 64) : 2 ^ k ∣ H.addr a.base + (a.used + a.padding H (2 ^ k)) := by
  have h := (alignPadding_spec hk (Nat.mod_lt (H.addr a.base + a.used) (Nat.two_pow_pos 64))).2
  have hdvd : 2 ^ k ∣ 2 ^ 64 := Nat.pow_dvd_pow 2 hk.le
  have hsum := Nat.div_add_mod (H.addr a.base + a.used) (2 ^ 64)
  rw [← Nat.add_assoc, ← hsum, Nat.add_assoc]
  exact Nat.dvd_add (hdvd.mul_right _) h

theorem padding_one : a.padding H 1 = 0 := by
  have := padding_lt (H := H) (a := a) (k := 0) (by omega)
  simpa using this

theorem padding_eq_of_small (hk : 2 ^ k ≤ 16) (hused : a'.used = a.used) (haddr : ∀ n, 16 ∣ H.addr n) :
    a'.padding H (2 ^ k) = a.padding H (2 ^ k) := by
  have hk4 : k ≤ 4 := (Nat.pow_le_pow_iff_right (a := 2) (by omega)).mp hk
  have h1 := padding_lt (H := H) (a := a) (show k < 64 by omega)
  have h2 := padding_lt (H := H) (a := a') (show k < 64 by omega)
  have h3 := padding_aligned (H := H) (a := a) (show k < 64 by omega)
  have h4 := padding_aligned (H := H) (a := a') (show k < 64 by omega)
  have h5 := haddr a.base
  have h6 := haddr a'.base
  rw [hused] at h4
  have hdvd : 2 ^ k ∣ 16 := Nat.pow_dvd_pow 2 hk4
  have h7 : a'.padding H (2 ^ k) ≡ a.padding H (2 ^ k) [MOD 2 ^ k] := by
    have h8 : H.addr a'.base + (a.used + a'.padding H (2 ^ k)) ≡ H.addr a.base +
      (a.used + a.padding H (2 ^ k))
        [MOD 2 ^ k] := (Nat.modEq_zero_iff_dvd.mpr h4).trans (Nat.modEq_zero_iff_dvd.mpr h3).symm
    have h9 : H.addr a'.base ≡ H.addr a.base [MOD 2 ^ k] :=
      (Nat.modEq_zero_iff_dvd.mpr (hdvd.trans h6)).trans
      (Nat.modEq_zero_iff_dvd.mpr (hdvd.trans h5)).symm
    exact Nat.ModEq.add_left_cancel' a.used (Nat.ModEq.add_left_cancel h9 h8)
  exact Nat.ModEq.eq_of_lt_of_lt h7 h2 h1

/-! ### Growth -/

theorem growSize_zero (hneed : 0 < needed) : ∀ fuel, growSize needed fuel 0 = none
  | 0 => rfl
  | fuel + 1 => by
    rw [growSize, if_pos hneed]
    exact growSize_zero hneed fuel

/-- A power of two is doubled until it is large enough, with 64 bits. -/
theorem growSize_eq : ∀ {fuel j : ℕ}, j < 64 → growSize needed fuel (2 ^ j) = some n →
    n = 2 ^ max j (Nat.clog 2 needed) ∧ max j (Nat.clog 2 needed) < 64
  | 0, _, _, h => by cases h
  | fuel + 1, j, hj, h => by
    rw [growSize] at h
    split at h
    case isFalse hlt =>
      cases h
      rw [max_eq_left (Nat.clog_le_of_le_pow (Nat.le_of_not_lt hlt))]
      exact ⟨rfl, hj⟩
    case isTrue hlt =>
      have hclog : j < Nat.clog 2 needed := (Nat.lt_clog_iff_pow_lt (by omega)).mpr hlt
      rw [← Nat.pow_succ] at h
      obtain hj' | rfl : j + 1 < 64 ∨ j = 63 := by omega
      · rw [Nat.mod_eq_of_lt (Nat.pow_lt_pow_right (by omega) hj')] at h
        have hn := growSize_eq hj' h
        rwa [max_eq_right (Nat.succ_le_of_lt hclog), ← max_eq_right hclog.le] at hn
      · -- the size has wrapped to zero and stays there
        rw [Nat.mod_self, growSize_zero (by omega)] at h
        cases h

theorem growSize_spec {j : ℕ} (hj : j < 64) (h : growSize needed fuel (2 ^ j) = some n) :
    needed ≤ n ∧ ∃ i < 64, n = 2 ^ i := by
  obtain ⟨rfl, hlt⟩ := growSize_eq hj h
  refine ⟨?_, _, hlt, rfl⟩
  exact (Nat.le_pow_clog (by omega) needed).trans (Nat.pow_le_pow_right (by omega) (le_max_right ..))

theorem growSize_total (hneed : needed ≤ 2 ^ 63) : ∀ {d j : ℕ}, j + d = 63 →
    ∃ n, growSize needed (d + 1) (2 ^ j) = some n
  | 0, j, hj => by
    obtain rfl : j = 63 := hj
    exact ⟨2 ^ 63, by rw [growSize, if_neg (Nat.not_lt.mpr hneed)]⟩
  | d + 1, j, hj => by
    rw [growSize]
    split
    case isFalse => exact ⟨_, rfl⟩
    case isTrue =>
      rw [← Nat.pow_succ, Nat.mod_eq_of_lt (Nat.pow_lt_pow_right (by omega) (by omega))]
      exact growSize_total hneed (by omega)

/-- The arena between two calls: the buffer is alive, its size is a power of two, and
later buffers have higher numbers. -/
structure CtxArena.Ok (a : CtxArena) : Prop where
  size : ∃ j < 64, a.size = 2 ^ j
  used : a.used < 2 ^ 64
  alive : ∃ b, a.mem a.base = some b ∧ b.length = a.size
  base : a.base ≤ a.reallocs

theorem Heap.length_fresh (H : Heap) (buf n size : ℕ) : (H.fresh buf n size).length = size - n := by
  simp [Heap.fresh]

theorem ok_ctxArenaInit (H : Heap) : (ctxArenaInit H).Ok where
  size := ⟨12, by omega, rfl⟩
  used := Nat.two_pow_pos 64
  alive := ⟨H.fresh 0 0
    ctxArenaDefault, by simp only [ctxArenaInit, Mem.set_same], by rw [H.length_fresh]; rfl⟩
  base := le_rfl

theorem mem_ctxArenaMove {b : Bytes} (hb : a.mem a.base = some b) (hlen : b.length ≤ size) :
    ∃ b', (ctxArenaMove H a size).mem (ctxArenaMove H a size).base = some b' ∧ b'.length = size ∧
      b'.take b.length = b := by
  refine ⟨b.take size ++ H.fresh (a.reallocs + 1) b.length size, ?_, ?_, ?_⟩
  · simp only [ctxArenaMove, Mem.set_same, hb, Option.getD_some]
  · rw [length_append, H.length_fresh, length_take]
    omega
  · rw [take_of_length_le hlen, take_left]

/-- What a call finds when there is to be room for `needed` bytes: the arena as it
was, one that `realloc` has refused to grow, or one that has grown. -/
inductive Room (H : Heap) (fuel : ℕ) (a : CtxArena) (needed : ℕ) : CtxArena × Bool → Prop where
  | enough (h : needed ≤ a.size) : Room H fuel a needed (a, true)
  | refused {n : ℕ} (h : a.size < needed) (hs : growSize needed fuel a.size = some n)
    (hr : H.refuses a.reallocs) :
      Room H fuel a needed ({ a with reallocs := a.reallocs + 1 }, false)
  | grown {n : ℕ} (h : a.size < needed) (hs : growSize needed fuel a.size = some n)
      (hr : H.refuses a.reallocs = false) : Room H fuel a needed (ctxArenaMove H a n, true)

theorem room_of_eq {r : CtxArena × Bool} (h : ctxArenaRoom H fuel a needed = some r) :
    Room H fuel a needed r := by
  rw [ctxArenaRoom] at h
  split at h
  case isFalse hle =>
    cases h
    exact .enough (Nat.le_of_not_lt hle)
  case isTrue hgt =>
    rw [ctxArenaGrow, Option.map_eq_some_iff] at h
    obtain ⟨size, hs, rfl⟩ := h
    cases hr : H.refuses a.reallocs with
    | true => exact .refused hgt hs hr
    | false => exact .grown hgt hs hr

theorem Room.ok {r : CtxArena × Bool} (h : Room H fuel a needed r) (ha : a.Ok) : r.1.Ok := by
  obtain ⟨j, hj, hsize⟩ := ha.size
  obtain ⟨b, hb, hlen⟩ := ha.alive
  cases h with
  | enough => exact ha
  | refused => exact ⟨ha.size, ha.used, ha.alive, ha.base.trans (Nat.le_succ _)⟩
  | grown hgt hs hr =>
    rw [hsize] at hs
    obtain ⟨hn, i, hi, rfl⟩ := growSize_spec hj hs
    obtain ⟨b', hb', hlen', -⟩ := mem_ctxArenaMove (H := H) hb (show b.length ≤ 2 ^ i by omega)
    refine ⟨⟨i, hi, rfl⟩, ha.used, ⟨b', hb', hlen'⟩, ?_⟩
    rw [ctxArenaMove]
    have := ha.base
    dsimp only
    split <;> omega

theorem Room.used_eq {r : CtxArena × Bool} (h : Room H fuel a needed r) : r.1.used = a.used := by
  cases h <;> rfl

theorem Room.needed_le {r : CtxArena × Bool} (h : Room H fuel a needed r) (ha : a.Ok) (hr : r.2 = true) :
    needed ≤ r.1.size := by
  obtain ⟨j, hj, hsize⟩ := ha.size
  cases h with
  | enough h => exact h
  | refused => cases hr
  | grown hgt hs =>
    rw [hsize] at hs
    exact (growSize_spec hj hs).1

variable {q : CtxArena × Bool}

theorem Room.load_eq (h : Room H fuel a needed q) (ha : a.Ok) (hbase : q.1.base = a.base)
    {p : Memory.Ptr} (hp : p.obj = a.base) (hn : p.off + n ≤ a.size) :
    q.1.mem.load p n = a.mem.load p n := by
  have hle := h.needed_le ha
  obtain ⟨b, hb, hlen⟩ := ha.alive
  cases h with
  | enough | refused => rfl
  | @grown size hgt =>
    have hgrown : a.size ≤ size := hgt.le.trans (hle rfl)
    obtain ⟨b', hb', hlen', htake⟩ := mem_ctxArenaMove (H := H) hb (hlen.trans_le hgrown)
    rw [hbase, ← hp] at hb'
    rw [← hp] at hb
    have hbytes : (b'.drop p.off).take n = (b.drop p.off).take n := by
      rw [← htake, drop_take, take_take, min_eq_left (by omega)]
    rw [Mem.load_eq hb', Mem.load_eq hb, if_pos (by omega), if_pos (by omega), hbytes]

theorem ctxAlloc_eq (ha : a.used < 2 ^ 64) :
    ctxAlloc H fuel a size = ctxAllocAligned H fuel a size 1 := by
  have hmod : a.used % 2 ^ 64 = a.used := Nat.mod_eq_of_lt ha
  by_cases hsize : size = 0
  · simp [ctxAlloc, ctxAllocAligned, hsize]
  · have hcheck : ¬(size = 0 ∨ (1 : ℕ) = 0 ∨ 1 &&& (1 - 1) ≠ 0) := by simp [hsize]
    simp only [ctxAlloc, ctxAllocAligned, if_neg hsize, if_neg hcheck, padding_one, Nat.add_zero, hmod]
    cases h : ctxArenaRoom H fuel a ((a.used + size) % 2 ^ 64) with
    | none => rfl
    | some r =>
      have hused : r.1.used % 2 ^ 64 = r.1.used := by simp only [(room_of_eq h).used_eq, hmod]
      simp only [Option.map_some, hused]

def arenaTake (H : Heap) (c : ArenaCall) (q : CtxArena × Bool) : CtxArena × Option Memory.Ptr :=
  if q.2 then
    ({ q.1 with used := ((q.1.used + q.1.padding H c.align) % 2 ^ 64 + c.size) % 2 ^ 64 },
      some ⟨q.1.base, (q.1.used + q.1.padding H c.align) % 2 ^ 64⟩)
  else (q.1, none)

theorem arenaCall_eq {c : ArenaCall} (ha : a.used < 2 ^ 64) (hc : c ≠ .reset)
    (halign : c.align = 2 ^ k) :
    arenaCall H fuel a c = if c.size = 0 then some (a, none) else
      (ctxArenaRoom H fuel a (((a.used + a.padding H c.align) % 2 ^ 64 + c.size) % 2 ^ 64)).map
      (arenaTake H c) := by
  have haligned : arenaCall H fuel a c = ctxAllocAligned H fuel a c.size c.align := by
    cases c with
    | alloc size => exact ctxAlloc_eq ha
    | allocAligned size align => rfl
    | reset => exact absurd rfl hc
  have hpow : c.align ≠ 0 ∧ c.align &&& (c.align - 1) = 0 := by
    rw [halign, Nat.and_two_pow_sub_one_eq_mod, Nat.mod_self]
    exact ⟨(Nat.two_pow_pos k).ne', rfl⟩
  rw [haligned, ctxAllocAligned]
  by_cases hsize : c.size = 0
  · rw [if_pos (.inl hsize), if_pos hsize]
  · rw [if_neg (by simp [hsize, hpow]), if_neg hsize]
    rfl

theorem Room.base_cases (h : Room H fuel a needed q) :
    a.reallocs ≤ q.1.reallocs ∧ (q.1.base = a.base ∨ q.1.base = a.reallocs + 1) := by
  cases h with
  | enough => exact ⟨le_rfl, .inl rfl⟩
  | refused => exact ⟨Nat.le_succ _, .inl rfl⟩
  | grown =>
    refine ⟨Nat.le_succ _, ?_⟩
    dsimp only [ctxArenaMove]
    split
    · exact .inr rfl
    · exact .inl rfl

theorem CtxArena.Ok.arenaCall {c : ArenaCall} {r : Option Memory.Ptr} (ha : a.Ok)
    (halign : c.align = 2 ^ k) (h : arenaCall H fuel a c = some (a', r)) :
    a'.Ok ∧ a.reallocs ≤ a'.reallocs ∧ (a'.base = a.base ∨ a'.base = a.reallocs + 1) := by
  by_cases hc : c = .reset
  · subst hc
    cases h
    exact ⟨⟨ha.size, Nat.two_pow_pos 64, ha.alive, ha.base⟩, le_rfl, .inl rfl⟩
  · rw [arenaCall_eq ha.used hc halign] at h
    split at h
    · cases h
      exact ⟨ha, le_rfl, .inl rfl⟩
    · rw [Option.map_eq_some_iff] at h
      obtain ⟨⟨a₁, ok⟩, hq, he⟩ := h
      have hok := (room_of_eq hq).ok ha
      have hbase := (room_of_eq hq).base_cases
      cases ok <;> cases he
      · exact ⟨hok, hbase⟩
      · exact ⟨⟨hok.size, Nat.mod_lt _ (Nat.two_pow_pos 64), hok.alive, hok.base⟩, hbase⟩

/-! ### Runs -/

/-- The arena, the blocks that were returned since the last reset with their sizes,
and the sum of what was asked for since then. -/
structure ArenaRun where
  arena : CtxArena
  blocks : List (ℕ × ℕ)
  total : ℕ

def arenaStart (H : Heap) : ArenaRun := ⟨ctxArenaInit H, [], 0⟩

/-- The sum that a call adds to. -/
def ArenaRun.asked (s : ArenaRun) (c : ArenaCall) : ℕ := s.total + c.size + (c.align - 1)

def arenaNext (H : Heap) (fuel : ℕ) (s : ArenaRun) (c : ArenaCall) : Option ArenaRun :=
  (arenaCall H fuel s.arena c).map fun r =>
    if c = .reset then ⟨r.1, [], 0⟩
    else ⟨r.1, s.blocks ++ (r.2.map fun p => (p.off, c.size)).toList, s.asked c⟩

def Words (c : ArenaCall) : Prop := c.size < 2 ^ 64 ∧ ∃ k < 64, c.align = 2 ^ k

/-- A call whose sizes and alignments do not sum up to much. -/
def InRange (s : ArenaRun) (c : ArenaCall) : Prop := (∃ k < 64, c.align = 2 ^ k) ∧ s.asked c < 2 ^ 62

/-- Where the arena has to grow and `realloc` moves it, the block behind the padding
of the new address ends within the power of two that is next to its end at the old
one. -/
def HasRoom (H : Heap) (a : CtxArena) (c : ArenaCall) : Prop :=
  c.size ≠ 0 → a.size < a.taken H c → H.refuses a.reallocs = false → H.moves a.reallocs = true →
    a.used + alignPadding ((H.addr (a.reallocs + 1) + a.used) % 2 ^ 64) c.align + c.size ≤
      2 ^ Nat.clog 2 (a.taken H c)

/-- The block that a call returns lies in the arena, is aligned and does not meet one
that was returned before. -/
structure BlockInside (H : Heap) (s : ArenaRun) (c : ArenaCall) (a' : CtxArena)
    (r : Option Memory.Ptr) : Prop where
  used : a'.used ≤ a'.size
  inside : ∀ p ∈ r, p.obj = a'.base ∧ p.off + c.size ≤ a'.size
  aligned : ∀ p ∈ r, c.align ∣ H.addr a'.base + p.off
  apart : ∀ p ∈ r, ∀ b ∈ s.blocks, b.1 + b.2 ≤ p.off ∨ p.off + c.size ≤ b.1

/-- The blocks lie in front of what is unused. -/
structure ArenaRun.Ok (s : ArenaRun) : Prop where
  arena : s.arena.Ok
  used : s.arena.used ≤ s.arena.size
  total : s.arena.used ≤ s.total
  blocks : ∀ b ∈ s.blocks, b.1 + b.2 ≤ s.arena.used

section
variable {s s' : ArenaRun} {c : ArenaCall} {r : Option Memory.Ptr}

theorem Room.taken_lt (h : Room H fuel a (a.taken H c) q) (ha : a.Ok) (hk : k < 64)
    (halign : c.align = 2 ^ k) (hlow : a.taken H c < 2 ^ 64) : q.1.taken H c < 2 ^ 64 := by
  cases h with
  | enough | refused => exact hlow
  | @grown n hgt hs =>
    obtain ⟨j, hj, hsize⟩ := ha.size
    rw [hsize] at hs
    obtain ⟨hle, i, hi, rfl⟩ := growSize_spec hj hs
    have hpow : 2 ^ i ≤ 2 ^ 63 ∧ 2 ^ k ≤ 2 ^ 63 :=
      ⟨Nat.pow_le_pow_right (by omega) (by omega), Nat.pow_le_pow_right (by omega) (by omega)⟩
    have hpad := padding_lt (H := H) (a := ctxArenaMove H a (2 ^ i)) hk
    have hused : (ctxArenaMove H a (2 ^ i)).used = a.used := rfl
    simp only [CtxArena.taken, hused, halign] at hle ⊢
    omega

/-- A call whose block ends below `2 ^ 64`: it returns nothing and uses nothing, or
takes the padding and the block from the arena it finds. -/
theorem arenaCall_cases (ha : a.Ok) (hk : k < 64) (halign : c.align = 2 ^ k)
    (hlow : c.size ≠ 0 → a.taken H c < 2 ^ 64) (hc : c ≠ .reset)
    (h : arenaCall H fuel a c = some (a', r)) :
    (r = none ∧ a'.used = a.used ∧ a'.size = a.size ∧ a'.mem = a.mem ∧ a'.base = a.base ∧
      (c.size = 0 ∨ H.refuses a.reallocs = true)) ∨
    c.size ≠ 0 ∧ ∃ a₁, ctxArenaRoom H fuel a (a.taken H c) = some (a₁, true) ∧ a₁.used = a.used ∧
      a' = { a₁ with used := a₁.taken H c } ∧ r = some ⟨a₁.base, a₁.used + a₁.padding H c.align⟩ := by
  have hwrap : ∀ b : CtxArena, b.taken H c < 2 ^ 64 →
      (b.used + b.padding H c.align) % 2 ^ 64 = b.used + b.padding H c.align ∧
      (b.used + b.padding H c.align + c.size) % 2 ^ 64 = b.taken H c := by
    intro b hlt
    exact ⟨Nat.mod_eq_of_lt (by rw [CtxArena.taken] at hlt; omega), Nat.mod_eq_of_lt hlt⟩
  rw [arenaCall_eq ha.used hc halign] at h
  by_cases hsize : c.size = 0
  · rw [if_pos hsize] at h
    cases h
    exact .inl ⟨rfl, rfl, rfl, rfl, rfl, .inl hsize⟩
  · have hlow := hlow hsize
    rw [if_neg hsize, (hwrap a hlow).1, (hwrap a hlow).2, Option.map_eq_some_iff] at h
    obtain ⟨⟨a₁, ok⟩, hq, he⟩ := h
    have hroom := room_of_eq hq
    simp only [arenaTake, hwrap a₁ (hroom.taken_lt ha hk halign hlow)] at he
    cases ok with
    | true =>
      cases he
      exact .inr ⟨hsize, a₁, hq, hroom.used_eq, rfl, rfl⟩
    | false =>
      cases he
      cases hroom with
      | refused _ _ hr => exact .inl ⟨rfl, rfl, rfl, rfl, rfl, .inr hr⟩

theorem InRange.taken_lt (hs : s.Ok) (hr : InRange s c) : s.arena.taken H c < 2 ^ 64 := by
  obtain ⟨⟨k, hk, halign⟩, hsum⟩ := hr
  have hpad := padding_lt (H := H) (a := s.arena) hk
  have htotal := hs.total
  rw [ArenaRun.asked, halign] at hsum
  rw [CtxArena.taken, halign]
  omega

/-- The block that a call takes from the arena it finds ends in it if and only if there
is room. -/
theorem hasRoom_iff {a₁ : CtxArena} (ha : a.Ok) (hsize : c.size ≠ 0)
    (hq : ctxArenaRoom H fuel a (a.taken H c) = some (a₁, true)) :
    HasRoom H a c ↔ a₁.taken H c ≤ a₁.size := by
  cases room_of_eq hq with
  | enough h => exact iff_of_true (fun _ hlt => absurd h (Nat.not_le.mpr hlt)) h
  | @grown n hgt hs hr =>
    obtain ⟨j, hj, hjsize⟩ := ha.size
    rw [hjsize] at hs hgt
    have hclog : j < Nat.clog 2 (a.taken H c) := (Nat.lt_clog_iff_pow_lt (by omega)).mpr hgt
    obtain ⟨rfl, -⟩ := growSize_eq hj hs
    rw [max_eq_right hclog.le]
    have hmove : (ctxArenaMove H a (2 ^ Nat.clog 2 (a.taken H c))).taken H c = a.used + alignPadding
        ((H.addr (if H.moves a.reallocs then a.reallocs + 1 else a.base) + a.used) % 2 ^ 64)
        c.align + c.size := rfl
    rw [hmove]
    cases hmoves : H.moves a.reallocs with
    | false =>
      exact iff_of_true (fun _ _ _ h => absurd (hmoves.symm.trans h) (by simp))
        (Nat.le_pow_clog (by omega) _)
    | true => exact ⟨fun h => h hsize (hjsize ▸ hgt) hr hmoves, fun h _ _ _ _ => h⟩

/-- **One call**: its block is in order if and only if there is room for the padding. -/
theorem blockInside_iff (hs : s.Ok) (hr : InRange s c) (h : arenaCall H fuel s.arena c = some (a', r)) :
    BlockInside H s c a' r ↔ HasRoom H s.arena c := by
  have hlow := hr.taken_lt (H := H) hs
  obtain ⟨⟨k, hk, halign⟩, -⟩ := hr
  by_cases hc : c = .reset
  · subst hc
    cases h
    exact ⟨fun _ hne => absurd rfl hne, fun _ => ⟨Nat.zero_le _, by simp, by simp, by simp⟩⟩
  · obtain ⟨rfl, hused, hsize, -, -, hnull⟩ | ⟨hsize, a₁, hq, hused, rfl, rfl⟩ :=
      arenaCall_cases hs.arena hk halign (fun _ => hlow) hc h
    · refine iff_of_true ⟨?_, by simp, by simp, by simp⟩ fun hne _ hr _ => ?_
      · exact hused.trans_le (hs.used.trans_eq hsize.symm)
      · simp [hne, hr] at hnull
    · rw [hasRoom_iff hs.arena hsize hq]
      refine ⟨fun hin => hin.used, fun hle => ⟨hle, ?_, ?_, ?_⟩⟩
      · rintro _ ⟨⟩
        exact ⟨rfl, hle⟩
      · rintro _ ⟨⟩
        rw [halign]
        exact padding_aligned (a := a₁) hk
      · rintro _ ⟨⟩ b hb
        have := hs.blocks b hb
        exact .inl (by dsimp only; omega)

theorem hasRoom_of_padding (h : { a with base := a.reallocs + 1 }.padding H c.align = a.padding H
    c.align) :
    HasRoom H a c := by
  intro _ _ _ _
  have hsame : alignPadding ((H.addr (a.reallocs + 1) + a.used) % 2 ^ 64) c.align = a.padding H
    c.align := h
  rw [hsame]
  exact Nat.le_pow_clog (by omega) _

theorem hasRoom_of_align_le (haddr : ∀ n, 16 ∣ H.addr n) (halign : ∃ k < 64, c.align = 2 ^ k)
    (hle : c.align ≤ 16) : HasRoom H a c := by
  obtain ⟨k, -, halign⟩ := halign
  rw [halign] at hle
  exact hasRoom_of_padding (by rw [halign]; exact padding_eq_of_small hle rfl haddr)

theorem hasRoom_of_align_one (halign : c.align = 1) : HasRoom H a c :=
  hasRoom_of_padding (by rw [halign, padding_one, padding_one])

theorem Room.base_eq (h : Room H fuel a needed q)
    (hstay : a.size < needed → H.moves a.reallocs = false) : q.1.base = a.base := by
  cases h with
  | enough | refused => rfl
  | grown hgt => exact if_neg (by simp [hstay hgt])

/-- A block whose end has more than 64 bits is returned as well, and ends behind all
buffers. -/
theorem arenaCall_wraps (hheap : ∀ n, H.refuses n = false) (ha : a.Ok) (hused : a.used ≤ a.size)
    (hk : k < 64)
    (halign : c.align = 2 ^ k) (hwrap : 2 ^ 64 ≤ a.taken H c) (hsize : c.size ≠ 0) (hc : c ≠ .reset)
    (h : arenaCall H fuel a c = some (a', r)) : ∃ p, r = some p ∧ 2 ^ 63 < p.off + c.size := by
  rw [arenaCall_eq ha.used hc halign, if_neg hsize, Option.map_eq_some_iff] at h
  obtain ⟨⟨a₁, ok⟩, hq, he⟩ := h
  have hroom := room_of_eq hq
  cases ok with
  | false =>
    cases hroom with
    | refused _ _ hr => simp [hheap] at hr
  | true =>
    cases he
    obtain ⟨j, hj, hj'⟩ := ha.size
    have hpow : 2 ^ j ≤ 2 ^ 63 ∧ 2 ^ k ≤ 2 ^ 63 :=
      ⟨Nat.pow_le_pow_right (by omega) (by omega), Nat.pow_le_pow_right (by omega) (by omega)⟩
    have hpad := padding_lt (H := H) (a := a) hk
    have hpad₁ := padding_lt (H := H) (a := a₁) hk
    have hused₁ : a₁.used = a.used := hroom.used_eq
    refine ⟨_, rfl, ?_⟩
    simp only [CtxArena.taken, halign] at hwrap
    simp only [halign, hused₁]
    rw [Nat.mod_eq_of_lt (by omega)]
    omega

theorem ArenaRun.Ok.next (hs : s.Ok) (hr : InRange s c) (hroom : HasRoom H s.arena c)
    (h : arenaNext H fuel s c = some s') : s'.Ok := by
  rw [arenaNext, Option.map_eq_some_iff] at h
  obtain ⟨⟨a', r⟩, h, rfl⟩ := h
  have hin := (blockInside_iff hs hr h).mpr hroom
  have hok := (hs.arena.arenaCall hr.1.choose_spec.2 h).1
  by_cases hc : c = .reset
  · rw [if_pos hc]
    subst hc
    cases h
    exact ⟨hok, Nat.zero_le _, le_rfl, by simp⟩
  · rw [if_neg hc]
    have hlow := hr.taken_lt (H := H) hs
    obtain ⟨⟨k, hk, halign⟩, -⟩ := hr
    obtain ⟨rfl, hused, -⟩ | ⟨-, a₁, -, hused, rfl, rfl⟩ :=
      arenaCall_cases hs.arena hk halign (fun _ => hlow) hc h
    · refine ⟨hok, hin.used, ?_, ?_⟩
      · exact hused.trans_le (hs.total.trans (by dsimp only [ArenaRun.asked]; omega))
      · intro b hb
        rw [Option.map_none, Option.toList_none, append_nil] at hb
        exact (hs.blocks b hb).trans_eq hused.symm
    · have hpad := padding_lt (H := H) (a := a₁) hk
      have htotal := hs.total
      refine ⟨hok, hin.used, ?_, ?_⟩
      · rw [ArenaRun.asked, halign]
        dsimp only [CtxArena.taken]
        rw [halign]
        omega
      · intro b hb
        rw [mem_append, Option.map_some, Option.toList_some, mem_singleton] at hb
        obtain hb | rfl := hb
        · have := hs.blocks b hb
          dsimp only [CtxArena.taken]
          omega
        · exact le_rfl

end

theorem ok_arenaStart (H : Heap) : (arenaStart H).Ok :=
  ⟨ok_ctxArenaInit H, Nat.zero_le _, le_rfl, by simp [arenaStart]⟩

/-- The block of a call that ends is in order. -/
def CallInside (H : Heap) (fuel : ℕ) (s : ArenaRun) (c : ArenaCall) : Prop :=
  ∀ a' r, arenaCall H fuel s.arena c = some (a', r) → BlockInside H s c a' r

theorem runInside_iff (haddr : ∀ n, 16 ∣ H.addr n) : ∀ {calls : List ArenaCall} {s s' : ArenaRun}, s.Ok →
    runOk (arenaNext H fuel) InRange s calls → run (arenaNext H fuel) s calls = some s' →
    (runOk (arenaNext H fuel) (CallInside H fuel) s calls ↔
      runOk (arenaNext H fuel) (fun s c => HasRoom H s.arena c) s calls) ∧
    ((∀ c ∈ calls, c.align ≤ 16) → runOk (arenaNext H fuel) (CallInside H fuel) s calls)
  | [], _, _, _, _, _ => ⟨Iff.rfl, fun _ => trivial⟩
  | c :: calls, s, s', hs, hr, hrun => by
    rw [run_cons, Option.bind_eq_some_iff] at hrun
    obtain ⟨s₁, h₁, hrun⟩ := hrun
    have h₁' := h₁
    rw [arenaNext, Option.map_eq_some_iff] at h₁'
    obtain ⟨⟨a', r⟩, hcall, -⟩ := h₁'
    have hstep : CallInside H fuel s c ↔ HasRoom H s.arena c := by
      rw [← blockInside_iff hs hr.1 hcall]
      refine ⟨fun h => h _ _ hcall, fun h a'' r' h' => ?_⟩
      rw [hcall] at h'
      cases h'
      exact h
    have ih := fun hroom => runInside_iff haddr (hs.next hr.1 hroom h₁) (hr.2 s₁ h₁) hrun
    rw [runOk_cons h₁, runOk_cons h₁, hstep]
    refine ⟨and_congr_right fun hroom => (ih hroom).1, fun hsmall => ?_⟩
    have hroom : HasRoom H s.arena c := hasRoom_of_align_le haddr hr.1.1 (hsmall c mem_cons_self)
    exact ⟨hroom, (ih hroom).2 (forall_mem_cons.mp hsmall).2⟩

/-- **Blocks stay inside the arena exactly where the padding does**: in a run of calls
whose sizes and alignments sum up to less than `2 ^ 62`, every block that is returned is
inside the arena, aligned and apart from the others, and the arena does not use more than
it has, if and only if every buffer that has grown has room for the padding that its new
address asks for. Alignments of up to 16 never ask for more. -/
theorem arena_blocks_inside_iff (haddr : ∀ n, 16 ∣ H.addr n) {calls : List ArenaCall} {s' : ArenaRun}
    (hr : runOk (arenaNext H fuel) InRange (arenaStart H) calls)
    (hrun : run (arenaNext H fuel) (arenaStart H) calls = some s') :
    (runOk (arenaNext H fuel) (CallInside H fuel) (arenaStart H) calls ↔
      runOk (arenaNext H fuel) (fun s c => HasRoom H s.arena c) (arenaStart H) calls) ∧
    ((∀ c ∈ calls, c.align ≤ 16) → runOk (arenaNext H fuel) (CallInside H fuel) (arenaStart H) calls) :=
  runInside_iff haddr (ok_arenaStart H) hr hrun

/-- A heap whose first buffer is aligned to 64 and whose others are not. -/
def shiftingHeap : Heap :=
  ⟨⟨fun _ => true, fun _ _ => 0⟩, fun _ => false, fun n => if n = 0 then 64 else 80⟩

theorem shiftingHeap_aligned (n : ℕ) : 16 ∣ shiftingHeap.addr n := by
  rw [shiftingHeap]
  dsimp only
  split <;> decide

/-- For 8000 bytes the arena grows to 8192, which has room for the 48 bytes as well. -/
theorem arena_blocks_inside_small :
    runOk (arenaNext shiftingHeap 64) (CallInside shiftingHeap 64) (arenaStart shiftingHeap)
    [.allocAligned 8000 64] := by
  have hrun : (run (arenaNext shiftingHeap 64) (arenaStart shiftingHeap)
      [.allocAligned 8000 64]).isSome := by
    decide +kernel
  obtain ⟨s', hrun⟩ := Option.isSome_iff_exists.mp hrun
  refine (arena_blocks_inside_iff shiftingHeap_aligned ?_ hrun).1.mpr ⟨fun _ _ _ _ => ?_, fun _ _ =>
    trivial⟩
  · exact ⟨⟨⟨6, by omega, rfl⟩, by decide⟩, fun _ _ => trivial⟩
  · decide +kernel

/-- A block of 8192 bytes aligned to 64: the arena has grown to 8192 bytes for it, and at
the new address 48 bytes of padding come first. -/
theorem arena_block_outside :
    runOk (arenaNext shiftingHeap 64) InRange (arenaStart shiftingHeap) [.allocAligned 8192 64] ∧
    ¬runOk (arenaNext shiftingHeap 64) (CallInside shiftingHeap 64) (arenaStart shiftingHeap)
      [.allocAligned 8192 64] := by
  refine ⟨⟨⟨⟨6, by omega, rfl⟩, by decide⟩, fun _ _ => trivial⟩, fun ⟨hin, _⟩ => ?_⟩
  have hcall :
    ((arenaCall shiftingHeap 64 (ctxArenaInit shiftingHeap) (.allocAligned 8192 64)).map fun r =>
      (r.1.size, r.1.used, r.2)) = some (8192, 8240, some ⟨1, 48⟩) := by decide +kernel
  rw [Option.map_eq_some_iff] at hcall
  obtain ⟨⟨a', r⟩, hcall, he⟩ := hcall
  have hused := (hin a' r hcall).used
  simp only [Prod.mk.injEq] at he
  omega

/-! ### Termination -/

/-- Memory for `total` bytes: the sum, or the size that doubling leads to, has more than
64 bits. -/
def Unrepresentable (a : CtxArena) (total : ℕ) : Prop :=
  2 ^ 64 ≤ total ∨ ∀ n, total ≤ a.size * 2 ^ n → 2 ^ 64 ≤ a.size * 2 ^ n

theorem unrepresentable_iff (ha : a.Ok) (total : ℕ) : Unrepresentable a total ↔ 2 ^ 63 < total := by
  obtain ⟨j, hj, hsize⟩ := ha.size
  constructor
  · rintro (h | h)
    · omega
    · by_contra hle
      have hdouble : a.size * 2 ^ (63 - j) = 2 ^ 63 := by
        rw [hsize, ← Nat.pow_add]
        congr 1
        omega
      have := h (63 - j) (by omega)
      omega
  · intro h
    refine .inr fun n hn => ?_
    rw [hsize, ← Nat.pow_add] at hn ⊢
    have hexp := (Nat.pow_lt_pow_iff_right (a := 2) (by omega)).mp (h.trans_le hn)
    exact Nat.pow_le_pow_right (by omega) hexp

theorem room_terminates_iff (ha : a.Ok) : (∃ n q, ctxArenaRoom H n a needed = some q) ↔
    needed ≤ 2 ^ 63 := by
  obtain ⟨j, hj, hsize⟩ := ha.size
  have hle : a.size ≤ 2 ^ 63 := hsize.trans_le (Nat.pow_le_pow_right (by omega) (by omega))
  constructor
  · rintro ⟨n, q, hq⟩
    cases room_of_eq hq with
    | enough h => exact h.trans hle
    | refused _ hs | grown _ hs =>
      rw [hsize] at hs
      obtain ⟨hn, i, hi, rfl⟩ := growSize_spec hj hs
      exact hn.trans (Nat.pow_le_pow_right (by omega) (by omega))
  · intro hneed
    obtain ⟨n, hn⟩ := growSize_total hneed (show j + (63 - j) = 63 by omega)
    rw [← hsize] at hn
    by_cases henough : needed ≤ a.size
    · exact ⟨0, _, by rw [ctxArenaRoom, if_neg (Nat.not_lt.mpr henough)]⟩
    · exact ⟨_,
        _, by rw [ctxArenaRoom, if_pos (Nat.lt_of_not_le henough), ctxArenaGrow, hn,
          Option.map_some]⟩

theorem Room.ok_iff (h : Room H fuel a needed q) :
    q.2 = true ↔ needed ≤ a.size ∨ H.refuses a.reallocs = false := by
  cases h with
  | enough h => simp [h]
  | refused h _ hr => simp [hr, Nat.not_le.mpr h]
  | grown _ _ hr => simp [hr]

/-- The call ends, and returns no block that could not be had. -/
def EndsInOrder (H : Heap) (a : CtxArena) (c : ArenaCall) : Prop :=
  (∃ n r, arenaCall H n a c = some r) ∧
  ∀ n a' r, arenaCall H n a c = some (a', r) → Unrepresentable a (a.taken H c) → r = none

/-- The sum has wrapped around to one that `realloc` is asked for, and that is refused. -/
def WrapsAndRefused (H : Heap) (a : CtxArena) (total : ℕ) : Prop :=
  2 ^ 64 ≤ total ∧ a.size < total % 2 ^ 64 ∧ total % 2 ^ 64 ≤ 2 ^ 63 ∧ H.refuses a.reallocs = true

theorem arenaTake_eq_none {c : ArenaCall} : (arenaTake H c q).2 = none ↔ q.2 = false := by
  obtain ⟨a₁, ok⟩ := q
  cases ok <;> simp [arenaTake]

theorem endsInOrder_iff {c : ArenaCall} (ha : a.Ok) (hc : c ≠ .reset) (halign : c.align = 2 ^ k)
    (hsize : c.size ≠ 0) :
    EndsInOrder H a c ↔ a.taken H c ≤ 2 ^ 63 ∨ WrapsAndRefused H a (a.taken H c) := by
  have hcall : ∀ n, arenaCall H n a c =
      (ctxArenaRoom H n a (a.taken H c % 2 ^ 64)).map (arenaTake H c) := by
    intro n
    rw [arenaCall_eq ha.used hc halign, if_neg hsize, Nat.mod_add_mod, CtxArena.taken]
  have hends : (∃ n r, arenaCall H n a c = some r) ↔ a.taken H c % 2 ^ 64 ≤ 2 ^ 63 := by
    rw [← room_terminates_iff (H := H) ha]
    simp only [hcall, Option.map_eq_some_iff]
    exact ⟨fun ⟨n, _, q, hq, _⟩ => ⟨n, q, hq⟩, fun ⟨n, q, hq⟩ => ⟨n, _, q, hq, rfl⟩⟩
  -- every call that ends returns null in the same cases
  have hnull : ∀ n a' r, arenaCall H n a c = some (a', r) →
      (r = none ↔ a.size < a.taken H c % 2 ^ 64 ∧ H.refuses a.reallocs = true) := by
    intro n a' r h
    rw [hcall, Option.map_eq_some_iff] at h
    obtain ⟨q, hq, he⟩ := h
    have hr : (arenaTake H c q).2 = r := congrArg Prod.snd he
    rw [← hr, arenaTake_eq_none, ← Bool.not_eq_true, (room_of_eq hq).ok_iff, not_or, not_le,
      Bool.not_eq_false]
  rw [EndsInOrder, hends, unrepresentable_iff ha]
  constructor
  · rintro ⟨hle, hover⟩
    by_cases hfits : a.taken H c ≤ 2 ^ 63
    · exact .inl hfits
    · obtain ⟨n, ⟨a', r⟩, h⟩ := hends.mpr hle
      obtain ⟨hgrow, hrefuse⟩ := (hnull n a' r h).mp (hover n a' r h (by omega))
      exact .inr ⟨by omega, hgrow, hle, hrefuse⟩
  · rintro (hfits | ⟨-, hgrow, hle, hrefuse⟩)
    · exact ⟨by omega, fun _ _ _ _ hover => absurd hover (by omega)⟩
    · exact ⟨hle, fun n a' r h _ => (hnull n a' r h).mpr ⟨hgrow, hrefuse⟩⟩

/-- **Which calls end in order**: in every state that earlier calls have led to, a call ends,
and returns null if the sum or the doubled size has more than 64 bits, if and only if it asks
for nothing, or the sum is at most `2 ^ 63`, or it has wrapped around to a size that `realloc`
refuses. -/
theorem alloc_terminates_iff {s : ArenaRun} {c : ArenaCall}
    (hs : Reaches (arenaNext H fuel) (fun _ c => Words c) (arenaStart H) s) (hc : Words c) :
    EndsInOrder H s.arena c ↔
      c.size = 0 ∨ s.arena.taken H c ≤ 2 ^ 63 ∨ WrapsAndRefused H s.arena (s.arena.taken H c) := by
  have hok : s.arena.Ok := by
    refine hs.invariant (fun s => s.arena.Ok) (ok_ctxArenaInit H) fun s c s' hs hc h => ?_
    rw [arenaNext, Option.map_eq_some_iff] at h
    obtain ⟨⟨a', r⟩, h, rfl⟩ := h
    have hok := (hs.arenaCall hc.2.choose_spec.2 h).1
    split <;> exact hok
  obtain ⟨-, k, hk, halign⟩ := hc
  by_cases hreset : c = .reset
  · subst hreset
    exact iff_of_true ⟨⟨0, _, rfl⟩, fun _ _ _ h _ => by cases h; rfl⟩ (.inl rfl)
  · by_cases hsize : c.size = 0
    · have hcall : ∀ n, arenaCall H n s.arena c = some (s.arena, none) := by
        intro n
        rw [arenaCall_eq hok.used hreset halign, if_pos hsize]
      refine iff_of_true ⟨⟨0, _, hcall 0⟩, fun n a' r h _ => ?_⟩ (.inl hsize)
      rw [hcall] at h
      cases h
      rfl
    · rw [endsInOrder_iff hok hreset halign hsize, or_iff_right hsize]

theorem alloc_terminates_default :
    EndsInOrder shiftingHeap (ctxArenaInit shiftingHeap) (.alloc 4097) := by
  have hs : Reaches (arenaNext shiftingHeap 64) (fun _ c => Words c) (arenaStart shiftingHeap)
      (arenaStart shiftingHeap) := .start
  exact (alloc_terminates_iff hs ⟨by decide, 0, by omega, rfl⟩).mpr (.inr (.inl (by decide +kernel)))

/-- For a block of `2 ^ 63 + 1` bytes the loop doubles the size to zero, and does not end. -/
theorem alloc_loops :
    ¬∃ fuel r, arenaCall shiftingHeap fuel (ctxArenaInit shiftingHeap) (.alloc (2 ^ 63 + 1)) =
    some r := by
  rintro ⟨fuel, r, hr⟩
  rw [arenaCall_eq (k := 0) (Nat.two_pow_pos 64) (by simp) rfl, if_neg (by simp [ArenaCall.size]),
    Option.map_eq_some_iff] at hr
  obtain ⟨q, hq, -⟩ := hr
  exact absurd ((room_terminates_iff (ok_ctxArenaInit _)).mp ⟨fuel, q, hq⟩) (by decide +kernel)

end Iohttp
