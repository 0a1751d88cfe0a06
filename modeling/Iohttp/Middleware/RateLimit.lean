/-
# Histories of rate limit checks

`ioh_ratelimit_check` of `src/middleware/ioh_ratelimit.c`, call after call. The
buckets lie in a table of 1024 slots with linear probing, from which nothing is
removed. A key is stored with at most 127 bytes and compared as a whole. So a
longer key never finds its bucket again: each call makes a new one. Shorter
keys have each its own (`keys_identify_iff`).

What a limiter is for is to answer the calls of a key by a token bucket of its
own (`own`). It does for a key that finds a free slot when it first appears
(`answersOf_own`). Once the table is full, a new key is refused
(`new_key_refused`).

Arithmetic on `double` is a parameter but for `passed_le`, where it is exact.
-/
import Iohttp.Lib.Probing
import Iohttp.Lib.TokenBucket
import Iohttp.Middleware.Instance

namespace Iohttp
namespace Instance

open List

open Probing (probe Findable)

variable {D : Type} [NatCast D] [IntCast D] [Add D] [Sub D] [Mul D] [Div D] [LT D] [DecidableLT D] [LE D]
  [DecidableLE D] {k key : Bytes} {st : RatelimitState D} {s : ℕ} {E : Type} [NatCast E]

/-! ### One check -/

def order (key : Bytes) : List ℕ :=
  (List.range ratelimitBuckets).map fun i => (hashKey key + i) % ratelimitBuckets

def freshBucket (cfg : RatelimitConfig) (key : Bytes) (found : Timespec) : Bucket D :=
  ⟨key.take 127, (cfg.burst : D), found⟩

/-- `refill_bucket`, and a token if there is one. -/
def drawBucket (cfg : RatelimitConfig) (b : Bucket D) (now : Timespec) : Bucket D × Bool :=
  let b := refillBucket b cfg now
  if ((1 : ℕ) : D) ≤ b.tokens then ({ b with tokens := b.tokens - ((1 : ℕ) : D) }, true) else (b, false)

/-- The draw for a key that leads to the slot: from the bucket there, or from a new
one. -/
def drawAt (st : RatelimitState D) (key : Bytes) (s : ℕ) (v : Visit) : Bucket D × Bool :=
  drawBucket st.cfg ((st.buckets s).getD (freshBucket st.cfg key v.found)) v.now

def RatelimitState.put (st : RatelimitState D) (s : ℕ) (b : Bucket D) : RatelimitState D :=
  { st with buckets := Function.update st.buckets s (some b) }

theorem findBucket_eq (st : RatelimitState E) (key : Bytes) (found : Timespec) (idx : ℕ) : ∀ is : List ℕ,
    findBucket st key found idx is =
      (probe Bucket.key st.buckets key (is.map fun i => (idx + i) % ratelimitBuckets)).map fun s =>
        (s, match st.buckets s with
          | none => Function.update st.buckets s (some (freshBucket st.cfg key found))
          | some _ => st.buckets)
  | [] => rfl
  | i :: is => by
    rw [findBucket, map_cons]
    cases hs : st.buckets ((idx + i) % ratelimitBuckets) with
    | none =>
      rw [Probing.probe_free hs, Option.map_some, hs]
      rfl
    | some b =>
      by_cases hk : b.key = key
      · rw [Probing.probe_hit hs hk, Option.map_some, hs]
        exact if_pos hk
      · rw [Probing.probe_miss hs hk, ← findBucket_eq st key found idx is]
        exact if_neg hk

theorem drawBucket_key (cfg : RatelimitConfig) (b : Bucket D) (now : Timespec) :
    (drawBucket cfg b now).1.key = b.key := by
  have hrefill : (refillBucket b cfg now).key = b.key := by
    unfold refillBucket
    simp only
    split_ifs
    · rfl
    · rfl
    · rfl
  unfold drawBucket
  simp only
  split_ifs
  · exact hrefill
  · exact hrefill

theorem ratelimitCheck_full (h : probe Bucket.key st.buckets key (order key) = none)
    (v : Visit) : ratelimitCheck st key v = (st, false) := by
  unfold ratelimitCheck
  rw [findBucket_eq]
  rw [order] at h
  rw [h]
  rfl

section

variable (h : probe Bucket.key st.buckets key (order key) = some s)

include h

/-- **What a check does**: it draws from the bucket in the slot that the key leads
to, or from a new one there. -/
theorem ratelimitCheck_slot (v : Visit) :
    ratelimitCheck st key v = (st.put s (drawAt st key s v).1, (drawAt st key s v).2) := by
  unfold ratelimitCheck
  rw [findBucket_eq]
  rw [order] at h
  rw [h, Option.map_some]
  unfold drawAt RatelimitState.put drawBucket
  cases hs : st.buckets s with
  | none =>
    simp only [Function.update_self, Function.update_idem, Option.getD_none]
    split_ifs
    · rfl
    · rfl
  | some b =>
    simp only [hs, Option.getD_some]
    split_ifs
    · rfl
    · rfl

theorem drawAt_key (v : Visit) :
    (drawAt st key s v).1.key = key ∨ (drawAt st key s v).1.key = key.take 127 := by
  rw [drawAt, drawBucket_key]
  cases hs : st.buckets s with
  | none => exact .inr rfl
  | some b => exact .inl (Probing.probe_key h hs)

theorem drawAt_key_short
    (hshort : key.length ≤ 127) (v : Visit) : (drawAt st key s v).1.key = key := by
  rcases drawAt_key h v with hkey | hkey
  · exact hkey
  · rw [hkey, take_of_length_le hshort]

end

theorem mem_order (hs : s < ratelimitBuckets) (key : Bytes) : s ∈ order key := by
  have hhash : hashKey key < ratelimitBuckets := Nat.mod_lt _ (by decide)
  refine mem_map.mpr ⟨(s + ratelimitBuckets - hashKey key) % ratelimitBuckets,
    mem_range.mpr (Nat.mod_lt _ (by decide)), ?_⟩
  rw [Nat.add_mod_mod, ← Nat.add_sub_assoc (by omega), Nat.add_sub_cancel_left, Nat.add_mod_right,
    Nat.mod_eq_of_lt hs]

theorem lt_of_mem_order (h : s ∈ order key) : s < ratelimitBuckets := by
  obtain ⟨i, _, rfl⟩ := mem_map.mp h
  exact Nat.mod_lt _ (by decide)

/-! ### Histories -/

/-- A call of `ioh_ratelimit_check`: the bytes of its key before the NUL, and the
visit that it is a part of, with the clock. -/
structure Check where
  key : Bytes
  visit : Visit

def Check.next (st : RatelimitState D) (c : Check) : RatelimitState D :=
  (ratelimitCheck st c.key c.visit).1

/-- The slot of the bucket that a call uses. -/
def Check.slot (st : RatelimitState D) (c : Check) : Option ℕ :=
  (findBucket st c.key c.visit.found (hashKey c.key) (List.range ratelimitBuckets)).map (·.1)

/-- The calls with their answers. -/
def answers : RatelimitState D → List Check → List (Check × Bool)
  | _, [] => []
  | st, c :: cs => (c, (ratelimitCheck st c.key c.visit).2) :: answers (c.next st) cs

/-- The key of every call, with the slot of its bucket. -/
def uses : RatelimitState D → List Check → List (Bytes × Option ℕ)
  | _, [] => []
  | st, c :: cs => (c.key, c.slot st) :: uses (c.next st) cs

/-- The state that `ioh_ratelimit_create` makes. -/
def RatelimitState.start (cfg : RatelimitConfig) : RatelimitState D := ⟨cfg, fun _ => none⟩

/-- A slot is free when the key first appears. -/
def Room (k : Bytes) : RatelimitState D → List Check → Prop
  | _, [] => True
  | st, c :: cs =>
    if c.key = k then ∃ s < ratelimitBuckets, st.buckets s = none else Room k (c.next st) cs

theorem Check.slot_eq (st : RatelimitState E) (c : Check) :
    c.slot st = probe Bucket.key st.buckets c.key (order c.key) := by
  rw [Check.slot, findBucket_eq, ← order]
  cases probe Bucket.key st.buckets c.key (order c.key) with
  | none | some s => rfl

variable {c : Check}

theorem Check.next_slot (h : probe Bucket.key st.buckets c.key (order c.key) = some s) :
    c.next st = st.put s (drawAt st c.key s c.visit).1 := by
  rw [Check.next, ratelimitCheck_slot h]

theorem Check.next_full (h : probe Bucket.key st.buckets c.key (order c.key) = none) :
    c.next st = st := by
  rw [Check.next, ratelimitCheck_full h]

theorem Check.next_cases (st : RatelimitState D) (c : Check) :
    probe Bucket.key st.buckets c.key (order c.key) = none ∧ c.next st = st ∨
    ∃ s, probe Bucket.key st.buckets c.key (order c.key) = some s ∧
      c.next st = st.put s (drawAt st c.key s c.visit).1 := by
  cases h : probe Bucket.key st.buckets c.key (order c.key) with
  | none => exact .inl ⟨rfl, Check.next_full h⟩
  | some s => exact .inr ⟨s, rfl, Check.next_slot h⟩

-- unfolded by mistake they run along 1024 slots
attribute [irreducible] order Check.next Check.slot

/-! ### Keys and buckets -/

/-- The slot has the bucket of the key. -/
def Held (st : RatelimitState D) (k : Bytes) (s : ℕ) : Prop :=
  probe Bucket.key st.buckets k (order k) = some s ∧ ∃ b, st.buckets s = some b

theorem Held.next (h : Held st k s) (hshort : c.key.length ≤ 127) : Held (c.next st) k s := by
  rcases c.next_cases st with ⟨_, heq⟩ | ⟨r, hr, heq⟩
  · rwa [heq]
  · rw [heq]
    obtain ⟨hprobe, b, hb⟩ := h
    have hkey := drawAt_key_short hr hshort c.visit
    by_cases hk : c.key = k
    · subst hk
      rw [hprobe] at hr
      cases hr
      exact ⟨Probing.probe_put_self hkey hprobe, _, Function.update_self ..⟩
    · have hother : ∀ b', st.buckets r = some b' → b'.key ≠ k := fun b' hb' => by
        rw [Probing.probe_key hr hb']
        exact hk
      have hne : s ≠ r := fun he => hother b (he ▸ hb) (Probing.probe_key hprobe hb)
      refine ⟨Probing.probe_put_other (by rwa [hkey]) hother hprobe hb, b, ?_⟩
      exact (Function.update_of_ne hne ..).trans hb

theorem Held.of_slot (h : c.slot st = some s) (hshort : c.key.length ≤ 127) :
    Held (c.next st) c.key s := by
  rw [Check.slot_eq] at h
  rw [Check.next_slot h]
  exact ⟨Probing.probe_put_self (drawAt_key_short h hshort c.visit) h, _, Function.update_self ..⟩

variable {cs : List Check}

/-- Calls use the bucket of a key exactly if they are calls of the key. -/
theorem Held.uses (h : Held st k s)
    (hshort : ∀ c ∈ cs, c.key.length ≤ 127) : ∀ u ∈ uses st cs, u.1 = k ↔ u.2 = some s := by
  induction cs generalizing st with
  | nil => exact fun u hu => by cases hu
  | cons c cs ih =>
    intro u hu
    rcases mem_cons.mp hu with rfl | hu
    · simp only [Check.slot_eq]
      constructor
      · rintro rfl
        exact h.1
      · intro hs
        obtain ⟨hprobe, b, hb⟩ := h
        rw [← Probing.probe_key hs hb, Probing.probe_key hprobe hb]
    · exact ih (h.next (hshort c mem_cons_self)) (forall_mem_cons.mp hshort).2 u hu

/-- Equal keys use the same bucket, different keys different buckets. -/
structure Identifies (us : List (Bytes × Option ℕ)) : Prop where
  found : ∀ u ∈ us, u.2.isSome = true
  apart : us.Pairwise fun u w => u.1 = w.1 ↔ u.2 = w.2

theorem slot_of_free {st : RatelimitState E} (h : ∃ s < ratelimitBuckets, st.buckets s = none) :
    ∃ s, c.slot st = some s := by
  obtain ⟨s, hs, hfree⟩ := h
  rw [Check.slot_eq]
  exact Option.isSome_iff_exists.mp (Probing.probe_isSome_of_free hfree (mem_order hs c.key))

/-- A key finds room at a free slot, or later if it is not that of the call. -/
theorem Room.cons (hfree : ∃ s < ratelimitBuckets, st.buckets s = none)
    (h : c.key ≠ k → Room k (c.next st) cs) : Room k st (c :: cs) := by
  rw [Room]
  split_ifs with hk
  · exact hfree
  · exact h hk

theorem room_cons_self : Room c.key st (c :: cs) ↔ ∃ s < ratelimitBuckets, st.buckets s = none := by
  rw [Room, if_pos rfl]

theorem room_cons_ne (h : c.key ≠ k) : Room k st (c :: cs) ↔ Room k (c.next st) cs := by
  rw [Room, if_neg h]

/-- **Keys of at most 127 bytes have each its own bucket**, from a state on in which
every key has its bucket or will find a free slot. -/
theorem identifies_of_short (hshort : ∀ c ∈ cs, c.key.length ≤ 127)
    (hroom : ∀ k, (∃ s, Held st k s) ∨ Room k st cs) : Identifies (uses st cs) := by
  induction cs generalizing st with
  | nil => exact ⟨fun _ hu => (by cases hu), .nil⟩
  | cons c cs ih =>
    have hc := hshort c mem_cons_self
    have hcs := (forall_mem_cons.mp hshort).2
    obtain ⟨s, hs⟩ : ∃ s, c.slot st = some s := by
      rcases hroom c.key with ⟨s, hheld⟩ | hfree
      · exact ⟨s, by rw [Check.slot_eq, hheld.1]⟩
      · exact slot_of_free (room_cons_self.mp hfree)
    have hheld := Held.of_slot hs hc
    have hrest : ∀ k, (∃ s, Held (c.next st) k s) ∨ Room k (c.next st) cs := by
      intro k
      rcases hroom k with ⟨s', hs'⟩ | hfree
      · exact .inl ⟨s', hs'.next hc⟩
      · by_cases hk : c.key = k
        · exact .inl ⟨s, hk ▸ hheld⟩
        · exact .inr ((room_cons_ne hk).mp hfree)
    obtain ⟨hfound, hapart⟩ := ih hcs hrest
    refine ⟨fun u hu => ?_, .cons (fun w hw => ?_) hapart⟩
    · rcases mem_cons.mp hu with rfl | hu
      · simp only [hs, Option.isSome_some]
      · exact hfound u hu
    · simp only [hs]
      rw [eq_comm, hheld.uses hcs w hw, eq_comm]

theorem slot_ne_of_long (c c' : Check) (hlong : 127 < c.key.length) (hslot : c.slot st = some s)
    (hfree : st.buckets s = none) (hkey : c'.key = c.key) : c'.slot (c.next st) ≠ some s := by
  intro hslot'
  rw [Check.slot_eq] at hslot hslot'
  rw [Check.next_slot hslot] at hslot'
  have hstored := Probing.probe_key hslot' (Function.update_self ..)
  rw [drawAt, drawBucket_key, hfree, hkey] at hstored
  change c.key.take 127 = c.key at hstored
  have hlen := congrArg List.length hstored
  rw [length_take] at hlen
  omega

/-- **When keys identify buckets**: in all histories with these keys in which a slot
is free when a new key appears, equal keys use the same bucket and different keys
different buckets, exactly if no key is longer than 127 bytes. -/
theorem keys_identify_iff (cfg : RatelimitConfig) (keys : Set Bytes) :
    (∀ cs : List Check, (∀ c ∈ cs, c.key ∈ keys) → (∀ k, Room k (.start cfg : RatelimitState D) cs) →
      Identifies (uses (.start cfg : RatelimitState D) cs)) ↔
    ∀ k ∈ keys, k.length ≤ 127 := by
  constructor
  · intro hall k hk
    by_contra hlong
    -- two calls of the key
    let c : Check := ⟨k, tokenVisit⟩
    let st : RatelimitState D := .start cfg
    have hroom : ∀ k', Room k' st [c, c] := fun k' =>
      .cons ⟨0, by decide, rfl⟩ fun hk' => (room_cons_ne hk').mpr trivial
    obtain ⟨hfound, hapart⟩ := hall [c, c] (by simp [c, hk]) hroom
    have hsome := hfound (c.key, c.slot st) mem_cons_self
    have hsame := (pairwise_cons.mp hapart).1 (c.key, c.slot (c.next st)) mem_cons_self
    simp only [true_iff] at hsome hsame
    obtain ⟨s, hs⟩ := Option.isSome_iff_exists.mp hsome
    exact slot_ne_of_long c c (Nat.lt_of_not_le hlong) hs rfl rfl (hsame.symm.trans hs)
  · intro hshort cs hkeys hroom
    exact identifies_of_short (fun c hc => hshort _ (hkeys c hc)) fun k => .inr (hroom k)

/-- A key of 128 bytes gets a new bucket with each call, so that it is never refused. -/
theorem long_key_two_buckets :
    let c : Check := ⟨List.replicate 128 97, tokenVisit⟩
    uses (.start ⟨1, 1⟩ : RatelimitState ℚ) [c, c] = [(c.key, some 389), (c.key, some 390)] ∧
    (answers (.start ⟨1, 1⟩ : RatelimitState ℚ) [c, c]).map (·.2) = [true, true] := by
  decide +kernel

/-! ### The bucket of a key -/

/-- What a limiter is for: the calls of a key at these times (when a bucket is
found, and when it is filled), answered by a bucket of its own. -/
def own (cfg : RatelimitConfig) (k : Bytes) : Option (Bucket D) → List (Timespec × Timespec) → List Bool
  | _, [] => []
  | b, t :: ts =>
    let r := drawBucket cfg (b.getD (freshBucket cfg k t.1)) t.2
    r.2 :: own cfg k (some r.1) ts

def bucketOf (st : RatelimitState D) (k : Bytes) : Option (Bucket D) :=
  Probing.get Bucket.key st.buckets k (order k)

/-- The calls of a key with their answers. -/
def answersOf (k : Bytes) (st : RatelimitState D) (cs : List Check) : List (Check × Bool) :=
  (answers st cs).filter fun a => a.1.key = k

/-- The times of the calls of a key. -/
def timesOf (k : Bytes) (cs : List Check) : List (Timespec × Timespec) :=
  (cs.filter fun c => c.key = k).map fun c => (c.visit.found, c.visit.now)

theorem Check.next_cfg (st : RatelimitState D) (c : Check) : (c.next st).cfg = st.cfg := by
  rcases c.next_cases st with ⟨_, heq⟩ | ⟨s, _, heq⟩
  · rw [heq]
  · rw [heq]
    rfl

theorem next_other
    (h : Findable Bucket.key st.buckets k (order k)) (hk : c.key ≠ k) (hstored : c.key.take 127 ≠ k) :
    Findable Bucket.key (c.next st).buckets k (order k) ∧ bucketOf (c.next st) k = bucketOf st k := by
  rcases c.next_cases st with ⟨_, heq⟩ | ⟨s, hs, heq⟩
  · rw [heq]
    exact ⟨h, rfl⟩
  · rw [heq]
    have hput : (drawAt st c.key s c.visit).1.key ≠ k := by
      rcases drawAt_key hs c.visit with hkey | hkey
      · rwa [hkey]
      · rwa [hkey]
    have hthere : ∀ b, st.buckets s = some b → b.key ≠ k := fun b hb => by
      rwa [Probing.probe_key hs hb]
    exact ⟨h.put_other hput hthere, Probing.get_put_other h hput hthere⟩

/-- The draw of a call of the key. -/
def ownDraw (st : RatelimitState D) (c : Check) : Bucket D × Bool :=
  drawBucket st.cfg ((bucketOf st c.key).getD (freshBucket st.cfg c.key c.visit.found)) c.visit.now

theorem next_own (hshort : c.key.length ≤ 127)
    (h : Findable Bucket.key st.buckets c.key (order c.key)) (hs : c.slot st = some s) :
    Findable Bucket.key (c.next st).buckets c.key (order c.key) ∧
    bucketOf (c.next st) c.key = some (ownDraw st c).1 ∧ (ratelimitCheck st c.key c.visit).2 =
    (ownDraw st c).2 := by
  rw [Check.slot_eq] at hs
  have hbucket : bucketOf st c.key = st.buckets s := by rw [bucketOf, Probing.get, hs, Option.bind_some]
  have hdraw : ownDraw st c = drawAt st c.key s c.visit := by rw [ownDraw, hbucket, drawAt]
  have hkey := drawAt_key_short hs hshort c.visit
  rw [Check.next_slot hs, ratelimitCheck_slot hs, hdraw]
  exact ⟨h.put_self hkey hs, Probing.get_put_self hkey hs, rfl⟩

/-- **A key is answered by its own bucket**: if it is not too long, no other key is
stored as it, and it has its bucket or will find a free slot. -/
theorem answersOf_own (hshort : k.length ≤ 127)
    (h : Findable Bucket.key st.buckets k (order k)) (hstored : ∀ c ∈ cs, c.key ≠ k → c.key.take 127 ≠ k)
    (hroom : bucketOf st k = none → Room k st cs) :
    (answersOf k st cs).map (·.2) = own st.cfg k (bucketOf st k) (timesOf k cs) := by
  induction cs generalizing st with
  | nil => rfl
  | cons c cs ih =>
    have hrest := (forall_mem_cons.mp hstored).2
    rw [answersOf, answers, timesOf]
    by_cases hk : c.key = k
    · subst hk
      obtain ⟨s, hs⟩ : ∃ s, c.slot st = some s := by
        cases hb : bucketOf st c.key with
        | none => exact slot_of_free (room_cons_self.mp (hroom hb))
        | some b =>
          obtain ⟨s, hs, _⟩ := Probing.get_eq_some.mp hb
          exact ⟨s, by rw [Check.slot_eq, hs]⟩
      obtain ⟨hfind, hbucket, hanswer⟩ := next_own hshort h hs
      have hlater := ih hfind hrest (fun hnone => by rw [hbucket] at hnone; cases hnone)
      rw [filter_cons_of_pos (by simp), filter_cons_of_pos (by simp), map_cons, map_cons, own,
        hanswer]
      rw [hbucket, c.next_cfg] at hlater
      exact congrArg ((ownDraw st c).2 :: ·) hlater
    · obtain ⟨hfind, hbucket⟩ := next_other h hk (hstored c mem_cons_self hk)
      rw [filter_cons_of_neg (by simpa using hk), filter_cons_of_neg (by simpa using hk)]
      rw [← hbucket, ← c.next_cfg st]
      exact ih hfind hrest fun hnone => (room_cons_ne hk).mp (hroom (hbucket ▸ hnone))

theorem start_findable {F : Type} (cfg : RatelimitConfig) (k : Bytes) :
    Findable Bucket.key (RatelimitState.start cfg : RatelimitState F).buckets k (order k) :=
  fun _ _ hb _ => by cases hb

/-- The conditions under which other keys do not matter to a key: it has at most 127
bytes, is not what is stored of a longer key, and finds a free slot when it first
appears. -/
structure Undisturbed (st : RatelimitState D) (k : Bytes) (cs : List Check) : Prop where
  short : k.length ≤ 127
  stored : ∀ c ∈ cs, c.key ≠ k → c.key.take 127 ≠ k
  room : Room k st cs

variable {cfg : RatelimitConfig}

/-- **Rate limit isolation.** In two histories with the same calls of a key at the
same times, in both of which the key is undisturbed, its calls get the same answers. -/
theorem isolated {cfg : RatelimitConfig} {k : Bytes} {cs cs' : List Check}
    (h : Undisturbed (.start cfg : RatelimitState D) k cs)
    (h' : Undisturbed (.start cfg : RatelimitState D) k cs')
    (hsame : timesOf k cs = timesOf k cs') :
    (answersOf k (.start cfg : RatelimitState D) cs).map (·.2) =
      (answersOf k (.start cfg : RatelimitState D) cs').map (·.2) := by
  rw [answersOf_own h.short (start_findable cfg k) h.stored fun _ => h.room,
    answersOf_own h'.short (start_findable cfg k) h'.stored fun _ => h'.room, hsame]

/-- A call of the key `k`. -/
def kCheck : Check := ⟨bytes "k", tokenVisit⟩

/-- Two calls of the key `k`, alone and with a call of `j` between them. -/
theorem isolated_pair :
    (answersOf (bytes "k") (.start ⟨1, 1⟩ : RatelimitState ℚ) [kCheck, ⟨bytes "j", tokenVisit⟩,
      kCheck]).map (·.2) =
      (answersOf (bytes "k") (.start ⟨1, 1⟩ : RatelimitState ℚ) [kCheck, kCheck]).map (·.2) := by
  refine isolated ⟨by decide, ?_, ?_⟩ ⟨by decide, ?_, ?_⟩ rfl
  · decide
  · exact room_cons_self.mpr ⟨0, by decide, rfl⟩
  · decide
  · exact room_cons_self.mpr ⟨0, by decide, rfl⟩

/-! ### A full table -/

def after : RatelimitState D → List Check → RatelimitState D
  | st, [] => st
  | st, c :: cs => after (c.next st) cs

theorem free_before (h : (c.next st).buckets s = none) : st.buckets s = none := by
  rcases c.next_cases st with ⟨_, heq⟩ | ⟨r, _, heq⟩
  · rw [heq] at h
    exact h
  · rw [heq] at h
    by_cases hs : s = r
    · rw [hs] at h
      exact absurd h (by simp [RatelimitState.put])
    · exact (Function.update_of_ne hs ..).symm.trans h

theorem room_of_free (hs : s < ratelimitBuckets) (c : Check)
    (h : (after st cs).buckets s = none) : st.buckets s = none ∧ ∀ k, Room k st (cs ++ [c]) := by
  induction cs generalizing st with
  | nil => exact ⟨h, fun k => .cons ⟨s, hs, h⟩ fun _ => trivial⟩
  | cons c' cs ih =>
    obtain ⟨hfree, hroom⟩ := ih h
    have hfree' := free_before hfree
    exact ⟨hfree', fun k => .cons ⟨s, hs, hfree'⟩ fun _ => hroom k⟩

theorem uses_keys (st : RatelimitState D) (cs : List Check) :
    (uses st cs).map (·.1) = cs.map (·.key) := by
  induction cs generalizing st with
  | nil => rfl
  | cons c cs ih => rw [uses, map_cons, map_cons, ih]

theorem uses_slots (h : (k, some s) ∈ uses st cs) : s < ratelimitBuckets := by
  induction cs generalizing st with
  | nil => cases h
  | cons c cs ih =>
    rcases mem_cons.mp h with heq | h
    · have hs := (Prod.mk.inj heq).2
      rw [Check.slot_eq] at hs
      exact lt_of_mem_order (Probing.mem_of_probe hs.symm)
    · exact ih h

theorem length_le_of_identifies (h : Identifies (uses st cs))
    (hkeys : (cs.map (·.key)).Nodup) : cs.length ≤ ratelimitBuckets := by
  have hnodup : ((uses st cs).map (·.2)).Nodup := by
    rw [List.Nodup, pairwise_map]
    rw [← uses_keys st cs, List.Nodup, pairwise_map] at hkeys
    exact h.apart.imp₂ (fun u w hiff hne heq => hne (hiff.mpr heq)) hkeys
  have hsub : ((uses st cs).map (·.2)).toFinset ⊆ (Finset.range ratelimitBuckets).image some := by
    intro o ho
    obtain ⟨⟨k, slot⟩, hu, rfl⟩ := mem_map.mp (mem_toFinset.mp ho)
    obtain ⟨s, rfl⟩ := Option.isSome_iff_exists.mp (h.found _ hu)
    exact Finset.mem_image_of_mem _ (Finset.mem_range.mpr (uses_slots hu))
  have hcard := (Finset.card_le_card hsub).trans Finset.card_image_le
  rw [toFinset_card_of_nodup hnodup, Finset.card_range, length_map,
    ← length_map (·.1), uses_keys, length_map] at hcard
  exact hcard

theorem after_other
    (h : Findable Bucket.key st.buckets k (order k)) (hother : ∀ c ∈ cs, c.key ≠ k ∧
      c.key.take 127 ≠ k) :
    Findable Bucket.key (after st cs).buckets k (order k) ∧ bucketOf (after st cs) k =
    bucketOf st k := by
  induction cs generalizing st with
  | nil =>
    exact ⟨h, rfl⟩
  | cons c cs ih =>
    obtain ⟨hk, hstored⟩ := hother c mem_cons_self
    obtain ⟨hfind, hbucket⟩ := next_other h hk hstored
    obtain ⟨hfind', hbucket'⟩ := ih hfind (forall_mem_cons.mp hother).2
    exact ⟨hfind', hbucket'.trans hbucket⟩

/-- **A new key is refused** after calls of 1024 others. -/
theorem new_key_refused (hshort : ∀ c' ∈ cs ++ [c], c'.key.length ≤ 127)
    (hkeys : ((cs ++ [c]).map (·.key)).Nodup) (hlen : ratelimitBuckets ≤ cs.length) :
    (ratelimitCheck (after (.start cfg : RatelimitState D) cs) c.key c.visit).2 = false := by
  have hnew : ∀ c' ∈ cs, c'.key ≠ c.key := by
    rw [map_append] at hkeys
    intro c' hc' heq
    exact (nodup_append.mp hkeys).2.2 _ (mem_map_of_mem hc') _ (mem_singleton_self _) heq
  have hother : ∀ c' ∈ cs, c'.key ≠ c.key ∧ c'.key.take 127 ≠ c.key := by
    intro c' hc'
    rw [take_of_length_le (hshort c' (mem_append_left _ hc'))]
    exact ⟨hnew c' hc', hnew c' hc'⟩
  have hstart : bucketOf (.start cfg : RatelimitState D) c.key = none :=
    Option.bind_eq_none_iff.mpr fun _ _ => rfl
  obtain ⟨_, hnone⟩ := after_other (start_findable cfg c.key : Findable Bucket.key
    (RatelimitState.start cfg : RatelimitState D).buckets _ _) hother
  rw [hstart] at hnone
  -- the key has no bucket, so it would need a free slot, and so would have had every key
  cases hslot : probe Bucket.key (after (.start cfg : RatelimitState D) cs).buckets c.key
    (order c.key) with
  | none => rw [ratelimitCheck_full hslot]
  | some s =>
    exfalso
    have hfree : (after (.start cfg : RatelimitState D) cs).buckets s = none := by
      rw [bucketOf, Probing.get, hslot, Option.bind_some] at hnone
      exact hnone
    have hroom := (room_of_free (lt_of_mem_order (Probing.mem_of_probe hslot)) c hfree).2
    have hown : Identifies (uses (.start cfg : RatelimitState D) (cs ++ [c])) :=
      identifies_of_short hshort fun k => .inr (hroom k)
    have hcount := length_le_of_identifies hown hkeys
    rw [length_append, length_singleton] at hcount
    omega

theorem answers_append (st : RatelimitState D) (cs cs' : List Check) :
    answers st (cs ++ cs') = answers st cs ++ answers (after st cs) cs' := by
  induction cs generalizing st with
  | nil => rw [after, answers, nil_append, nil_append]
  | cons c cs ih => rw [cons_append, answers, answers, after, ih, cons_append]

theorem answers_checks (st : RatelimitState D) (cs : List Check) : (answers st cs).map (·.1) = cs := by
  induction cs generalizing st with
  | nil => rfl
  | cons c cs ih => rw [answers, map_cons, ih]

theorem answersOf_append_other (h : ∀ c ∈ cs, c.key ≠ k)
    (cs' : List Check) : answersOf k st (cs ++ cs') = answersOf k (after st cs) cs' := by
  have hnil : (answers st cs).filter (fun a => a.1.key = k) = [] := by
    rw [filter_eq_nil_iff]
    intro a ha
    rw [decide_eq_true_iff]
    refine h a.1 ?_
    rw [← answers_checks st cs]
    exact mem_map_of_mem ha
  rw [answersOf, answers_append, filter_append, hnil, nil_append, answersOf]

/-- Calls of 1024 other keys. -/
def others : List Check :=
  (List.range ratelimitBuckets).map fun i =>
  ⟨[UInt8.ofNat (i / 32 + 1), UInt8.ofNat (i % 32 + 1)], tokenVisit⟩

theorem others_keys (h : c ∈ others) : c.key.length = 2 := by
  obtain ⟨i, _, rfl⟩ := mem_map.mp h
  rfl

theorem others_nodup : ((others ++ [kCheck]).map (·.key)).Nodup := by
  rw [map_append, nodup_append]
  refine ⟨?_, nodup_singleton _, ?_⟩
  · rw [others, map_map]
    refine List.Nodup.map_on (fun i hi j hj hij => ?_) nodup_range
    have hi : i < 1024 := mem_range.mp hi
    have hj : j < 1024 := mem_range.mp hj
    obtain ⟨hdiv, htail⟩ := cons_eq_cons.mp hij
    obtain ⟨hmod, _⟩ := cons_eq_cons.mp htail
    have hdiv' := congrArg UInt8.toNat hdiv
    have hmod' := congrArg UInt8.toNat hmod
    rw [UInt8.toNat_ofNat', UInt8.toNat_ofNat'] at hdiv' hmod'
    omega
  · intro a ha b hb heq
    obtain ⟨c, hc, rfl⟩ := mem_map.mp ha
    have hlen := others_keys hc
    rw [heq, mem_singleton.mp hb] at hlen
    cases hlen

/-- The same call of the key `k` is granted alone, and denied after those of the
other keys. -/
theorem full_table_denies :
    timesOf (bytes "k") (others ++ [kCheck]) = timesOf (bytes "k") [kCheck] ∧
    (answersOf (bytes "k") (.start ⟨1, 1⟩ : RatelimitState ℚ) [kCheck]).map (·.2) = [true] ∧
    (answersOf (bytes "k") (.start ⟨1, 1⟩ : RatelimitState ℚ) (others ++ [kCheck])).map (·.2) =
    [false] := by
  have hother : ∀ c ∈ others, c.key ≠ bytes "k" := by
    intro c hc heq
    have hlen := others_keys hc
    rw [heq] at hlen
    cases hlen
  refine ⟨?_, by decide +kernel, ?_⟩
  · have hnil : others.filter (fun c => c.key = bytes "k") = [] :=
      filter_eq_nil_iff.mpr fun c hc => by simpa using hother c hc
    rw [timesOf, filter_append, hnil, nil_append, timesOf]
  · have hshort : ∀ c ∈ others ++ [kCheck], c.key.length ≤ 127 := by
      intro c hc
      rcases mem_append.mp hc with hc | hc
      · rw [others_keys hc]
        decide
      · rw [mem_singleton.mp hc]
        decide
    have hrefused :
      (ratelimitCheck (after (.start ⟨1, 1⟩ : RatelimitState ℚ) others) kCheck.key kCheck.visit).2 =
        false := new_key_refused hshort others_nodup (by simp [others])
    rw [answersOf_append_other hother, answersOf, answers, answers, hrefused]
    rfl

/-! ### The bound of a token bucket, in exact arithmetic -/

def Timespec.time (t : Timespec) : ℚ := t.sec + t.nsec / 1000000000

/-- The clock does not go back: when a bucket is found, when it is filled, at the
next call. -/
def Clock (ts : List (Timespec × Timespec)) : Prop :=
  (ts.flatMap fun t => [t.1.time, t.2.time]).Pairwise (· ≤ ·)

/-- The calls of a key that passed in a window of time. -/
def passed (k : Bytes) (t₀ t₁ : ℚ) (as : List (Check × Bool)) : ℕ :=
  as.countP fun a => decide (a.1.key = k) &&
  (a.2 && (decide (t₀ ≤ a.1.visit.now.time) && decide (a.1.visit.now.time ≤ t₁)))

def Bucket.exact (b : Bucket ℚ) : TokenBucket.Bucket ℚ := ⟨b.tokens, b.lastRefill.time⟩

theorem refillBucket_exact (cfg : RatelimitConfig) (b : Bucket ℚ) (now : Timespec) :
    (refillBucket b cfg now).exact = TokenBucket.refill (cfg.requestsPerSecond : ℚ) cfg.burst
    b.exact now.time := by
  have helapsed : ((now.sec - b.lastRefill.sec : ℤ) : ℚ) +
      ((now.nsec - b.lastRefill.nsec : ℤ) : ℚ) / ((1000000000 : ℕ) : ℚ) =
      now.time - b.lastRefill.time := by
    unfold Timespec.time
    push_cast
    ring
  unfold refillBucket TokenBucket.refill
  simp only [helapsed, Nat.cast_zero]
  by_cases h : 0 < now.time - b.lastRefill.time
  · rw [if_pos h, if_pos (show 0 < now.time - b.exact.last from h)]
    refine TokenBucket.Bucket.ext ?_ rfl
    exact (min_def_lt ..).symm
  · rw [if_neg h, if_neg (show ¬0 < now.time - b.exact.last from h)]

theorem drawBucket_exact (cfg : RatelimitConfig) (b : Bucket ℚ) (now : Timespec) :
    (drawBucket cfg b now).1.exact =
        (TokenBucket.draw (cfg.requestsPerSecond : ℚ) cfg.burst b.exact now.time).1 ∧
    (drawBucket cfg b now).2 = (TokenBucket.draw (cfg.requestsPerSecond : ℚ) cfg.burst b.exact
      now.time).2 := by
  unfold drawBucket TokenBucket.draw
  simp only [← refillBucket_exact, Nat.cast_one]
  by_cases h : 1 ≤ (refillBucket b cfg now).tokens
  · rw [if_pos h, if_pos (show 1 ≤ (refillBucket b cfg now).exact.tokens from h)]
    exact ⟨rfl, rfl⟩
  · rw [if_neg h, if_neg (show ¬1 ≤ (refillBucket b cfg now).exact.tokens from h)]
    exact ⟨rfl, rfl⟩

theorem own_exact (cfg : RatelimitConfig) (k : Bytes) (ts : List (Timespec × Timespec)) (b : Bucket ℚ) :
    own cfg k (some b) ts = (TokenBucket.answers (cfg.requestsPerSecond : ℚ) cfg.burst b.exact
      (ts.map fun t => t.2.time)).map (·.2) := by
  induction ts generalizing b with
  | nil => rfl
  | cons t ts ih =>
    obtain ⟨hbucket, hanswer⟩ := drawBucket_exact cfg b t.2
    rw [own, map_cons, TokenBucket.answers, map_cons, ← hbucket, ← hanswer, ← ih]
    rfl

theorem eq_of_sides {α β : Type} {l l' : List (α × β)} (h : l.map (·.1) = l'.map (·.1))
    (h' : l.map (·.2) = l'.map (·.2)) : l = l' := by
  rw [← zip_unzip l, ← zip_unzip l', unzip_eq_map, unzip_eq_map]
  rw [h, h']

theorem passed_eq (k : Bytes) (t₀ t₁ : ℚ) (st : RatelimitState ℚ) (cs : List Check) :
    passed k t₀ t₁ (answers st cs) =
      TokenBucket.granted t₀ t₁ ((answersOf k st cs).map fun a => (a.1.visit.now.time, a.2)) := by
  rw [passed, TokenBucket.granted, answersOf, countP_map, countP_filter]
  refine countP_congr fun a _ => ?_
  rw [Function.comp_apply, Bool.and_comm]

variable {ts : List (Timespec × Timespec)} {t : Timespec × Timespec} {t₀ t₁ : ℚ}

theorem Clock.sublist {ts' : List (Timespec × Timespec)} (h : Clock ts')
    (hsub : ts.Sublist ts') : Clock ts :=
  List.Pairwise.sublist (hsub.flatMap _) h

theorem Clock.fills (h : Clock (t :: ts)) :
    (t.1.time :: (t :: ts).map fun t => t.2.time).Pairwise (· ≤ ·) := by
  have hsub : ∀ ts : List (Timespec × Timespec),
      (ts.map fun t => t.2.time).Sublist (ts.flatMap fun t => [t.1.time, t.2.time]) := by
    intro ts
    induction ts with
    | nil => exact .slnil
    | cons t ts ih => exact .cons _ (.cons_cons _ ih)
  exact List.Pairwise.sublist (.cons_cons _ (.cons_cons _ (hsub ts))) h

theorem answersOf_times (k : Bytes) (st : RatelimitState ℚ) (cs : List Check) :
    ((answersOf k st cs).map fun a => a.1.visit.now.time) = (timesOf k cs).map fun t => t.2.time := by
  have hfilter : (answersOf k st cs).map (·.1) = cs.filter fun c => c.key = k := by
    rw [answersOf, ← answers_checks st cs, filter_map, answers_checks]
    rfl
  rw [timesOf, map_map, ← hfilter, map_map]
  rfl

theorem granted_of_room (hshort : k.length ≤ 127) {st : RatelimitState ℚ}
    (h : Findable Bucket.key st.buckets k (order k)) (hkeys : ∀ c ∈ cs, c.key.length ≤ 127)
    (hnone : bucketOf st k = none) (hroom : Room k st cs)
    (hts : timesOf k cs = t :: ts) (hclock : Clock (t :: ts)) (hwin : t₀ ≤ t₁) :
    (TokenBucket.granted t₀ t₁ ((answersOf k st cs).map fun a => (a.1.visit.now.time, a.2)) : ℚ) ≤
      st.cfg.burst + (t₁ - t₀) * st.cfg.requestsPerSecond := by
  have hstored : ∀ c ∈ cs, c.key ≠ k → c.key.take 127 ≠ k := fun c hc hk => by
    rwa [take_of_length_le (hkeys c hc)]
  have hown := answersOf_own hshort h hstored fun _ => hroom
  have htimes := answersOf_times k st cs
  rw [hts, hnone] at hown
  rw [hts] at htimes
  -- the first call makes the bucket
  let b : Bucket ℚ := freshBucket st.cfg k t.1
  have hfresh : own st.cfg k (none : Option (Bucket ℚ)) (t :: ts) = own st.cfg k (some b)
    (t :: ts) := rfl
  have hsound : b.exact.Sound (st.cfg.burst : ℚ) := ⟨Nat.cast_nonneg _, le_rfl⟩
  have hanswers : ((answersOf k st cs).map fun a => (a.1.visit.now.time, a.2)) =
      TokenBucket.answers (st.cfg.requestsPerSecond : ℚ) st.cfg.burst b.exact
      ((t :: ts).map fun t => t.2.time) := by
    refine eq_of_sides ?_ ?_
    · rw [map_map, TokenBucket.answers_times]
      exact htimes
    · rw [map_map, ← own_exact _ k, ← hfresh]
      exact hown
  rw [hanswers]
  exact TokenBucket.granted_le (Nat.cast_nonneg _) (Nat.cast_nonneg _) hwin hsound hclock.fills

theorem granted_of_short (hwin : t₀ ≤ t₁) {st : RatelimitState ℚ}
    (h : Findable Bucket.key st.buckets k (order k)) (hkeys : ∀ c ∈ cs, c.key.length ≤ 127)
    (hclock : Clock (timesOf k cs)) (hnone : bucketOf st k = none) :
    (TokenBucket.granted t₀ t₁ ((answersOf k st cs).map fun a => (a.1.visit.now.time, a.2)) : ℚ) ≤
      st.cfg.burst + (t₁ - t₀) * st.cfg.requestsPerSecond := by
  induction cs generalizing st with
  | nil =>
    have hbound : 0 ≤ (st.cfg.burst : ℚ) + (t₁ - t₀) * st.cfg.requestsPerSecond :=
      add_nonneg (Nat.cast_nonneg _) (mul_nonneg (sub_nonneg.mpr hwin) (Nat.cast_nonneg _))
    exact Nat.cast_zero.trans_le hbound
  | cons c cs ih =>
    have hrest := (forall_mem_cons.mp hkeys).2
    have hsub : (timesOf k cs).Sublist (timesOf k (c :: cs)) := ((sublist_cons_self c cs).filter _).map _
    have hlater := hclock.sublist hsub
    by_cases hk : c.key = k
    · subst hk
      cases hslot : probe Bucket.key st.buckets c.key (order c.key) with
      | none =>
        -- the table is full, and the call is refused
        have hsame : answersOf c.key st (c :: cs) = (c, false) :: answersOf c.key st cs := by
          rw [answersOf, answers, Check.next_full hslot, ratelimitCheck_full hslot,
            filter_cons_of_pos (by simp),
            answersOf]
        rw [hsame, map_cons, TokenBucket.granted, countP_cons_of_neg (by simp)]
        exact ih h hrest hlater hnone
      | some s =>
        have hfree : st.buckets s = none := by
          rw [bucketOf, Probing.get, hslot, Option.bind_some] at hnone
          exact hnone
        have hroom : Room c.key st (c :: cs) :=
          room_cons_self.mpr ⟨s, lt_of_mem_order (Probing.mem_of_probe hslot), hfree⟩
        have hts : timesOf c.key (c :: cs) = (c.visit.found, c.visit.now) :: timesOf c.key cs := by
          rw [timesOf, filter_cons_of_pos (by simp), map_cons, timesOf]
        exact granted_of_room (hkeys c mem_cons_self) h hkeys hnone hroom hts (hts ▸ hclock) hwin
    · obtain ⟨hfind, hbucket⟩ := next_other h hk (by rwa [take_of_length_le (hkeys c mem_cons_self)])
      have hsame : answersOf k st (c :: cs) = answersOf k (c.next st) cs := by
        rw [answersOf, answers, filter_cons_of_neg (by simpa using hk), answersOf]
      rw [hsame, ← c.next_cfg st]
      exact ih hfind hrest hlater (hbucket.trans hnone)

/-- **The bound of the rate limit.** With a clock that does not go back, the calls of
a key that pass in a window of time are at most `burst` and what the rate brings
meanwhile, whatever other keys are called in between. -/
theorem passed_le (cfg : RatelimitConfig) {cs : List Check} (hkeys : ∀ c ∈ cs, c.key.length ≤ 127)
    (hclock : Clock (cs.map fun c => (c.visit.found, c.visit.now))) (k : Bytes) {t₀ t₁ : ℚ}
    (hwin : t₀ ≤ t₁) :
    (passed k t₀ t₁ (answers (.start cfg : RatelimitState ℚ) cs) : ℚ) ≤
      cfg.burst + cfg.requestsPerSecond * (t₁ - t₀) := by
  have hnone : bucketOf (.start cfg : RatelimitState ℚ) k = none :=
    Option.bind_eq_none_iff.mpr fun _ _ => rfl
  rw [passed_eq, mul_comm]
  exact granted_of_short hwin (start_findable cfg k) hkeys (hclock.sublist (filter_sublist.map _)) hnone

/-- Three calls at once, two of which pass. -/
theorem passed_le_three :
    passed (bytes "k") 0 0 (answers (.start ⟨1, 2⟩ : RatelimitState ℚ) [kCheck, kCheck, kCheck]) = 2 ∧
    (passed (bytes "k") 0 0 (answers (.start ⟨1, 2⟩ : RatelimitState ℚ) [kCheck, kCheck, kCheck]) : ℚ) ≤
      (2 : ℕ) + (1 : ℕ) * (0 - 0) :=
  ⟨by decide +kernel, passed_le ⟨1, 2⟩ (by decide) (by unfold Clock; decide +kernel) (bytes "k") le_rfl⟩

end Instance
end Iohttp
