/-
# The live path

`live_handler` and `json_escape` of `src/core/ioh_health.c`, as they are built
without yyjson: the answer is put together in a buffer of 1024 bytes, and a
text that has become too long is only found at the end. Names and messages are
escaped in a buffer of 256 bytes and cut where that is full, so a few of them
fill the buffer, and further calls write behind it.
-/
import Iohttp.Core.Health
import Iohttp.Http.Cookie
import Iohttp.Http.Serialize
import Iohttp.Lib.Format
import Iohttp.Middleware.Instance

namespace Iohttp

open List

open Format (Inside)

variable {ω : Type}

/-- A digit of `%04x`. -/
def hexLower (d : ℕ) : UInt8 := if d < 10 then (48 + d).toUInt8 else (87 + d).toUInt8

/-- A character of a JSON string. -/
def jsonChar (c : UInt8) : Bytes :=
  if c = 34 ∨ c = 92 then [92, c]
  else if c < 32 then bytes "\\u00" ++ [hexLower (c.toNat / 16), hexLower (c.toNat % 16)]
  else [c]

/-- The loop of `json_escape` behind `out`. -/
def jsonEscapeLoop (size : ℕ) : Bytes → Bytes → Bytes × ℤ
  | out, [] => (out, toInt out.length)
  | out, c :: cs =>
    if size ≤ out.length + (jsonChar c).length then (out, -1) else jsonEscapeLoop size
      (out ++ jsonChar c) cs

/-- `json_escape`: the text in the buffer and the return value. -/
def jsonEscape (size : ℕ) (src : Bytes) : Bytes × ℤ := jsonEscapeLoop size [] (stringAt src)

/-- A checker's name, and what it has returned. -/
structure HealthCheck where
  name : Bytes
  rc : ℤ
  msg : Option Bytes
  deriving DecidableEq, Repr

/-- A name or a message in its buffer. -/
def escaped (src : Bytes) : Bytes := (jsonEscape 256 src).1

/-- What the calls of `snprintf` write for a checker. -/
def checkPieces (c : HealthCheck) : List Bytes :=
  [bytes "\"" ++ escaped c.name ++ bytes "\":\x7b\"status\":\"" ++ bytes
    (if c.rc = 0 then "ok" else "fail") ++
    bytes "\""] ++
  (c.msg.map fun msg => bytes ",\"message\":\"" ++ escaped msg ++ bytes "\"").toList ++ [bytes "\x7d"]

/-- Whether all checkers have succeeded. -/
def allHealthy (checks : List HealthCheck) : Bool := checks.all (·.rc = 0)

/-- What the calls write. -/
def livePieces (checks : List HealthCheck) : List Bytes :=
  [bytes "\x7b\"status\":\"" ++ bytes (if allHealthy checks then "ok" else "degraded") ++
    bytes "\",\"checks\":\x7b"] ++
  Format.separated (bytes ",") (checks.map checkPieces) ++ [bytes "\x7d\x7d"]

abbrev liveBufSize : ℕ := 1024

/-- The status and the text of an answer; `none` if a call writes behind the buffer. -/
def liveAnswer (checks : List HealthCheck) : Option (ℕ × Bytes) :=
  if checks = [] then some (200, bytes "\x7b\"status\":\"ok\"\x7d")
  else
    ((livePieces checks).foldlM (Format.append liveBufSize) ⟨0, []⟩).map fun b =>
      if liveBufSize ≤
        b.off then (500, bytes "\x7b\"status\":\"error\",\"message\":\"response too large\"\x7d")
      else (if allHealthy checks then 200 else 503, b.text)

/-- The size of the buffer for a list of a preflight answer (`ioh_cors.c`). -/
abbrev corsBufSize : ℕ := 512

/-- What the calls of `snprintf` write for a list. -/
def corsPieces (items : List Bytes) : List Bytes :=
  Format.separated (bytes ", ") (items.map ([stringAt ·]))

/-- `live_handler`. -/
def liveHandler (checks : List HealthCheck) (ctx : Ctx ω) : Option (Ctx ω × ℤ) :=
  (liveAnswer checks).map fun a => ctxJson ctx a.1 a.2

theorem length_jsonEscapeLoop {size : ℕ} : ∀ {src out : Bytes}, out.length < size →
    (jsonEscapeLoop size out src).1.length < size
  | [], out, h => h
  | c :: cs, out, h => by
    rw [jsonEscapeLoop]
    split
    case isTrue => exact h
    case isFalse hlt => exact length_jsonEscapeLoop (by rw [length_append]; omega)

theorem length_escaped (src : Bytes) : (escaped src).length < 256 := length_jsonEscapeLoop (by decide)

theorem length_checkPieces {c : HealthCheck} {p : Bytes} (h : p ∈ checkPieces c) :
    p.length < 2 ^ 31 := by
  rw [checkPieces, mem_append, mem_append, mem_singleton, mem_singleton, Option.mem_toList,
    Option.map_eq_some_iff] at h
  obtain (rfl | ⟨msg, -, rfl⟩) | rfl := h
  · have hname := length_escaped c.name
    have hstatus : (bytes (if c.rc = 0 then "ok" else "fail")).length ≤ 4 := by
      split <;> decide +kernel
    have h1 : (bytes "\"").length = 1 := by decide +kernel
    have h2 : (bytes "\":\x7b\"status\":\"").length = 13 := by decide +kernel
    simp only [length_append]
    omega
  · have hmsg := length_escaped msg
    have h1 : (bytes "\"").length = 1 := by decide +kernel
    have h2 : (bytes ",\"message\":\"").length = 12 := by decide +kernel
    simp only [length_append]
    omega
  · decide +kernel

theorem length_livePieces (checks : List HealthCheck) : ∀ p ∈ livePieces checks, p.length < 2 ^ 31 := by
  intro p hp
  rw [livePieces, mem_append, mem_append, mem_singleton, mem_singleton] at hp
  obtain (rfl | hp) | rfl := hp
  · cases allHealthy checks <;> decide +kernel
  · obtain rfl | ⟨ps, hps, hp⟩ := Format.of_mem_separated hp
    · decide +kernel
    · obtain ⟨c, -, rfl⟩ := mem_map.mp hps
      exact length_checkPieces hp
  · decide +kernel

theorem length_corsPieces {items : List Bytes} (hlen : ∀ item ∈ items, item.length < 2 ^ 31) :
    ∀ p ∈ corsPieces items, p.length < 2 ^ 31 := by
  intro p hp
  obtain rfl | ⟨ps, hps, hp⟩ := Format.of_mem_separated hp
  · decide +kernel
  · obtain ⟨item, hitem, rfl⟩ := mem_map.mp hps
    rw [mem_singleton.mp hp]
    exact (takeWhile_sublist _).length_le.trans_lt (hlen item hitem)

theorem liveAnswer_too_large {checks : List HealthCheck} (hne : checks ≠ [])
    (hin : Inside liveBufSize (livePieces checks))
    (hlong : liveBufSize ≤ (livePieces checks).flatten.length) :
    (liveAnswer checks).map Prod.fst = some 500 := by
  rw [liveAnswer, if_neg hne, Format.foldlM_append_of_inside (by decide) (length_livePieces checks)
    hin, Option.map_some, if_pos hlong, Option.map_some]

/-- **When the text stays in its buffer.** The answer of the live path: no call of `snprintf`
is past the end of the buffer, and a text that does not fit is answered by 500, if and only if
all of the text in front of its last piece fits. The lists of a preflight answer stay in theirs
under the same condition. -/
theorem text_stays_inside_iff (checks : List HealthCheck) (cfg : CorsConfig)
    (hlen : ∀ item ∈ cfg.allowedMethods ++ cfg.allowedHeaders, item.length < 2 ^ 31) :
    (Inside liveBufSize (livePieces checks) ∧
      (checks ≠ [] → liveBufSize ≤ (livePieces checks).flatten.length →
        (liveAnswer checks).map Prod.fst = some 500) ↔
      (livePieces checks).dropLast.flatten.length ≤ liveBufSize) ∧
    (Inside corsBufSize (corsPieces cfg.allowedMethods) ↔
      (corsPieces cfg.allowedMethods).dropLast.flatten.length ≤ corsBufSize) ∧
    (Inside corsBufSize (corsPieces cfg.allowedHeaders) ↔
      (corsPieces cfg.allowedHeaders).dropLast.flatten.length ≤ corsBufSize) := by
  refine ⟨?_, ?_, ?_⟩
  · rw [← Format.inside_iff (by decide) (length_livePieces checks)]
    exact and_iff_left_of_imp fun hin hne hlong => liveAnswer_too_large hne hin hlong
  · exact Format.inside_iff (by decide) (length_corsPieces fun item h => hlen item (mem_append_left _ h))
  · exact Format.inside_iff (by decide) (length_corsPieces fun item h =>
      hlen item (mem_append_right _ h))

theorem text_stays_inside_short :
    Inside liveBufSize (livePieces [⟨bytes "db", 0, none⟩]) ∧
    Inside corsBufSize (corsPieces [bytes "GET", bytes "PUT"]) := by
  have h := text_stays_inside_iff [⟨bytes "db", 0, none⟩] ⟨[], [bytes "GET", bytes "PUT"], [], false, 0⟩
    (by decide +kernel)
  exact ⟨(h.1.mpr (by decide +kernel)).1, h.2.1.mpr (by decide +kernel)⟩

/-- Five checkers with names of 255 characters, and three allowed methods of 300: a call is
past the end of the buffer. -/
theorem text_leaves_buffer :
    ¬Inside liveBufSize (livePieces (List.replicate 5 ⟨List.replicate 255 97, 0, none⟩)) ∧
    ¬Inside corsBufSize (corsPieces (List.replicate 3 (List.replicate 300 65))) := by
  decide +kernel

end Iohttp
