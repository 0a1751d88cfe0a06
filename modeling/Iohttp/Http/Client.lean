/-
# A client that reads responses

How a client of RFC 9112 reads the response to a request whose method it
knows: the status line, the field lines, of which some may be folded, and the
body, whose end is found in the order of section 6.3. The client has asked for
no transfer coding, so `chunked` is the only one it takes. On a connection
that stays open a body that ends with the connection is never complete.
-/
import Iohttp.Http.Smuggling
import Iohttp.Http.HeaderLines

namespace Iohttp

open Lines (LineEnd)
open Pico List

/-! ### The head -/

variable {n status : ℕ} {name : Bytes} {α β : Type} {method : Method} {resp : Response}

theorem isBlank_of_mem_dec {c : UInt8} (h : c ∈ dec n) : isBlank c = false := by
  have := dec_digit h
  simp only [isBlank, Bool.or_eq_false_iff, beq_eq_false_iff_ne]
  constructor <;>
    · rintro rfl
      revert this
      decide

end Iohttp
