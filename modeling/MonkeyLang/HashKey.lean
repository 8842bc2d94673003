import MonkeyLang.Kind
import MonkeyLang.Text

/-!
# Keys of hashes

A hash knows its keys by digest only: an integer by itself, a truth value by 0 or 1, and a string
by the FNV-1a hash, in 64 bits, of its UTF-8 form.
-/

namespace MonkeyLang

/-- The FNV-1a hash of 64 bits. -/
def fnv1a (bytes : List UInt8) : UInt64 :=
  bytes.foldl (fun h byte => (h ^^^ byte.toUInt64) * 0x100000001b3) 0xcbf29ce484222325

/-- The digest of a value that may be a key. Digests of different kinds are different. -/
inductive HashKey where
  | integer (value : Int)
  | boolean (value : Bool)
  | string (digest : UInt64)
deriving DecidableEq, Repr

namespace HashKey

/-- The key of a text, if the text has a UTF-8 form. -/
def ofText? (t : Text) : Option HashKey := t.utf8?.map fun bytes => string (fnv1a bytes)

/-- The kind of the values that have the key. -/
def kind : HashKey → Kind
  | integer _ => .integer
  | boolean _ => .boolean
  | string _ => .string

/-- The number a key is known by among those of its kind. -/
def digest : HashKey → Int
  | integer value => value
  | boolean value => if value then 1 else 0
  | string digest => digest.toNat

end HashKey

end MonkeyLang
