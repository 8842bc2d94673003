import MonkeyLang.Proofs.Evaluation.Hashes
import Mathlib.Algebra.Group.Nat.Defs
import Mathlib.Logic.ExistsUnique

/-!
# Near strings as keys

The digest of a string takes in its bytes one after the other. To take in a byte is a permutation of
the words of 64 bits, for the multiplier is odd; and from one word different bytes lead to different
words. So where two strings differ in one byte their digests part, and the bytes behind it, being the
same, never bring them together again.

* `HashKey.absorb` takes in a byte, `HashKey.DifferInOne` says which rows of bytes are near.
* `HashKey.fnv1a_ne` says that near rows have different digests.
* `near_strings_are_separate_keys` is the result, for digests, literals and lookups.
-/

namespace MonkeyLang

namespace HashKey

/-! ## One byte -/

/-- A digest takes in one more byte. -/
def absorb (h : UInt64) (byte : UInt8) : UInt64 := (h ^^^ byte.toUInt64) * 0x100000001b3

theorem fnv1a_eq (bytes : List UInt8) : fnv1a bytes = bytes.foldl absorb 0xcbf29ce484222325 := rfl

/-- The multiplier is odd, so it has an inverse among the words. -/
theorem multiplier_inverse : (0x100000001b3 : UInt64) * 0xce965057aff6957b = 1 := by decide

theorem mul_multiplier_injective : Function.Injective fun h : UInt64 => h * 0x100000001b3 := by
  intro h h' (same : h * 0x100000001b3 = h' * 0x100000001b3)
  calc h = h * 0x100000001b3 * 0xce965057aff6957b := by
        rw [UInt64.mul_assoc, multiplier_inverse, UInt64.mul_one]
    _ = h' * 0x100000001b3 * 0xce965057aff6957b := by rw [same]
    _ = h' := by rw [UInt64.mul_assoc, multiplier_inverse, UInt64.mul_one]

/-- The same byte leads from different digests to different digests. -/
theorem absorb_injective_left (byte : UInt8) : Function.Injective (absorb · byte) :=
  fun _ _ same => (UInt64.xor_left_inj _).1 (mul_multiplier_injective same)

/-- Different bytes lead from the same digest to different digests. -/
theorem absorb_injective_right (h : UInt64) : Function.Injective (absorb h) :=
  fun _ _ same => UInt8.toUInt64_inj.1 ((UInt64.xor_right_inj _).1 (mul_multiplier_injective same))

theorem foldl_absorb_injective (bytes : List UInt8) : Function.Injective (bytes.foldl absorb) := by
  induction bytes with
  | nil => exact fun _ _ same => same
  | cons byte bytes ih => exact fun _ _ same => absorb_injective_left byte (ih same)

/-! ## Rows of bytes -/

/-- The digest as a number: a product is cut to its last 64 bits. -/
theorem toNat_fnv1a (bytes : List UInt8) :
    (fnv1a bytes).toNat =
      bytes.foldl (fun h byte => ((h ^^^ byte.toNat) * 0x100000001b3) &&& 0xffffffffffffffff)
        0xcbf29ce484222325 := by
  rw [fnv1a_eq]
  refine (List.foldl_hom UInt64.toNat fun h byte => ?_).symm
  rw [absorb, UInt64.toNat_mul, UInt64.toNat_xor, UInt8.toNat_toUInt64]
  exact Nat.and_two_pow_sub_one_eq_mod _ 64

/-- Two rows of bytes that are the same but for one byte. -/
def DifferInOne (a b : List UInt8) : Prop :=
  ∃ before x y after, x ≠ y ∧ a = before ++ x :: after ∧ b = before ++ y :: after

/-- These are the rows of one length that differ in exactly one place. -/
theorem differInOne_of_existsUnique {a b : List UInt8} (length : a.length = b.length)
    (one : ∃! i : Nat, a[i]? ≠ b[i]?) : DifferInOne a b := by
  obtain ⟨i, differ, only⟩ := one
  have same (j : Nat) (other : j ≠ i) : a[j]? = b[j]? :=
    Classical.byContradiction fun differ' => other (only j differ')
  have inside : i < a.length := by
    refine Nat.lt_of_not_le fun beyond => differ ?_
    rw [List.getElem?_eq_none beyond, List.getElem?_eq_none (length ▸ beyond)]
  have inside' : i < b.length := length ▸ inside
  refine ⟨a.take i, a[i], b[i], a.drop (i + 1), ?_, ?_, ?_⟩
  · intro equal
    rw [List.getElem?_eq_getElem inside, List.getElem?_eq_getElem inside', equal] at differ
    exact differ rfl
  · rw [← List.drop_eq_getElem_cons inside, List.take_append_drop]
  · have before : a.take i = b.take i := by
      refine List.ext_getElem? fun j => ?_
      rw [List.getElem?_take, List.getElem?_take]
      split
      · next earlier => exact same j (Nat.ne_of_lt earlier)
      · rfl
    have after : a.drop (i + 1) = b.drop (i + 1) := by
      refine List.ext_getElem? fun j => ?_
      rw [List.getElem?_drop, List.getElem?_drop]
      exact same _ (by omega)
    rw [before, after, ← List.drop_eq_getElem_cons inside', List.take_append_drop]

/-- Near rows of bytes have different digests. -/
theorem fnv1a_ne {a b : List UInt8} (near : DifferInOne a b) : fnv1a a ≠ fnv1a b := by
  obtain ⟨before, x, y, after, differ, rfl, rfl⟩ := near
  intro same
  rw [fnv1a_eq, fnv1a_eq, List.foldl_append, List.foldl_append, List.foldl_cons,
    List.foldl_cons] at same
  exact differ (absorb_injective_right _ (foldl_absorb_injective after same))

/-- Near strings have different keys. -/
theorem string_ne {a b : List UInt8} (near : DifferInOne a b) :
    string (fnv1a a) ≠ string (fnv1a b) :=
  fun same => fnv1a_ne near (string.inj same)

end HashKey

/-! ## Tables -/

namespace Assoc

variable {κ α : Type} [DecidableEq κ] {given table : List (κ × α)} {key : κ} {value : α}

/-- A key that was given has an entry, the last one that was given for it. -/
theorem HoldsLast.exists_entry (h : HoldsLast given table) (mem : (key, value) ∈ given) :
    ∃ last, (key, last) ∈ table ∧ get? key table = some last ∧ IsLast given (key, last) := by
  rcases h.get?_cases key with ⟨last, found, isLast⟩ | ⟨-, fresh⟩
  · exact ⟨last, mem_of_get? found, found, isLast⟩
  · exact absurd (List.mem_map.2 ⟨_, mem, rfl⟩) fresh

end Assoc

theorem Operator.entry_of_get? {table : Assoc HashKey (Value × Value)} {digest : HashKey}
    {entry : Value × Value} (found : table.get? digest = some entry) :
    Operator.entry table digest = entry.2 := by
  rw [Operator.entry, found]

/-- A digest is a number below `2 ^ 64`: the one that the unbounded product comes to when it is cut to
64 bits after each byte. Rows of bytes that are the same but for one byte have different digests; these
are the rows of one length that differ in exactly one place. So two strings whose UTF-8 forms are such
rows are different keys: where a hash literal has pairs with both of them, its table has an entry for
each, with the last pair of the digest of that string, and an index expression with one of the
strings gives the value of its own entry, whatever stands in the other one. -/
theorem near_strings_are_separate_keys :
    (∀ bytes : List UInt8,
      (fnv1a bytes).toNat =
        bytes.foldl (fun h byte => ((h ^^^ byte.toNat) * 0x100000001b3) &&& 0xffffffffffffffff)
          0xcbf29ce484222325 ∧
      (fnv1a bytes).toNat < 2 ^ 64) ∧
    (∀ (before after : List UInt8) (x y : UInt8), x ≠ y →
      fnv1a (before ++ x :: after) ≠ fnv1a (before ++ y :: after)) ∧
    (∀ a b : List UInt8, a.length = b.length → (∃! i : Nat, a[i]? ≠ b[i]?) → fnv1a a ≠ fnv1a b) ∧
    ∀ (s t : Text) (a b : List UInt8), s.utf8? = some a → t.utf8? = some b →
      HashKey.DifferInOne a b →
      (Value.str s).hashKey? ≠ (Value.str t).hashKey? ∧
      ∀ (depth : Nat) (scope : ScopeId) (tok : Option Token) (pairs : List (Node × Node))
        (found : List (HashKey × Value × Value)) (v w : Value) (m m₁ : Machine),
        Eval.Evaluates (evaluate depth · scope) pairs m found m₁ →
        (.string (fnv1a a), .str s, v) ∈ found → (.string (fnv1a b), .str t, w) ∈ found →
        ∃ table entry entry',
          (evaluate (depth + 1) (.hash tok pairs) scope).run m =
            .ok (.hash m₁.nextSerial table) { m₁ with nextSerial := m₁.nextSerial + 1 } ∧
          (.string (fnv1a a), entry) ∈ table ∧ (.string (fnv1a b), entry') ∈ table ∧
          Assoc.IsLast found (.string (fnv1a a), entry) ∧
          Assoc.IsLast found (.string (fnv1a b), entry') ∧
          ∀ serial : Nat, Eval.IndexGives (.hash serial table) (.str s) (.ok entry.2) ∧
            Eval.IndexGives (.hash serial table) (.str t) (.ok entry'.2) := by
  refine ⟨fun bytes => ⟨HashKey.toNat_fnv1a bytes, (fnv1a bytes).toNat_lt⟩,
    fun before after x y differ => HashKey.fnv1a_ne ⟨before, x, y, after, differ, rfl, rfl⟩,
    fun a b length one => HashKey.fnv1a_ne (HashKey.differInOne_of_existsUnique length one),
    fun s t a b encoded encoded' near => ?_⟩
  have hashable := Value.hashKey?_str.2 ⟨a, encoded, rfl⟩
  have hashable' := Value.hashKey?_str.2 ⟨b, encoded', rfl⟩
  refine ⟨?_, ?_⟩
  · rw [hashable, hashable']
    exact fun same => HashKey.string_ne near (Option.some.inj same)
  intro depth scope tok pairs found v w m m₁ evaluated given given'
  have holds := Assoc.holdsLast_ofList found
  obtain ⟨entry, mem, reads, last⟩ := holds.exists_entry given
  obtain ⟨entry', mem', reads', last'⟩ := holds.exists_entry given'
  have gives {key : Value} {digest : HashKey} {entry : Value × Value}
      (hashable : key.hashKey? = some digest)
      (here : (Assoc.ofList found).get? digest = some entry) (serial : Nat) :
      Eval.IndexGives (.hash serial (Assoc.ofList found)) key (.ok entry.2) := by
    have gives := Eval.indexGives_entry serial (Assoc.ofList found) hashable
    rwa [Operator.entry_of_get? here] at gives
  exact ⟨_, entry, entry', run_bind_of_ok evaluated.run_entries, mem, mem', last, last',
    fun serial => ⟨gives hashable reads serial, gives hashable' reads' serial⟩⟩

/-- A literal with the keys `"a"` and `"b"`. -/
theorem near_strings_are_separate_keys_letters :
    let pairs : List (Node × Node) :=
      [(.str none "a", .int none 1), (.str none "b", .int none 2), (.str none "a", .int none 3)]
    let found : List (HashKey × Value × Value) := [(.string (fnv1a [97]), .str "a", .int 1),
      (.string (fnv1a [98]), .str "b", .int 2), (.string (fnv1a [97]), .str "a", .int 3)]
    Text.utf8? "a" = some [97] ∧ Text.utf8? "b" = some [98] ∧ HashKey.DifferInOne [97] [98] ∧
      Eval.Evaluates (evaluate 1 · 0) pairs .empty found .empty ∧
      fnv1a [97, 120] ≠ fnv1a [98, 120] ∧
      (Value.str "a").hashKey? ≠ (Value.str "b").hashKey? ∧
      ∃ table entry entry',
        (evaluate 2 (.hash none pairs) 0).run .empty =
          .ok (.hash 0 table) { Machine.empty with nextSerial := 1 } ∧
        (.string (fnv1a [97]), entry) ∈ table ∧ (.string (fnv1a [98]), entry') ∈ table := by
  intro pairs found
  have near : HashKey.DifferInOne [97] [98] := ⟨[], 97, 98, [], by decide, rfl, rfl⟩
  have a : Text.utf8? "a" = some [97] := by decide
  have b : Text.utf8? "b" = some [98] := by decide
  have keyA : (Value.str "a").hashKey? = some (.string (fnv1a [97])) :=
    Value.hashKey?_str.2 ⟨_, a, rfl⟩
  have keyB : (Value.str "b").hashKey? = some (.string (fnv1a [98])) :=
    Value.hashKey?_str.2 ⟨_, b, rfl⟩
  have evaluated : Eval.Evaluates (evaluate 1 · 0) pairs .empty found .empty :=
    .cons rfl keyA rfl (.cons rfl keyB rfl (.cons rfl keyA rfl .nil))
  obtain ⟨-, apart, -, keys⟩ := near_strings_are_separate_keys
  obtain ⟨different, literal⟩ := keys "a" "b" _ _ a b near
  obtain ⟨table, entry, entry', made, mem, mem', -⟩ := literal 1 0 none pairs found (.int 1) (.int 2)
    .empty .empty evaluated (.head _) (.tail _ (.head _))
  exact ⟨a, b, near, evaluated, apart [] [120] 97 98 (by decide), different, table, entry, entry', made,
    mem, mem'⟩

end MonkeyLang
