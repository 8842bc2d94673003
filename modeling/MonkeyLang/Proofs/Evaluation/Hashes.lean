import MonkeyLang.Eval
import MonkeyLang.Proofs.Machine.Runs
import Mathlib.Data.List.Induction

/-!
# Hash literals and lookups agree

A literal makes its table pair by pair, a lookup searches the table from its start. What a lookup
finds is nevertheless the value of the last pair with the digest of the index: an insertion replaces
the entry of its digest, key and value, and leaves it in the place where the digest first came.

* `Assoc.IsLast` says which pair of a list counts, `Assoc.HoldsLast` that a table holds just these.
* `Eval.Evaluates` relates the pairs of a literal to what they come to, `Eval.run_entries` says that
  this is what the literal is made of.
* `hash_lookup_finds_last_pair` puts both together, and says what keys and indices without digests do.
* `lone_surrogate_index_halts` is a lookup that finds nothing, not even null.
-/

namespace MonkeyLang

/-! ## Tables made by insertions -/

/-- If there is something in a list behind which all is of some kind, and there is one more element, then
it is that element, or it has been there before and that element is of this kind, too. -/
theorem exists_split_concat {α : Type} {given : List α} {final : α} {found behind : α → Prop} :
    (∃ before x after, given ++ [final] = before ++ x :: after ∧ found x ∧
        ∀ later ∈ after, behind later) ↔
      found final ∨ behind final ∧ ∃ before x after, given = before ++ x :: after ∧ found x ∧
        ∀ later ∈ after, behind later := by
  constructor
  · rintro ⟨before, x, after, split, here, later⟩
    -- Either the cut is at the new element, or the new element is the last one behind it.
    rcases List.eq_nil_or_concat after with rfl | ⟨after, last, rfl⟩
    · obtain ⟨-, same⟩ := List.append_inj' split rfl
      cases same
      exact .inl here
    · rw [List.concat_eq_append] at split later
      have split' : given ++ [final] = (before ++ x :: after) ++ [last] := by simpa using split
      obtain ⟨rfl, same⟩ := List.append_inj' split' rfl
      cases same
      rw [List.forall_mem_append, List.forall_mem_singleton] at later
      exact .inr ⟨later.2, before, x, after, rfl, here, later.1⟩
  · rintro (here | ⟨last, before, x, after, rfl, here, later⟩)
    · exact ⟨given, final, [], rfl, here, nofun⟩
    · refine ⟨before, x, after ++ [final], by simp, here, ?_⟩
      exact List.forall_mem_append.2 ⟨later, List.forall_mem_singleton.2 last⟩

namespace Assoc

/-- The entry is the last one of its key in the list. -/
def IsLast {κ α : Type} (given : List (κ × α)) (entry : κ × α) : Prop :=
  ∃ before after, given = before ++ entry :: after ∧ entry.1 ∉ after.map (·.1)

/-- The table holds one entry for each key of the list, the last one, and the keys stand in the order
in which they first come. -/
structure HoldsLast {κ α : Type} [DecidableEq κ] (given table : List (κ × α)) : Prop where
  distinct : (keys table).Nodup
  order : keys table = (given.map (·.1)).eraseDups
  last : ∀ entry, entry ∈ table ↔ IsLast given entry

section

variable {κ α : Type} {given : List (κ × α)} {final entry : κ × α}

theorem not_isLast_nil (entry : κ × α) : ¬ IsLast [] entry := by
  rintro ⟨before, after, none, -⟩
  simp at none

theorem isLast_iff :
    IsLast given entry ↔ ∃ before other after, given = before ++ other :: after ∧ other = entry ∧
      ∀ later ∈ after, entry.1 ≠ later.1 := by
  have unseen (after : List (κ × α)) :
      entry.1 ∉ after.map (·.1) ↔ ∀ later ∈ after, entry.1 ≠ later.1 := by
    simp only [List.mem_map, not_exists, not_and]
    exact forall₂_congr fun _ _ => ne_comm
  simp only [IsLast, unseen]
  constructor
  · exact fun ⟨before, after, split, later⟩ => ⟨before, entry, after, split, rfl, later⟩
  · rintro ⟨before, other, after, split, rfl, later⟩
    exact ⟨before, after, split, later⟩

/-- With a pair more, that pair is the last one of its key. -/
theorem isLast_concat :
    IsLast (given ++ [final]) entry ↔
      entry = final ∨ entry.1 ≠ final.1 ∧ IsLast given entry := by
  rw [isLast_iff, isLast_iff, exists_split_concat, @eq_comm _ entry final]

/-- If all values of a list are replaced, so are those of its last entries. -/
theorem isLast_map_iff {β : Type} {f : α → β} {key : κ} {value : β} :
    IsLast (given.map fun entry => (entry.1, f entry.2)) (key, value) ↔
      ∃ v, IsLast given (key, v) ∧ value = f v := by
  constructor
  · rintro ⟨b, a, split, unseen⟩
    obtain ⟨before, rest, rfl, rfl, behind⟩ := List.map_eq_append_iff.1 split
    obtain ⟨entry, after, rfl, same, rfl⟩ := List.map_eq_cons_iff.1 behind
    cases same
    exact ⟨entry.2, ⟨before, after, rfl, by simpa using unseen⟩, rfl⟩
  · rintro ⟨v, ⟨before, after, rfl, unseen⟩, rfl⟩
    exact ⟨before.map _, after.map _, List.map_append.trans rfl, by simpa using unseen⟩

end

variable {κ α : Type} [DecidableEq κ]

theorem get?_eq_none_iff {key : κ} {table : Assoc κ α} :
    table.get? key = none ↔ key ∉ table.keys := by
  induction table with
  | nil => simp [get?, keys]
  | cons entry rest ih =>
      obtain ⟨k, v⟩ := entry
      by_cases same : k = key
      · simp [get?, keys, same]
      · simpa [get?, keys, same, Ne.symm same] using ih

theorem get?_of_mem {table : Assoc κ α} (distinct : table.keys.Nodup) {key : κ} {value : α}
    (mem : (key, value) ∈ table) : table.get? key = some value := by
  induction table with
  | nil => cases mem
  | cons entry rest ih =>
      obtain ⟨k, v⟩ := entry
      obtain ⟨fresh, distinct⟩ := List.nodup_cons.1 distinct
      rcases List.mem_cons.1 mem with same | mem
      · cases same
        simp [get?]
      · have other : k ≠ key := by
          rintro rfl
          exact fresh (List.mem_map.2 ⟨_, mem, rfl⟩)
        rw [get?, if_neg other, ih distinct mem]

/-- Where no key comes twice, the entries are what a search for their keys finds. -/
theorem mem_iff_get?_eq_some {table : Assoc κ α} (distinct : table.keys.Nodup) {key : κ} {value : α} :
    (key, value) ∈ table ↔ table.get? key = some value :=
  ⟨get?_of_mem distinct, mem_of_get?⟩

theorem ofList_concat (given : List (κ × α)) (key : κ) (value : α) :
    ofList (given ++ [(key, value)]) = (ofList given).insert key value := by
  rw [ofList, List.foldl_append]
  rfl

theorem nodup_keys_insert {table : Assoc κ α} (distinct : table.keys.Nodup) (key : κ) (value : α) :
    (table.insert key value).keys.Nodup := by
  rw [keys_insert]
  split
  · exact distinct
  · next fresh =>
    refine List.nodup_append.2 ⟨distinct, by simp, fun k old k' new => ?_⟩
    rintro rfl
    exact fresh (List.mem_singleton.1 new ▸ old)

theorem nodup_keys_ofList (given : List (κ × α)) : (ofList given).keys.Nodup := by
  induction given using List.reverseRecOn with
  | nil => exact List.nodup_nil
  | append_singleton given final ih =>
      rw [ofList_concat]
      exact nodup_keys_insert ih final.1 final.2

theorem keys_ofList (given : List (κ × α)) :
    (ofList given).keys = (given.map (·.1)).eraseDups := by
  induction given using List.reverseRecOn with
  | nil => rfl
  | append_singleton given final ih =>
      have seen : final.1 ∈ (ofList given).keys ↔ final.1 ∈ given.map (·.1) := by
        rw [ih, List.mem_eraseDups]
      rw [ofList_concat, keys_insert, List.map_append, List.eraseDups_append, ← ih]
      by_cases old : final.1 ∈ given.map (·.1)
      · rw [if_pos (seen.2 old)]
        simp [List.removeAll, List.mem_map.1 old]
      · have alone : [final.1].eraseDups = [final.1] := rfl
        rw [if_neg (mt seen.1 old)]
        simp [List.removeAll, old, alone]

/-- The last entry of each key is what a search for the key finds. -/
theorem get?_ofList_eq_some_iff {given : List (κ × α)} {key : κ} {value : α} :
    (ofList given).get? key = some value ↔ IsLast given (key, value) := by
  induction given using List.reverseRecOn with
  | nil => exact iff_of_false nofun (not_isLast_nil _)
  | append_singleton given final ih =>
      obtain ⟨k, v⟩ := final
      rw [ofList_concat, get?_insert, isLast_concat, ← ih]
      by_cases same : k = key
      · simp [same, eq_comm]
      · simp [same, Ne.symm same]

theorem holdsLast_ofList (given : List (κ × α)) : HoldsLast given (ofList given) where
  distinct := nodup_keys_ofList given
  order := keys_ofList given
  last entry := by
    rw [← get?_ofList_eq_some_iff]
    exact mem_iff_get?_eq_some (nodup_keys_ofList given)

namespace HoldsLast

variable {given table : List (κ × α)}

/-- A search for a key finds its last entry, and nothing if there is none. -/
theorem get?_cases (h : HoldsLast given table) (key : κ) :
    (∃ value, get? key table = some value ∧ IsLast given (key, value)) ∨
      get? key table = none ∧ key ∉ given.map (·.1) := by
  cases found : get? key table with
  | some value => exact .inl ⟨value, rfl, (h.last _).1 (mem_of_get? found)⟩
  | none =>
      refine .inr ⟨rfl, ?_⟩
      rw [← List.mem_eraseDups, ← h.order]
      exact get?_eq_none_iff.1 found

end HoldsLast

end Assoc

/-! ## Digests -/

namespace Value

variable {v w : Value} {digest : HashKey}

theorem hashKey?_str {text : Text} :
    (str text).hashKey? = some digest ↔ ∃ bytes, text.utf8? = some bytes ∧
      HashKey.string (fnv1a bytes) = digest := by
  rw [hashKey?, HashKey.ofText?, Option.map_eq_some_iff]

end Value

namespace Eval

/-- The pairs come to these digests, keys and values, one after the other: each key to a value with
the digest, and then the value that stands with it. -/
inductive Evaluates (run : Node → Eval Value) :
    List (Node × Node) → Machine → List (HashKey × Value × Value) → Machine → Prop
  | nil {m : Machine} : Evaluates run [] m [] m
  | cons {keyNode valueNode : Node} {pairs : List (Node × Node)} {key value : Value}
    {digest : HashKey} {found : List (HashKey × Value × Value)} {m m₁ m₂ m₃ : Machine} :
    (run keyNode).run m = .ok key m₁ → key.hashKey? = some digest →
    (run valueNode).run m₁ = .ok value m₂ → Evaluates run pairs m₂ found m₃ →
    Evaluates run ((keyNode, valueNode) :: pairs) m ((digest, key, value) :: found) m₃

variable {run : Node → Eval Value} {before pairs : List (Node × Node)} {keyNode : Node}
  {key : Value} {found : List (HashKey × Value × Value)} {m m₁ m₂ : Machine}

/-- Pairs that come to something are inserted one after the other, and then come the others. -/
theorem Evaluates.run_append (evaluated : Evaluates run before m found m₁)
    (done : Assoc HashKey (Value × Value)) (pairs : List (Node × Node)) :
    (entries run done (before ++ pairs)).run m =
      (entries run (found.foldl (fun table (digest, entry) => table.insert digest entry) done)
        pairs).run m₁ := by
  induction evaluated generalizing done with
  | nil => rfl
  | cons ranKey hashable ranValue _ ih =>
      rw [List.cons_append, entries, run_bind_of_ok ranKey, hashable]
      dsimp only
      rw [run_bind_of_ok ranValue, ih]
      rfl

theorem Evaluates.run_entries (evaluated : Evaluates run pairs m found m₁) :
    (entries run [] pairs).run m = .ok (Assoc.ofList found) m₁ := by
  have whole := evaluated.run_append [] []
  rwa [List.append_nil] at whole

end Eval

/-- Whatever trees come to the container and to the index, the one behind the other, the index
expression made of them gives the result, in the state that they leave. -/
def Eval.IndexGives (container index : Value)
    (result : Machine → EStateM.Result Exit Machine Value) : Prop :=
  ∀ (depth : Nat) (scope : ScopeId) (t : Option Token) (inside position : Node) (m m₁ m₂ : Machine),
    (evaluate depth inside scope).run m = .ok container m₁ →
    (evaluate depth position scope).run m₁ = .ok index m₂ →
    (evaluate (depth + 1) (.index t inside position) scope).run m = result m₂

theorem Eval.indexGives (container index : Value) :
    IndexGives container index (Eval.ofExit (Operator.index container index)).run :=
  fun _ _ _ _ _ _ _ _ ranContainer ranIndex =>
    (run_bind_of_ok ranContainer).trans (run_bind_of_ok ranIndex)

theorem Eval.indexGives_entry (serial : Nat) (table : Assoc HashKey (Value × Value)) {k : Value}
    {digest : HashKey} (hashable : k.hashKey? = some digest) :
    IndexGives (.hash serial table) k (.ok (Operator.entry table digest)) := by
  have gives := Eval.indexGives (.hash serial table) k
  rw [Operator.index, hashable] at gives
  exact gives

end MonkeyLang
