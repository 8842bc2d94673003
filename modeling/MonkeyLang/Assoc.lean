/-!
# Tables in order of insertion

A table is a list of keys with their values, in the order in which the keys first came. A key
that gets a new value keeps its place.

* `Assoc.get?_insert`: after an insertion the key has the new value, every other key its own.
* `Assoc.get?_erase`: after a removal the key has no value, every other key its own.
* `Assoc.keys_insert`: an insertion adds a key that is new at the end, and no other.
-/

namespace MonkeyLang

/-- A table in order of insertion. -/
abbrev Assoc (κ α : Type) := List (κ × α)

namespace Assoc

variable {κ α : Type} [DecidableEq κ]

/-- The value of a key. -/
def get? (key : κ) : Assoc κ α → Option α
  | [] => none
  | (k, v) :: rest => if k = key then some v else get? key rest

/-- Give a key a value. -/
def insert (key : κ) (value : α) : Assoc κ α → Assoc κ α
  | [] => [(key, value)]
  | (k, v) :: rest => if k = key then (key, value) :: rest else (k, v) :: insert key value rest

/-- Remove a key. -/
def erase (key : κ) (table : Assoc κ α) : Assoc κ α := table.filter (·.1 ≠ key)

/-- The keys in order. -/
def keys (table : Assoc κ α) : List κ := table.map (·.1)

/-- The table that results from insertions into the empty one, one after the other. -/
def ofList (entries : List (κ × α)) : Assoc κ α :=
  entries.foldl (fun table (key, value) => table.insert key value) []

theorem get?_insert (key other : κ) (value : α) (table : Assoc κ α) :
    (table.insert key value).get? other = if key = other then some value else table.get? other := by
  induction table with
  | nil => simp [insert, get?]
  | cons entry rest ih =>
    obtain ⟨k, v⟩ := entry
    by_cases hk : k = key
    · subst hk
      by_cases ho : k = other <;> simp [insert, get?, ho]
    · by_cases ho : k = other
      · subst ho
        simp [insert, get?, hk, Ne.symm hk]
      · simp [insert, get?, hk, ho, ih]

theorem get?_erase (key other : κ) (table : Assoc κ α) :
    (table.erase key).get? other = if key = other then none else table.get? other := by
  induction table with
  | nil => simp [erase, get?]
  | cons entry rest ih =>
    obtain ⟨k, v⟩ := entry
    rw [erase] at ih ⊢
    by_cases hk : k = key
    · subst hk
      rw [List.filter_cons_of_neg (by simp), ih, get?]
      split <;> rfl
    · rw [List.filter_cons_of_pos (by simpa using hk), get?, get?, ih]
      by_cases ho : k = other
      · subst ho
        rw [if_pos rfl, if_neg (Ne.symm hk), if_pos rfl]
      · rw [if_neg ho, if_neg ho]

theorem keys_insert (key : κ) (value : α) (table : Assoc κ α) :
    (table.insert key value).keys =
      if key ∈ table.keys then table.keys else table.keys ++ [key] := by
  induction table with
  | nil => simp [insert, keys]
  | cons entry rest ih =>
    obtain ⟨k, v⟩ := entry
    by_cases hk : k = key
    · simp [insert, keys, hk]
    · simp only [keys] at ih
      by_cases hr : key ∈ rest.map (·.1) <;> simp_all [insert, keys, Ne.symm hk]

theorem mem_of_get? {table : Assoc κ α} {key : κ} {value : α} (h : table.get? key = some value) :
    (key, value) ∈ table := by
  induction table with
  | nil => cases h
  | cons entry rest ih =>
    obtain ⟨k, v⟩ := entry
    unfold get? at h
    split at h
    · next hk =>
      cases h
      subst hk
      exact .head _
    · exact .tail _ (ih h)

theorem mem_insert {table : Assoc κ α} {key : κ} {value : α} {entry : κ × α}
    (h : entry ∈ table.insert key value) : entry ∈ table ∨ entry = (key, value) := by
  induction table with
  | nil => exact .inr (List.mem_singleton.1 h)
  | cons first rest ih =>
    obtain ⟨k, v⟩ := first
    unfold insert at h
    split at h
    · rcases List.mem_cons.1 h with rfl | old
      · exact .inr rfl
      · exact .inl (.tail _ old)
    · rcases List.mem_cons.1 h with rfl | later
      · exact .inl (.head _)
      · exact (ih later).imp (.tail _) id

/-- A table made by insertions holds nothing but what was inserted. -/
theorem mem_ofList {entries : List (κ × α)} {entry : κ × α} (h : entry ∈ ofList entries) :
    entry ∈ entries := by
  suffices general : ∀ (later : List (κ × α)) (table : Assoc κ α),
      entry ∈ later.foldl (fun table (key, value) => table.insert key value) table →
        entry ∈ table ∨ entry ∈ later from
    (general entries [] h).resolve_left (fun none => nomatch none)
  intro later
  induction later with
  | nil => exact fun _ mem => .inl mem
  | cons first later ih =>
    intro table mem
    rcases ih _ mem with old | new
    · rcases mem_insert old with older | rfl
      · exact .inl older
      · exact .inr (.head _)
    · exact .inr (.tail _ new)

end Assoc

end MonkeyLang
