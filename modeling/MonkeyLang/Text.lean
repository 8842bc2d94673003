/-!
# Texts

A text is a row of code points. They are characters, and halves of surrogate pairs that stand by
themselves, as the escapes of a request can name them. A text with such a half in it has no UTF-8
form.

* `CodePoint` is a code point; it belongs to a class of characters if it is one of them.
* `Text.ofString` is a string of characters as a text; where a text is wanted a string may stand.
* `Text.string?` is the way back, for texts that have a UTF-8 form.
-/

namespace MonkeyLang

/-- A code point. -/
inductive CodePoint where
  | char (c : Char)
  /-- A half of a surrogate pair that stands by itself; they count from the first one. -/
  | surrogate (number : Fin 0x800)
deriving DecidableEq, Repr

namespace CodePoint

instance : Coe Char CodePoint := ⟨char⟩

/-- The number of a code point. -/
def toNat : CodePoint → Nat
  | char c => c.toNat
  | surrogate number => 0xd800 + number

/-- The code point of a number below 0x110000. -/
def ofNat (n : Nat) : CodePoint :=
  if h : 0xd800 ≤ n ∧ n < 0xe000 then surrogate ⟨n - 0xd800, by omega⟩ else char (Char.ofNat n)

/-- The character, if the code point is one. -/
def char? : CodePoint → Option Char
  | char c => some c
  | surrogate _ => none

/-- Is the code point a letter of ASCII? -/
def isAlpha : CodePoint → Bool
  | char c => c.isAlpha
  | surrogate _ => false

/-- Is the code point a digit of ASCII? -/
def isDigit : CodePoint → Bool
  | char c => c.isDigit
  | surrogate _ => false

/-- Is the code point a letter or a digit of ASCII? -/
def isAlphanum (c : CodePoint) : Bool := c.isAlpha || c.isDigit

theorem ofNat_toNat (c : CodePoint) : ofNat c.toNat = c := by
  cases c with
  | char d =>
      have valid : ¬ (0xd800 ≤ d.toNat ∧ d.toNat < 0xe000) := by
        have := d.valid
        simp only [UInt32.isValidChar, Nat.isValidChar, Char.toNat] at this ⊢
        omega
      rw [toNat, ofNat, dif_neg valid, Char.ofNat_toNat]
  | surrogate number =>
      have valid : 0xd800 ≤ 0xd800 + number.val ∧ 0xd800 + number.val < 0xe000 := by omega
      rw [toNat, ofNat, dif_pos valid]
      simp only [Nat.add_sub_cancel_left]

theorem exists_char_of_isDigit {c : CodePoint} (h : c.isDigit) : ∃ d : Char, c = d ∧ d.isDigit := by
  cases c with
  | char d => exact ⟨d, rfl, h⟩
  | surrogate number => cases h

end CodePoint

/-- A text. -/
structure Text where
  ofList ::
  toList : List CodePoint
deriving DecidableEq, Repr

namespace Text

/-- A string of characters as a text. -/
def ofString (s : String) : Text := ⟨s.toList.map .char⟩

instance : Coe String Text := ⟨ofString⟩

instance : Inhabited Text := ⟨""⟩

/-- One text behind another. -/
def append (s t : Text) : Text := ⟨s.toList ++ t.toList⟩

instance : Append Text := ⟨append⟩

/-- The number of code points. -/
def length (t : Text) : Nat := t.toList.length

/-- Is there nothing? -/
def isEmpty (t : Text) : Bool := t.toList.isEmpty

/-- Texts one behind the other. -/
def join (texts : List Text) : Text := ⟨texts.flatMap toList⟩

/-- Texts with another one between them. -/
def intercalate (between : Text) : List Text → Text
  | [] => ""
  | [t] => t
  | t :: texts => t ++ between ++ intercalate between texts

/-- The string of the characters, if the text holds no others. -/
def string? (t : Text) : Option String := (t.toList.mapM CodePoint.char?).map String.ofList

/-- The characters of a text. -/
def chars (t : Text) : List Char := t.toList.filterMap CodePoint.char?

/-- The UTF-8 form of a text, if there is one. -/
def utf8? (t : Text) : Option (List UInt8) := t.string?.map fun s => s.toUTF8.data.toList

@[simp] theorem toList_ofString (s : String) : (ofString s).toList = s.toList.map .char := rfl

@[simp] theorem ofList_toList (t : Text) : ofList t.toList = t := rfl

@[simp] theorem toList_ofList {cs : List CodePoint} : (ofList cs).toList = cs := rfl

@[simp] theorem toList_append (s t : Text) : (s ++ t).toList = s.toList ++ t.toList := rfl

theorem toList_inj {s t : Text} : s.toList = t.toList ↔ s = t :=
  ⟨fun h => congrArg ofList h, congrArg toList⟩

@[simp] theorem ofString_inj {s t : String} : ofString s = ofString t ↔ s = t := by
  refine ⟨fun h => ?_, congrArg ofString⟩
  have same := congrArg toList h
  rw [toList_ofString, toList_ofString, List.map_inj_right fun _ _ => CodePoint.char.inj] at same
  exact String.toList_inj.1 same

@[simp] theorem intercalate_singleton (between t : Text) : intercalate between [t] = t := rfl

theorem intercalate_cons_cons (between t u : Text) (texts : List Text) :
    intercalate between (t :: u :: texts) = t ++ between ++ intercalate between (u :: texts) := rfl

@[simp] theorem join_nil : join [] = "" := rfl

theorem join_cons (t : Text) (texts : List Text) : join (t :: texts) = t ++ join texts := rfl

@[simp] theorem length_toList (t : Text) : t.toList.length = t.length := rfl

@[simp] theorem length_ofString (s : String) : (ofString s).length = s.length := by
  rw [length, toList_ofString, List.length_map, String.length_toList]

theorem toList_eq_nil_iff {t : Text} : t.toList = [] ↔ t = "" := toList_inj (t := "")

@[simp] theorem chars_ofString (s : String) : (ofString s).chars = s.toList := by
  rw [chars, toList_ofString, List.filterMap_map]
  exact List.filterMap_some

/-- The text of digits is one of characters. -/
theorem map_chars_of_isDigit {t : Text} (digits : ∀ c ∈ t.toList, c.isDigit) :
    t.chars.map CodePoint.char = t.toList := by
  obtain ⟨cs⟩ := t
  induction cs with
  | nil => rfl
  | cons c cs ih =>
      obtain ⟨first, others⟩ := List.forall_mem_cons.1 digits
      obtain ⟨d, rfl, -⟩ := CodePoint.exists_char_of_isDigit first
      exact congrArg _ (ih others)

theorem length_chars_of_isDigit {t : Text} (digits : ∀ c ∈ t.toList, c.isDigit) :
    t.chars.length = t.length := by
  rw [← length_toList, ← map_chars_of_isDigit digits, List.length_map]

theorem isDigit_of_mem_chars {t : Text} (digits : ∀ c ∈ t.toList, c.isDigit) {d : Char}
    (mem : d ∈ t.chars) : d.isDigit := by
  have inside : CodePoint.char d ∈ t.toList := by
    rw [← map_chars_of_isDigit digits]
    exact List.mem_map_of_mem mem
  exact digits _ inside

@[simp] theorem string?_ofString (s : String) : (ofString s).string? = some s := by
  have chars (cs : List Char) : (cs.map CodePoint.char).mapM CodePoint.char? = some cs := by
    induction cs with
    | nil => rfl
    | cons c cs ih => simp [CodePoint.char?, ih]
  rw [string?, toList_ofString, chars, Option.map_some, String.ofList_toList]

end Text

end MonkeyLang
