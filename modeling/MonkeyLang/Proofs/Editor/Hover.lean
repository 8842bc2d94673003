import MonkeyLang.Proofs.Editor.Definitions
import MonkeyLang.Proofs.Grammar.Lexical
import MonkeyLang.Proofs.Session.TopLevel

/-!
# Texts for names

The text that an editor shows for a name that a document defines describes its last let statement, as the
name comes to what the let statement has bound to it when the document is evaluated. Names of builtin
functions and forms are the exception: an editor shows their signatures, while a name comes to a builtin
function only where the program has bound nothing to it.

* `Editor.lookup_signatures_eq_none_iff`: signatures are those of builtin functions and of two forms.
* `hover_describes_last_definition` is the result.
-/

namespace MonkeyLang

open Session (values machine₀)

theorem Builtin.ofName?_eq_none_iff {word : Text} :
    ofName? word = none ↔ word ∉ all.map fun b => Text.ofString b.name := by
  rw [ofName?, List.find?_eq_none, List.mem_map]
  simp

namespace Editor

variable {word : Text} {index : Index}

theorem words_signatures :
    signatures.map (·.1) = (Builtin.all.map fun b => Text.ofString b.name) ++
      [Quote.quoteName, Quote.unquoteName] :=
  rfl

/-- Builtin functions and the forms of quotation have a signature, and nothing else has one. -/
theorem lookup_signatures_eq_none_iff :
    signatures.lookup word = none ↔
      Builtin.ofName? word = none ∧ word ≠ Quote.quoteName ∧ word ≠ Quote.unquoteName := by
  have unsigned : signatures.lookup word = none ↔ word ∉ signatures.map (·.1) := by
    simp only [List.lookup_eq_none_iff, bne_iff_ne, List.mem_map, not_exists, not_and]
    exact forall₂_congr fun _ _ => ne_comm
  rw [unsigned, words_signatures, Builtin.ofName?_eq_none_iff]
  simp

theorem hover?_of_unsigned {symbol : Symbol} (unsigned : signatures.lookup word = none)
    (found : index.symbols.get? word = some symbol) : index.hover? word = some symbol.hover := by
  rw [Index.hover?, unsigned]
  dsimp only
  rw [found]

theorem hover?_of_signed {signature : Text} (signed : signatures.lookup word = some signature) :
    index.hover? word = some signature := by
  rw [Index.hover?, signed]

end Editor

open Editor

/-- The text of an editor for a name that a document binds at its top level describes the last let
statement of the name, unless this is the name of a builtin function or a form, of which it is the
signature. At the top level of a session, whatever has been done there before, a let statement of the
name makes the name come to the value that its tree has come to. From then on the name comes to what is
bound to it in the outermost scope, whether or not there is a builtin function of the name. -/
theorem hover_describes_last_definition (text : Text) (name : Name) (value : Node)
    (last : LastLet (parse text).program.statements name value) :
    (Builtin.ofName? name.text = none → name.text ≠ Quote.quoteName →
      name.text ≠ Quote.unquoteName →
      ∃ symbol : Symbol, symbol.Describes text name value ∧
        (Index.ofText text).hover? name.text = some (symbol.detail ++ " (" ++ symbol.kind.name ++
          ", defined at " ++ toString (symbol.place.line + 1) ++ ":" ++
            toString (symbol.place.character + 1) ++ ")")) ∧
    (∀ b, Builtin.ofName? name.text = some b →
      ∃ signature, (name.text, signature) ∈ signatures ∧
        (Index.ofText text).hover? name.text = some signature) ∧
    ∀ s : Session, s.Reached → ∀ m, Session.Further s.machine m →
      ∀ depth tree v m₁, (evaluate depth tree values).run m = .ok v m₁ →
        let m₂ := m₁.bind values name.text v
        (∀ t, (evaluate (depth + 1) (.letStmt t name tree) values).run m = .ok .null m₂) ∧
        (∀ t d, (evaluate (d + 1) (.ident t name.text) values).run m₂ = .ok v m₂) ∧
        ∀ m₃, Session.Further m₂ m₃ →
          ∃ w, Session.bound? m₃ name.text = some w ∧
            ∀ t d, (evaluate (d + 1) (.ident t name.text) values).run m₃ = .ok w m₃ := by
  refine ⟨fun noBuiltin noQuote noUnquote => ?_, fun b builtin => ?_,
    fun s reached m steps depth tree v m₁ ran => ?_⟩
  · have unsigned := lookup_signatures_eq_none_iff.2 ⟨noBuiltin, noQuote, noUnquote⟩
    have found := get?_symbols_eq_some_iff.2 ⟨name, value, last, rfl, rfl⟩
    obtain ⟨t, mem⟩ := last.exists_mem
    exact ⟨_, describes_define mem, hover?_of_unsigned unsigned found⟩
  · have signed : signatures.lookup name.text ≠ none := by
      intro unsigned
      rw [(lookup_signatures_eq_none_iff.1 unsigned).1] at builtin
      cases builtin
    obtain ⟨signature, signed⟩ := Option.ne_none_iff_exists'.1 signed
    exact ⟨signature, mem_of_lookup signed, hover?_of_signed signed⟩
  · intro m₂
    have course : Session.Further machine₀ m₂ :=
      (reached.further.trans steps).trans (Session.further_letStmt ran name)
    have divided := course.divided Session.divided_machine₀
    have inside : values < m₂.store.nextId := Nat.lt_trans (by decide) divided.roots
    have bound : Session.bound? m₂ name.text = some v := by
      refine Session.bound?_bind ?_ _ _
      rwa [← Store.nextId_bind]
    refine ⟨fun t => Session.evaluate_letStmt ran t name, Session.evaluate_name_of_bound divided bound,
      fun m₃ later => ?_⟩
    obtain ⟨w, kept⟩ := later.exists_bound inside bound
    exact ⟨w, kept, Session.evaluate_name_of_bound (later.divided divided) kept⟩

/-- The name of a builtin function that is a number here, and a number that becomes a function. -/
theorem hover_describes_last_definition_first :
    let text : Text := "let first = 1; let twice = 2;\nlet twice = fn(x) \x7b x + x \x7d"
    (∃ name value, LastLet (parse text).program.statements name value ∧ name.text = "twice" ∧
      ∃ symbol : Symbol, symbol.Describes text name value ∧
        (Index.ofText text).hover? "twice" = some (symbol.detail ++ " (" ++ symbol.kind.name ++
          ", defined at " ++ toString (symbol.place.line + 1) ++ ":" ++
            toString (symbol.place.character + 1) ++ ")")) ∧
    ∃ name value, LastLet (parse text).program.statements name value ∧ name.text = "first" ∧
      (∃ signature, (("first" : Text), signature) ∈ signatures ∧
        (Index.ofText text).hover? "first" = some signature) ∧
      (evaluate 1 (.int none 1) values).run machine₀ = .ok (.int 1) machine₀ ∧
        let m := machine₀.bind values "first" (.int 1)
        (evaluate 1 (.ident none "first") values).run m = .ok (.int 1) m := by
  intro text
  have table : (Index.ofText text).symbols = [(("first" : Text), ⟨"first", .var, ⟨0, 4⟩, "let first"⟩),
      (("twice" : Text), ⟨"twice", .function, ⟨1, 4⟩, "twice = fn(x)"⟩)] := by
    decide +kernel
  have twice : (Index.ofText text).symbols.get? ("twice" : Text) =
      some ⟨"twice", .function, ⟨1, 4⟩, "twice = fn(x)"⟩ := by rw [table]; rfl
  have first : (Index.ofText text).symbols.get? ("first" : Text) =
      some ⟨"first", .var, ⟨0, 4⟩, "let first"⟩ := by rw [table]; rfl
  constructor
  · obtain ⟨name, value, last, same, -⟩ := get?_symbols_eq_some_iff.1 twice
    refine ⟨name, value, last, same, ?_⟩
    rw [← same]
    refine (hover_describes_last_definition text name value last).1 ?_ ?_ ?_ <;> rw [same] <;> decide
  · obtain ⟨name, value, last, same, -⟩ := get?_symbols_eq_some_iff.1 first
    have ran : (evaluate 1 (.int none 1) values).run machine₀ = .ok (.int 1) machine₀ := rfl
    obtain ⟨-, signed, session⟩ := hover_describes_last_definition text name value last
    obtain ⟨-, comes, -⟩ :=
      session (.start 0) (.start 0) machine₀ .refl 1 (.int none 1) (.int 1) machine₀ ran
    rw [same] at signed comes
    exact ⟨name, value, last, same, signed .first rfl, ran, comes none 0⟩

/-- Where a document without mistakes defines a name of a builtin function, an editor shows the builtin
function for it, while the name comes to the value of the definition. -/
theorem hover_hides_definition :
    let text : Text := "let len = 5;"
    let symbol : Symbol := ⟨"len", .var, ⟨0, 4⟩, "let len"⟩
    (parse text).diagnostics = [] ∧ (Index.ofText text).symbols = [(("len" : Text), symbol)] ∧
      symbol.hover = "let len (var, defined at 1:5)" ∧
      (Index.ofText text).hover? "len" = some "len(value) -> length of a string or array" ∧
      (((Session.start 0).run text).2.eval "len").1 = .ok (.value (.int 5)) := by
  intro text symbol
  refine ⟨by cbv, by decide +kernel, by decide +kernel, rfl, by cbv⟩

end MonkeyLang
