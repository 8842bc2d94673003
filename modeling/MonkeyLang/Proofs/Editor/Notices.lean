import MonkeyLang.Editor.Documents
import MonkeyLang.Proofs.Evaluation.Hashes

/-!
# Documents follow the notices of an editor

An editor gives notice when a document is opened, changed or closed. What is kept and shown of a document
is settled by the last notice about it: the text that it has given, with the index of that text and the
mistakes in it, or nothing if the document has been closed. Notices about other documents do not matter,
and neither do earlier ones about the same.

* `Editor.Latest` says which text is the latest one of an open document, `Editor.IsOpen` and
  `Editor.IsClosed` what has become of a document.
* `Editor.Desk.follow` takes notice after notice. `Editor.Desk.Follows.handle` is the step, and
  `Editor.Desk.follows_follow` is the run.
* `desk_follows_notices` is the result.
-/

namespace MonkeyLang

/-! ## Tables -/

namespace Assoc

variable {κ α : Type} [DecidableEq κ]

theorem nodup_keys_erase {table : Assoc κ α} (distinct : table.keys.Nodup) (key : κ) :
    (table.erase key).keys.Nodup :=
  distinct.sublist (List.filter_sublist.map _)

theorem mem_keys_iff {table : Assoc κ α} {key : κ} :
    key ∈ table.keys ↔ ∃ value, table.get? key = some value := by
  rw [← Option.isSome_iff_exists, Option.isSome_iff_ne_none, Ne, get?_eq_none_iff, not_not]

end Assoc

namespace Editor

/-! ## Notices -/

/-- What an editor gives notice of: a document has been opened with a text, or has a new text, or has
been closed. -/
inductive Notice where
  | opened (address text : Text)
  | changed (address text : Text)
  | closed (address : Text)

namespace Notice

/-- The document that the notice is about. -/
def address : Notice → Text
  | opened address _ | changed address _ | closed address => address

/-- The text that the document has from then on, if it is open. -/
def text? : Notice → Option Text
  | opened _ text | changed _ text => some text
  | closed _ => none

end Notice

/-- What the notices tell of the documents, one after the other. -/
def told (notices : List Notice) : List (Text × Option Text) :=
  notices.map fun notice => (notice.address, notice.text?)

theorem told_concat (notices : List Notice) (final : Notice) :
    told (notices ++ [final]) = told notices ++ [(final.address, final.text?)] := by
  rw [told, List.map_append]
  rfl

/-- The last notice about the document has given it the text. -/
def Latest (notices : List Notice) (address text : Text) : Prop :=
  Assoc.IsLast (told notices) (address, some text)

/-- The document has been opened or changed, and has not been closed since. -/
def IsOpen (notices : List Notice) (address : Text) : Prop :=
  ∃ before notice after, notices = before ++ notice :: after ∧ notice.address = address ∧
    notice.text?.isSome ∧ .closed address ∉ after

/-- The document has been closed, and there has been no notice about it since. -/
def IsClosed (notices : List Notice) (address : Text) : Prop :=
  ∃ before after, notices = before ++ .closed address :: after ∧
    ∀ later ∈ after, later.address ≠ address

/-! ## What is kept and shown -/

/-- A document with a text. -/
def Document.ofText (text : Text) : Document := ⟨text, .ofText text⟩

/-- The mistakes in a text, as an editor marks them. -/
def mistakes (text : Text) : List Marker := (parse text).diagnostics.map Marker.ofDiagnostic

/-- What is to be marked in a document: nothing if it has been closed. -/
def marked : Option Text → List Marker
  | some text => mistakes text
  | none => []

/-- What is done upon a notice. -/
def Documents.handle (docs : Documents) : Notice → Publication × Documents
  | .opened address text | .changed address text => docs.update address text
  | .closed address => docs.close address

/-- A notice settles what is kept of the document that it is about, and of no other. -/
theorem Documents.get?_handle (docs : Documents) (notice : Notice) (address : Text) :
    Assoc.get? address (docs.handle notice).2 =
      if notice.address = address then notice.text?.map Document.ofText
      else Assoc.get? address docs := by
  cases notice with
  | opened other text | changed other text => exact Assoc.get?_insert _ _ _ _
  | closed other => exact Assoc.get?_erase _ _ _

/-- Upon every notice the mistakes in the document that it is about are published. -/
theorem Documents.publication_handle (docs : Documents) (notice : Notice) :
    (docs.handle notice).1 = ⟨notice.address, marked notice.text?⟩ := by
  cases notice <;> rfl

theorem Documents.nodup_keys_handle {docs : Documents} (distinct : (Assoc.keys docs).Nodup)
    (notice : Notice) : (Assoc.keys (docs.handle notice).2).Nodup := by
  cases notice with
  | opened other text | changed other text => exact Assoc.nodup_keys_insert distinct _ _
  | closed other => exact Assoc.nodup_keys_erase distinct _

/-- The documents that are kept for an editor, and all that has been published so far, the oldest
first. -/
structure Desk where
  documents : Documents
  published : List Publication

namespace Desk

/-- The desk of an editor that has not given any notice. -/
def empty : Desk := ⟨[], []⟩

/-- Do what a notice asks for. -/
def handle (desk : Desk) (notice : Notice) : Desk :=
  let (publication, documents) := desk.documents.handle notice
  ⟨documents, desk.published ++ [publication]⟩

/-- Do what notices ask for, one after the other. -/
def follow (notices : List Notice) : Desk := notices.foldl handle empty

/-- The markers are those that have been published last for the document. -/
def ShowsLast (desk : Desk) (address : Text) (markers : List Marker) : Prop :=
  Assoc.IsLast (desk.published.map fun p => (p.address, p.markers)) (address, markers)

/-- The desk is in the state that the notices have brought it to. -/
structure Follows (notices : List Notice) (desk : Desk) : Prop where
  distinct : (Assoc.keys desk.documents).Nodup
  documents : ∀ address, Assoc.get? address desk.documents =
    (Assoc.get? address (Assoc.ofList (told notices))).join.map Document.ofText
  published : (desk.published.map fun p => (p.address, p.markers)) =
    (told notices).map fun entry => (entry.1, marked entry.2)

variable {notices : List Notice} {desk : Desk} {address text : Text}

theorem Follows.empty : Follows [] Desk.empty := ⟨List.nodup_nil, fun _ => rfl, rfl⟩

/-- One more notice. -/
theorem Follows.handle (follows : Follows notices desk) (notice : Notice) :
    Follows (notices ++ [notice]) (desk.handle notice) := by
  refine ⟨Documents.nodup_keys_handle follows.distinct notice, fun address => ?_, ?_⟩
  · refine (Documents.get?_handle desk.documents notice address).trans ?_
    rw [told_concat, Assoc.ofList_concat, Assoc.get?_insert, follows.documents]
    split <;> rfl
  · rw [told_concat, List.map_append, ← follows.published]
    refine List.map_append.trans (congrArg _ ?_)
    exact congrArg (fun p : Publication => [(p.address, p.markers)])
      (Documents.publication_handle desk.documents notice)

/-- After any notices the desk is in the state that they have brought it to. -/
theorem follows_follow (notices : List Notice) : Follows notices (follow notices) := by
  induction notices using List.reverseRecOn with
  | nil => exact .empty
  | append_singleton notices notice ih =>
      rw [follow, List.foldl_append]
      exact ih.handle notice

end Desk

/-! ## What has become of a document -/

section

variable {notices : List Notice} {final : Notice} {address text : Text} {desk : Desk}

theorem isOpen_iff :
    IsOpen notices address ↔ ∃ before notice after, notices = before ++ notice :: after ∧
      (notice.address = address ∧ notice.text?.isSome) ∧ ∀ later ∈ after, later ≠ .closed address := by
  simp only [IsOpen, and_assoc, ← List.forall_mem_ne']

theorem not_isOpen_nil (address : Text) : ¬ IsOpen [] address := by
  rintro ⟨before, notice, after, none, -⟩
  simp at none

/-- With one more notice, a document is open if that notice opens or changes it, or if it has been open
and that notice does not close it. -/
theorem isOpen_concat :
    IsOpen (notices ++ [final]) address ↔
      final.address = address ∧ final.text?.isSome ∨
        final ≠ .closed address ∧ IsOpen notices address := by
  rw [isOpen_iff, isOpen_iff, exists_split_concat]

theorem latest_concat :
    Latest (notices ++ [final]) address text ↔
      final.address = address ∧ final.text? = some text ∨
        address ≠ final.address ∧ Latest notices address text := by
  rw [Latest, told_concat, Assoc.isLast_concat, Prod.mk.injEq, eq_comm, @eq_comm _ (some text)]
  rfl

/-- A document is open exactly if the last notice about it has given it a text. -/
theorem isOpen_iff_exists_latest : IsOpen notices address ↔ ∃ text, Latest notices address text := by
  induction notices using List.reverseRecOn with
  | nil =>
      exact iff_of_false (not_isOpen_nil address) fun ⟨_, latest⟩ => Assoc.not_isLast_nil _ latest
  | append_singleton notices notice ih =>
      simp only [isOpen_concat, latest_concat, ih, exists_or, exists_and_left,
        ← Option.isSome_iff_exists]
      cases notice with
      | opened other text | changed other text | closed other =>
          by_cases about : other = address <;>
            simp [Notice.address, Notice.text?, about, @eq_comm _ address other]

/-- A document is closed exactly if the last notice about it has closed it. -/
theorem isClosed_iff_isLast :
    IsClosed notices address ↔ Assoc.IsLast (told notices) (address, none) := by
  constructor
  · rintro ⟨before, after, rfl, unseen⟩
    exact ⟨told before, told after, List.map_append.trans rfl, by simpa [told] using unseen⟩
  · rintro ⟨b, a, split, unseen⟩
    obtain ⟨before, rest, rfl, rfl, behind⟩ := List.map_eq_append_iff.1 split
    obtain ⟨notice, after, rfl, same, rfl⟩ := List.map_eq_cons_iff.1 behind
    cases notice <;> cases same
    exact ⟨before, after, rfl, by simpa using unseen⟩

/-- The document that is kept under an address has the latest text, and the index of it. -/
theorem Desk.Follows.get?_eq_some_iff (follows : Follows notices desk) {document : Document} :
    Assoc.get? address desk.documents = some document ↔
      ∃ text, Latest notices address text ∧ document = .ofText text := by
  rw [follows.documents, Option.map_eq_some_iff]
  simp only [Option.join_eq_some_iff, Assoc.get?_ofList_eq_some_iff]
  exact exists_congr fun text => and_congr_right fun _ => eq_comm

/-- What has been published last for a document are the mistakes in its latest text, and none if it has
been closed. -/
theorem Desk.Follows.showsLast_iff (follows : Follows notices desk) {markers : List Marker} :
    desk.ShowsLast address markers ↔
      (∃ text, Latest notices address text ∧ markers = mistakes text) ∨
        IsClosed notices address ∧ markers = [] := by
  rw [ShowsLast, follows.published, Assoc.isLast_map_iff (f := marked), Option.exists, or_comm,
    isClosed_iff_isLast]
  rfl

/-! ## What an editor asks for -/

/-- What is told of a document whose latest text is this one. -/
structure Documents.Answers (docs : Documents) (address text : Text) : Prop where
  hover : ∀ place, docs.hover? address place =
    (wordAt text place.line place.character).bind (Index.ofText text).hover?
  completions : docs.completions address =
    Completion.standard ++ (Index.ofText text).symbols.map fun entry => Completion.ofSymbol entry.2
  symbols : docs.symbols? address = some ((Index.ofText text).symbols.map (·.2))

theorem Documents.answers_of_get? {docs : Documents}
    (found : Assoc.get? address docs = some (.ofText text)) : docs.Answers address text := by
  refine ⟨fun place => ?_, ?_, ?_⟩
  · rw [hover?, found]
    rfl
  · rw [completions, found]
    rfl
  · rw [symbols?, found]
    rfl

/-- What is told of a document that is not open. -/
structure Documents.AnswersNothing (docs : Documents) (address : Text) : Prop where
  hover : ∀ place, docs.hover? address place = none
  completions : docs.completions address = Completion.standard
  symbols : docs.symbols? address = none

theorem Documents.answersNothing_of_get? {docs : Documents}
    (missing : Assoc.get? address docs = none) : docs.AnswersNothing address := by
  refine ⟨fun place => ?_, ?_, ?_⟩
  · rw [hover?, missing]
    rfl
  · rw [completions, missing]
    rfl
  · rw [symbols?, missing]
    rfl

/-- Every document has the builtin functions, the forms of quotation and the keywords as completions. -/
theorem labels_standard :
    Completion.standard.map Completion.label =
      Builtin.all.map (fun b => Text.ofString b.name) ++ [Quote.quoteName, Quote.unquoteName] ++
        Token.Kind.keywords.map (·.1) :=
  rfl

end

end Editor

open Editor

/-- After any notices, the documents that are kept are those that have been opened or changed and not
been closed since, each once, with its latest text and the index of it. What has been published last
for such a document are the mistakes in its latest text, in their order, and none for a document that
has been closed; for a document that there has been no notice about nothing has been published. The
answers about an open document depend on its latest text only. For any other there are no text for a
word and no symbols, and the only completions are builtin functions, forms and keywords. -/
theorem desk_follows_notices (notices : List Notice) :
    (Assoc.keys (Desk.follow notices).documents).Nodup ∧
    (∀ address, address ∈ Assoc.keys (Desk.follow notices).documents ↔ IsOpen notices address) ∧
    (∀ address document, (address, document) ∈ (Desk.follow notices).documents ↔
      ∃ text, Latest notices address text ∧ document = ⟨text, Index.ofText text⟩) ∧
    (∀ address markers, (Desk.follow notices).ShowsLast address markers ↔
      (∃ text, Latest notices address text ∧
        markers = (parse text).diagnostics.map Marker.ofDiagnostic) ∨
      IsClosed notices address ∧ markers = []) ∧
    (∀ address text, Latest notices address text →
      (Desk.follow notices).documents.Answers address text) ∧
    (∀ address, ¬ IsOpen notices address →
      (Desk.follow notices).documents.AnswersNothing address) ∧
    Completion.standard.map Completion.label =
      Builtin.all.map (fun b => Text.ofString b.name) ++ [Quote.quoteName, Quote.unquoteName] ++
        Token.Kind.keywords.map (·.1) := by
  have follows := Desk.follows_follow notices
  have kept (address : Text) :
      (∃ document, Assoc.get? address (Desk.follow notices).documents = some document) ↔
        IsOpen notices address := by
    simp only [follows.get?_eq_some_iff, isOpen_iff_exists_latest]
    constructor
    · rintro ⟨_, text, latest, -⟩
      exact ⟨text, latest⟩
    · rintro ⟨text, latest⟩
      exact ⟨_, text, latest, rfl⟩
  refine ⟨follows.distinct, fun address => ?_, fun address document => ?_,
    fun address markers => follows.showsLast_iff, fun address text latest => ?_,
    fun address notOpen => ?_, labels_standard⟩
  · exact Assoc.mem_keys_iff.trans (kept address)
  · exact (Assoc.mem_iff_get?_eq_some follows.distinct).trans follows.get?_eq_some_iff
  · exact Documents.answers_of_get? (follows.get?_eq_some_iff.2 ⟨text, latest, rfl⟩)
  · refine Documents.answersNothing_of_get? ?_
    cases found : Assoc.get? address (Desk.follow notices).documents with
    | none => rfl
    | some document => exact absurd ((kept address).1 ⟨document, found⟩) notOpen

/-- Three documents: one is opened, changed so that it has a mistake, and mended; one is opened and
closed; and one is changed again after it has been closed. -/
theorem desk_follows_notices_reopened :
    let notices : List Notice := [.opened "a" "let x = 1;", .opened "b" "let b = 2;",
      .changed "a" "let = 1;", .closed "b", .closed "c", .changed "a" "let f = fn(x) \x7b x \x7d;",
      .changed "c" "let = 3;"]
    let desk := Desk.follow notices
    Latest notices "a" "let f = fn(x) \x7b x \x7d;" ∧ ¬ IsOpen notices "b" ∧
      desk.documents.hover? "a" ⟨0, 5⟩ = some "f = fn(x) (function, defined at 1:5)" ∧
      desk.documents.completions "b" = Completion.standard ∧
      desk.ShowsLast "c" [⟨"expected next token to be IDENT, got = instead", ⟨0, 4⟩, ⟨0, 5⟩⟩,
        ⟨"no prefix parse function for = found", ⟨0, 4⟩, ⟨0, 5⟩⟩] := by
  intro notices desk
  obtain ⟨-, -, -, shows_, answers, nothing, -⟩ := desk_follows_notices notices
  have latest : Latest notices "a" "let f = fn(x) \x7b x \x7d;" :=
    Assoc.get?_ofList_eq_some_iff.1 (by decide)
  have latest' : Latest notices "c" "let = 3;" := Assoc.get?_ofList_eq_some_iff.1 (by decide)
  have notOpen : ¬ IsOpen notices "b" := by
    intro opened
    obtain ⟨text, latest⟩ := isOpen_iff_exists_latest.1 opened
    have closed : Assoc.get? ("b" : Text) (Assoc.ofList (told notices)) = some none := by decide
    cases closed.symm.trans (Assoc.get?_ofList_eq_some_iff.2 latest)
  refine ⟨latest, notOpen, ?_, (nothing "b" notOpen).completions, ?_⟩
  · rw [(answers "a" _ latest).hover]
    decide +kernel
  · refine (shows_ "c" _).2 (.inl ⟨_, latest', ?_⟩)
    decide +kernel

end MonkeyLang
