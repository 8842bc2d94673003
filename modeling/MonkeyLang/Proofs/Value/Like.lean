import MonkeyLang.Assoc
import MonkeyLang.Operator
import MonkeyLang.Proofs.Node.Filled
import MonkeyLang.Proofs.Value.Parts
import MonkeyLang.Value.Inspect

/-!
# Values that are like each other

A program that runs behind others meets other numbers than by itself: those of scopes, of pieces and
of new values. `Renumbering` says how the numbers differ, and `Value.Like` relates values that
differ in nothing else. No operator and no text tells them apart.

* `Renumbering` says, too, which old scopes the program meets, what else is bound in them, and what
  has been printed.
* `Operator.binary_like` and its like: operators make of such values such values, or the same fault.
* `Value.Like.inspect_eq`: the texts are the same.
-/

namespace MonkeyLang

/-! ## Tables -/

/-- Two tables with the same keys in the same order, and with related values. -/
def Assoc.Like {κ α : Type} (R : α → α → Prop) : Assoc κ α → Assoc κ α → Prop :=
  List.Forall₂ fun entry entry' => entry.1 = entry'.1 ∧ R entry.2 entry'.2

namespace Assoc

variable {κ α : Type} [DecidableEq κ] {R R' : α → α → Prop} {table table' : Assoc κ α} {key : κ}

namespace Like

omit [DecidableEq κ] in
theorem mono (h : table.Like R table') (weaker : ∀ a a', R a a' → R' a a') :
    table.Like R' table' :=
  List.Forall₂.imp (fun _ _ both => ⟨both.1, weaker _ _ both.2⟩) h

theorem get? (h : table.Like R table') : Option.Rel R (table.get? key) (table'.get? key) := by
  induction h with
  | nil => exact .none
  | @cons entry entry' _ _ both _ ih =>
      obtain ⟨k, v⟩ := entry
      obtain ⟨k', v'⟩ := entry'
      obtain ⟨rfl, value⟩ := both
      unfold Assoc.get?
      split
      · exact .some value
      · exact ih

theorem insert {value value' : α} (h : table.Like R table') (values : R value value') :
    (table.insert key value).Like R (table'.insert key value') := by
  induction h with
  | nil => exact .cons ⟨rfl, values⟩ .nil
  | @cons entry entry' _ _ both rest ih =>
      obtain ⟨k, v⟩ := entry
      obtain ⟨k', v'⟩ := entry'
      obtain ⟨rfl, value⟩ := both
      unfold Assoc.insert
      split
      · exact .cons ⟨rfl, values⟩ rest
      · exact .cons ⟨rfl, value⟩ ih

theorem ofList {entries entries' : List (κ × α)} (h : Assoc.Like R entries entries') :
    (Assoc.ofList entries).Like R (Assoc.ofList entries') := by
  refine List.rel_foldl (fun table table' like entry entry' both => ?_) .nil h
  obtain ⟨k, v⟩ := entry
  obtain ⟨k', v'⟩ := entry'
  obtain ⟨rfl, value⟩ := both
  exact like.insert value

end Like

theorem get?_append {front : Assoc κ α} (absent : front.get? key = none) :
    get? key (front ++ table) = table.get? key := by
  induction front with
  | nil => rfl
  | cons entry front ih =>
      obtain ⟨k, v⟩ := entry
      unfold get? at absent
      split at absent
      · cases absent
      · next other => rw [List.cons_append, get?, if_neg other, ih absent]

theorem insert_append {front : Assoc κ α} (absent : front.get? key = none) (value : α) :
    insert key value (front ++ table) = front ++ table.insert key value := by
  induction front with
  | nil => rfl
  | cons entry front ih =>
      obtain ⟨k, v⟩ := entry
      unfold get? at absent
      split at absent
      · cases absent
      · next other =>
        rw [List.cons_append, insert, if_neg other, ih absent, List.cons_append]

end Assoc

/-! ## Numbers -/

/-- How the numbers of a program that runs behind others differ from those it has by itself. Some
old scopes are the same ones: there may be more bound in them, in front of what the program binds.
The program meets no other old scopes. -/
structure Renumbering where
  scopes : Shift
  pieces : Shift
  serials : Shift
  /-- The old scopes that the program meets. -/
  shared : ScopeId → Prop
  /-- What else is bound in a scope, and nothing in a new one. -/
  extra : ScopeId → Assoc Text Value
  inner : ∀ id, scopes.base ≤ id → extra id = []
  /-- What has been printed before by the program itself, and with the others. -/
  printed : List Text
  printed' : List Text

namespace Renumbering

variable (T : Renumbering) {b b' : Nat}

/-- The number of a scope. -/
abbrev scope (id : ScopeId) : ScopeId := T.scopes.move id

/-- The program may meet the scope: it is a shared one or a new one. -/
def Met (id : ScopeId) : Prop := T.shared id ∨ T.scopes.base ≤ id

/-- Nothing else is bound to the name. -/
def Free (name : Text) : Prop := ∀ id, (T.extra id).get? name = none

/-- The trees are like each other, and no name in them is bound to anything else. -/
abbrev Trees (b : Nat) : Node → Node → Prop := Node.Like (Pieces.Moved T.pieces b) T.Free

variable {T}

theorem Trees.mono {node node' : Node} (h : T.Trees b node node') (more : b ≤ b') :
    T.Trees b' node node' :=
  Node.Like.mono h (fun _ _ place => place.mono more) fun _ free => free

theorem treesAll_mono {nodes nodes' : List Node} (h : List.Forall₂ (T.Trees b) nodes nodes')
    (more : b ≤ b') : List.Forall₂ (T.Trees b') nodes nodes' :=
  List.Forall₂.imp (fun _ _ like => Trees.mono like more) h

variable (T)

/-- The program runs by itself. -/
def alone : Renumbering where
  scopes := ⟨0, 0⟩
  pieces := ⟨0, 0⟩
  serials := ⟨0, 0⟩
  shared _ := False
  extra _ := []
  inner _ _ := rfl
  printed := []
  printed' := []

@[simp] theorem alone_scope (id : ScopeId) : alone.scope id = id := Shift.move_of_gap _ rfl id

@[simp] theorem alone_serials (serial : Nat) : alone.serials.move serial = serial :=
  Shift.move_of_gap _ rfl serial

theorem alone_met (id : ScopeId) : alone.Met id := .inr (Nat.zero_le id)

theorem alone_trees (b : Nat) (node : Node) : alone.Trees b node node :=
  .refl (fun _ => ⟨(Shift.move_of_gap _ rfl _).symm, .inl rfl⟩) (fun _ _ => rfl) node

end Renumbering

/-! ## Values -/

/-- Values that differ only in their numbers, and in the positions of tokens in the programs they
hold. -/
inductive Value.Like (T : Renumbering) (b : Nat) : Value → Value → Prop
  | null {i : Instance} : Like T b (.null i) (.null i)
  | int {n : Int} : Like T b (.int n) (.int n)
  | bool {x : Bool} {i : Instance} : Like T b (.bool x i) (.bool x i)
  | str {text : Text} : Like T b (.str text) (.str text)
  | array {serial : Nat} {vs vs' : List Value} : vs.length = vs'.length →
    (∀ p ∈ vs.zip vs', Like T b p.1 p.2) →
    Like T b (.array serial vs) (.array (T.serials.move serial) vs')
  | hash {serial : Nat} {es es' : List (HashKey × Value × Value)} : es.length = es'.length →
    (∀ p ∈ es.zip es', p.1.1 = p.2.1) → (∀ p ∈ es.zip es', Like T b p.1.2.1 p.2.2.1) →
    (∀ p ∈ es.zip es', Like T b p.1.2.2 p.2.2.2) →
    Like T b (.hash serial es) (.hash (T.serials.move serial) es')
  | function {serial : Nat} {ps ps' : List Node} {body body' : Node} {scope : ScopeId} :
    List.Forall₂ (T.Trees b) ps ps' → T.Trees b body body' → T.Met scope →
    Like T b (.function serial ps body scope)
      (.function (T.serials.move serial) ps' body' (T.scope scope))
  | builtin {f : Builtin} : Like T b (.builtin f) (.builtin f)
  | quote {serial : Nat} {node node' : Node} : T.Trees b node node' →
    Like T b (.quote serial node) (.quote (T.serials.move serial) node')
  | macroValue {serial : Nat} {ps ps' : List Node} {body body' : Node} {scope : ScopeId} :
    List.Forall₂ (T.Trees b) ps ps' → T.Trees b body body' → T.Met scope →
    Like T b (.macroValue serial ps body scope)
      (.macroValue (T.serials.move serial) ps' body' (T.scope scope))
  | error {fault : Fault} : Like T b (.error fault) (.error fault)

namespace Value

variable {T : Renumbering} {b b' : Nat} {v v' w w' : Value}

/-- Entries of hashes with the same digests. -/
abbrev LikeEntries (T : Renumbering) (b : Nat) : Assoc HashKey (Value × Value) →
    Assoc HashKey (Value × Value) → Prop :=
  Assoc.Like fun entry entry' => entry.1.Like T b entry'.1 ∧ entry.2.Like T b entry'.2

namespace Like

theorem ofElements {serial : Nat} {vs vs' : List Value} (h : List.Forall₂ (Like T b) vs vs') :
    Like T b (.array serial vs) (.array (T.serials.move serial) vs') :=
  .array h.length_eq fun _ mem => (List.forall₂_iff_zip.1 h).2 mem

theorem ofEntries {serial : Nat} {es es' : Assoc HashKey (Value × Value)}
    (h : LikeEntries T b es es') : Like T b (.hash serial es) (.hash (T.serials.move serial) es') :=
  .hash (List.Forall₂.length_eq h) (fun _ mem => ((List.forall₂_iff_zip.1 h).2 mem).1)
    (fun _ mem => ((List.forall₂_iff_zip.1 h).2 mem).2.1)
    fun _ mem => ((List.forall₂_iff_zip.1 h).2 mem).2.2

theorem all_of_zip {vs vs' : List Value} (length : vs.length = vs'.length)
    (each : ∀ p ∈ vs.zip vs', Like T b p.1 p.2) : List.Forall₂ (Like T b) vs vs' :=
  List.forall₂_iff_zip.2 ⟨length, fun mem => each _ mem⟩

theorem entries_of_zip {es es' : Assoc HashKey (Value × Value)} (length : es.length = es'.length)
    (digests : ∀ p ∈ es.zip es', p.1.1 = p.2.1) (keys : ∀ p ∈ es.zip es', Like T b p.1.2.1 p.2.2.1)
    (values : ∀ p ∈ es.zip es', Like T b p.1.2.2 p.2.2.2) : LikeEntries T b es es' :=
  List.forall₂_iff_zip.2 ⟨length, fun mem => ⟨digests _ mem, keys _ mem, values _ mem⟩⟩

theorem mono (h : Like T b v v') (more : b ≤ b') : Like T b' v v' := by
  induction h with
  | null => exact .null
  | int => exact .int
  | bool => exact .bool
  | str => exact .str
  | array length _ ih => exact .array length ih
  | hash length digests _ _ ihKey ihValue => exact .hash length digests ihKey ihValue
  | function parameters body met =>
      exact .function (Renumbering.treesAll_mono parameters more) (body.mono more) met
  | builtin => exact .builtin
  | quote node => exact .quote (node.mono more)
  | macroValue parameters body met =>
      exact .macroValue (Renumbering.treesAll_mono parameters more) (body.mono more) met
  | error => exact .error

theorem all_mono {vs vs' : List Value} (h : List.Forall₂ (Like T b) vs vs') (more : b ≤ b') :
    List.Forall₂ (Like T b') vs vs' :=
  h.imp fun _ _ like => like.mono more

theorem entries_mono {es es' : Assoc HashKey (Value × Value)} (h : LikeEntries T b es es')
    (more : b ≤ b') : LikeEntries T b' es es' :=
  Assoc.Like.mono h fun _ _ both => both.imp (·.mono more) (·.mono more)

/-- All numbers that the value itself has are the same. -/
def Fixed (T : Renumbering) (b : Nat) : Value → Prop
  | .array serial _ | .hash serial _ => T.serials.move serial = serial
  | .quote serial node => T.serials.move serial = serial ∧ T.Trees b node node
  | .function serial ps body scope | .macroValue serial ps body scope =>
    T.serials.move serial = serial ∧ T.scope scope = scope ∧ T.Met scope ∧
      ∀ node ∈ body :: ps, T.Trees b node node
  | _ => True

/-- A value is like itself, if nothing in it has another number. -/
theorem of_fixed (fixed : ∀ w : Value, w.Part v → Fixed T b w) : Like T b v v := by
  induction v using elementInduction with
  | step v ih =>
    obtain ⟨here, below⟩ := forall_part_iff.1 fixed
    have each (u : Value) (mem : u ∈ v.elements) : Like T b u u := ih u mem (below u mem)
    cases v with
    | null => exact .null
    | int => exact .int
    | bool => exact .bool
    | str => exact .str
    | builtin => exact .builtin
    | error => exact .error
    | array serial vs =>
        have like := @ofElements T b serial vs vs (List.forall₂_same.2 each)
        rwa [show T.serials.move serial = serial from here] at like
    | hash serial es =>
        have likes : LikeEntries T b es es := List.forall₂_same.2 fun entry mem =>
          ⟨rfl, each _ (mem_elements_hash.2 ⟨entry, mem, .inl rfl⟩),
            each _ (mem_elements_hash.2 ⟨entry, mem, .inr rfl⟩)⟩
        have like := @ofEntries T b serial es es likes
        rwa [show T.serials.move serial = serial from here] at like
    | quote serial node =>
        have like := @Like.quote T b serial node node here.2
        rwa [here.1] at like
    | function serial ps body scope =>
        obtain ⟨same, sameScope, met, trees⟩ := here
        have like := @Like.function T b serial ps ps body body scope
          (List.forall₂_same.2 fun p mem => trees p (.tail _ mem)) (trees body (.head _)) met
        rwa [same, sameScope] at like
    | macroValue serial ps body scope =>
        obtain ⟨same, sameScope, met, trees⟩ := here
        have like := @Like.macroValue T b serial ps ps body body scope
          (List.forall₂_same.2 fun p mem => trees p (.tail _ mem)) (trees body (.head _)) met
        rwa [same, sameScope] at like

/-- A value is like itself where it is alone. -/
theorem refl (b : Nat) (v : Value) : Like .alone b v v := by
  refine of_fixed fun w _ => ?_
  have trees (node : Node) : Renumbering.alone.Trees b node node := Renumbering.alone_trees b node
  cases w with
  | array | hash => exact Renumbering.alone_serials _
  | quote => exact ⟨Renumbering.alone_serials _, trees _⟩
  | function | macroValue =>
      exact ⟨Renumbering.alone_serials _, Renumbering.alone_scope _, Renumbering.alone_met _,
        fun node _ => trees node⟩
  | _ => trivial

theorem kind_eq (h : Like T b v v') : v.kind = v'.kind := by
  cases h <;> rfl

theorem isTruthy_eq (h : Like T b v v') : v.isTruthy = v'.isTruthy := by
  cases h <;> rfl

theorem hashKey?_eq (h : Like T b v v') : v.hashKey? = v'.hashKey? := by
  cases h <;> rfl

/-- Different serial numbers stay different. -/
theorem same_eq (h : Like T b v v') (h' : Like T b w w') : v.same w = v'.same w' := by
  cases h <;> cases h' <;> first | rfl | simp [same]

theorem withQuotes_eq (h : Like T b v v') (text : Text) :
    v.withQuotes text = v'.withQuotes text := by
  cases h <;> rfl

/-! ### Texts -/

variable {p p' : Pieces}

theorem text_eq (pieces : p.Like T.pieces T.Free p') {node node' : Node}
    (h : T.Trees p.nextId node node') : p.text node = p'.text node' := by
  rw [Pieces.text, Pieces.text, pieces.text?_eq h]

theorem codeText_eq (pieces : p.Like T.pieces T.Free p') (keyword : Text)
    {ps ps' : List Node} {body body' : Node} (parameters : List.Forall₂ (T.Trees p.nextId) ps ps')
    (bodies : T.Trees p.nextId body body') :
    p.codeText keyword ps body = p'.codeText keyword ps' body' := by
  have texts : ps.mapM p.text = ps'.mapM p'.text := by
    induction parameters with
    | nil => rfl
    | cons first _ ih => rw [List.mapM_cons, List.mapM_cons, text_eq pieces first, ih]
  rw [Pieces.codeText, Pieces.codeText, texts, text_eq pieces bodies]

theorem inspectElements_eq {vs vs' : List Value} (length : vs.length = vs'.length)
    (likes : ∀ q ∈ vs.zip vs', Like T b q.1 q.2)
    (each : ∀ q ∈ vs.zip vs', q.1.inspect p = q.2.inspect p') :
    inspectElements p vs = inspectElements p' vs' := by
  have all : List.Forall₂ (fun v v' : Value => Like T b v v' ∧ v.inspect p = v'.inspect p')
      vs vs' :=
    List.forall₂_iff_zip.2 ⟨length, fun mem => ⟨likes _ mem, each _ mem⟩⟩
  clear length likes each
  induction all with
  | nil => rfl
  | cons first _ ih =>
      rw [inspectElements, inspectElements, first.2, ih]
      simp only [first.1.withQuotes_eq]

theorem inspectEntries_eq {es es' : List (HashKey × Value × Value)}
    (likes : LikeEntries T b es es')
    (keys : ∀ q ∈ es.zip es', q.1.2.1.inspect p = q.2.2.1.inspect p')
    (values : ∀ q ∈ es.zip es', q.1.2.2.inspect p = q.2.2.2.inspect p') :
    inspectEntries p es = inspectEntries p' es' := by
  induction likes with
  | nil => rfl
  | cons first _ ih =>
      have others := ih (fun q mem => keys q (.tail _ mem)) fun q mem => values q (.tail _ mem)
      have key := keys _ (.head _)
      have value := values _ (.head _)
      dsimp only at key value
      rw [inspectEntries, inspectEntries, key, value, others]
      simp only [first.2.1.withQuotes_eq, first.2.2.withQuotes_eq]

/-- The text of a value does not show its numbers. -/
theorem inspect_eq (pieces : p.Like T.pieces T.Free p') (h : Like T p.nextId v v') :
    v.inspect p = v'.inspect p' := by
  induction h with
  | array length likes ih => rw [inspect, inspect, inspectElements_eq length likes ih]
  | hash length digests keys values ihKey ihValue =>
      have likes := entries_of_zip length digests keys values
      rw [inspect, inspect, inspectEntries_eq likes ihKey ihValue]
  | function parameters body _ => exact codeText_eq pieces "fn" parameters body
  | macroValue parameters body _ => exact codeText_eq pieces "macro" parameters body
  | quote node => rw [inspect, inspect, text_eq pieces node]
  | _ => rfl

end Like

end Value

/-! ## Operators -/

/-- Related results, or the same fault. -/
def Except.Like {α : Type} (R : α → α → Prop) : Except Fault α → Except Fault α → Prop
  | .ok a, .ok a' => R a a'
  | .error fault, .error fault' => fault = fault'
  | _, _ => False

namespace Operator

open Value (Like)

variable {T : Renumbering} {b : Nat} {v v' w w' : Value}

theorem unary_like (op : Text) (h : v.Like T b v') :
    Except.Like (Like T b) (unary op v) (unary op v') := by
  unfold unary
  generalize op.string? = spelled
  split
  · rw [h.isTruthy_eq]
    exact .bool
  · cases h
    exact .int
  · next notNot notMinus =>
    split
    · exact absurd rfl notNot
    · cases h
      exact absurd rfl (notMinus _ rfl)
    · rw [h.kind_eq]
      rfl

theorem other_like (op : Text) (h : v.Like T b v') (h' : w.Like T b w') :
    Except.Like (Like T b) (other op v w) (other op v' w') := by
  unfold other
  rw [h.kind_eq, h'.kind_eq, h.same_eq h']
  split
  · exact .bool
  · exact .bool
  · split <;> rfl

theorem integer_like (op : Text) (l r : Int) :
    Except.Like (Like T b) (integer op l r) (integer op l r) := by
  unfold integer
  split
  case h_4 => split <;> first | exact .int | rfl
  all_goals first | exact .int | exact .bool | rfl

theorem string_like (op : Text) (l r : Text) :
    Except.Like (Like T b) (string op l r) (string op l r) := by
  unfold string
  split
  · exact .str
  · rfl

theorem binary_like (op : Text) (h : v.Like T b v') (h' : w.Like T b w') :
    Except.Like (Like T b) (binary op v w) (binary op v' w') := by
  have others := other_like op h h'
  cases h with
  | int =>
      cases h' with
      | int => exact integer_like op _ _
      | _ => exact others
  | str =>
      cases h' with
      | str => exact string_like op _ _
      | _ => exact others
  | _ => exact others

theorem getD_like {vs vs' : List Value} (h : List.Forall₂ (Like T b) vs vs') (i : Nat) :
    Like T b (vs.getD i .null) (vs'.getD i .null) := by
  induction h generalizing i with
  | nil => exact .null
  | cons first _ ih =>
      cases i with
      | zero => exact first
      | succ i => exact ih i

theorem element_like {vs vs' : List Value} (h : List.Forall₂ (Like T b) vs vs')
    (position : v.Like T b v') : Like T b (element vs v) (element vs' v') := by
  unfold element
  cases position with
  | @int n =>
      dsimp only
      split
      · exact .null
      · exact getD_like h n.toNat
  | _ => exact .null

theorem entry_like {es es' : Assoc HashKey (Value × Value)} (h : Value.LikeEntries T b es es')
    (key : HashKey) : Like T b (entry es key) (entry es' key) := by
  unfold entry
  have found : Option.Rel _ (es.get? key) (es'.get? key) := h.get?
  generalize es.get? key = e, es'.get? key = e' at found
  cases found with
  | none => exact .null
  | some both => exact both.2

theorem undigested_like (h : v.Like T b v') : undigested v = undigested v' := by
  cases h <;> rfl

end Operator

end MonkeyLang
