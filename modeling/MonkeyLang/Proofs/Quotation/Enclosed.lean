import MonkeyLang.Proofs.Quotation.Visits

/-!
# Pieces that an evaluation leaves alone

The quotations that an evaluation comes to are those in the scopes it may go on in, and those it
makes. It changes no piece but the ones they refer to: trees that are quoted by it are copied first,
and all that is put into a copy comes from a quotation. So if the quotations refer to certain pieces
only, all other pieces stay as they are.

* `Pieces.Solid` says that pieces refer to pieces.
* `Enclosure.Holds` says that all but certain pieces are as they were at first.
* `Enclosure.setting` is the setting, and `Enclosure.evaluate` the result for every evaluation.
-/

namespace MonkeyLang

namespace Node

theorem children_of_not_isCompound {n : Node} (h : n.isCompound = false) : n.children = [] := by
  cases n <;> first | rfl | cases h

theorem not_refers_of_not_isCompound {n : Node} (h : n.isCompound = false)
    (other : n.isPiece = false) (id : PieceId) : ¬ n.Refers id := by
  rw [refers_iff_of_not_piece other, children_of_not_isCompound h]
  rintro ⟨c, mem, -⟩
  cases mem

theorem not_refers_of_children {n : Node} (other : n.isPiece = false)
    (each : ∀ c ∈ n.children, ∀ id, ¬ c.Refers id) (id : PieceId) : ¬ n.Refers id := by
  rw [refers_iff_of_not_piece other]
  rintro ⟨c, mem, refers⟩
  exact each c mem id refers

theorem refers_withChildren {n : Node} {ns : List Node} (other : n.isPiece = false)
    (same : ns.length = n.children.length) {id : PieceId} :
    (n.withChildren ns).Refers id ↔ ∃ c ∈ ns, c.Refers id := by
  rw [refers_iff_of_not_piece (by rw [isPiece_withChildren, other]), children_withChildren same]

theorem isCompound_rename (ρ : PieceId → PieceId) {n : Node} (h : n.isCompound = true) :
    (n.rename ρ).isCompound = true := by
  rw [rename_eq (Pieces.isPiece_of_isCompound h), isCompound_withChildren, h]

end Node

namespace Pieces

/-- All pieces can have nodes below them, and refer to nothing but pieces. -/
def Solid (p : Pieces) : Prop :=
  ∀ id < p.nextId, (p.get id).isCompound = true ∧ ∀ other, (p.get id).Refers other → other < p.nextId

namespace Solid

variable {p p' : Pieces} {n : Node} {id : PieceId}

theorem isSealed (h : p.Solid) : p.Sealed (· < p.nextId) where
  inside _ inside := inside
  content id inside := isPiece_of_isCompound (h id inside).1
  refers id inside := (h id inside).2

theorem add (h : p.Solid) (compound : n.isCompound = true)
    (refers : ∀ id, n.Refers id → id < p.nextId) : (p.add n).Solid := by
  intro id inside
  rw [nextId_add] at inside ⊢
  rw [get_add]
  split
  · exact ⟨compound, fun other inner => Nat.lt_succ_of_lt (refers other inner)⟩
  · next old =>
      have before := Nat.lt_of_le_of_ne (Nat.le_of_lt_succ inside) old
      exact ⟨(h id before).1, fun other inner => Nat.lt_succ_of_lt ((h id before).2 other inner)⟩

theorem set (h : p.Solid) (compound : n.isCompound = true)
    (refers : ∀ id, n.Refers id → id < p.nextId) : (p.set id n).Solid := by
  intro other inside
  rw [nextId_set] at inside ⊢
  rw [get_set]
  split
  · exact ⟨compound, refers⟩
  · exact h other inside

/-- Copies of pieces are pieces. -/
theorem copied (h : p.Solid) {Met : PieceId → Prop} {ρ : PieceId → PieceId} {n' : Node}
    (inside : ∀ id, Met id → id < p.nextId) (copied : Quote.Copied p n Met ρ p' n') : p'.Solid := by
  intro id later
  by_cases old : id < p.nextId
  · rw [copied.old.get_eq id old]
    refine ⟨(h id old).1, fun other inner => ?_⟩
    exact Nat.lt_of_lt_of_le ((h id old).2 other inner) copied.old.nextId_le
  · obtain ⟨original, met, rfl⟩ := copied.onto id (Nat.le_of_not_lt old) later
    rw [copied.content original met]
    refine ⟨Node.isCompound_rename ρ (h original (inside original met)).1, fun other inner => ?_⟩
    obtain ⟨j, stands, rfl⟩ := Node.refers_rename_iff.1 inner
    exact (copied.new j (copied.closed original met j stands)).2

end Solid

end Pieces

/-- Scopes that an evaluation may go on in besides those it opens, and pieces that its quotations
may refer to besides those it makes. -/
structure Enclosure where
  known : ScopeId → Prop
  /-- How many scopes there were at first. -/
  start : Nat
  /-- The pieces that there were at first. -/
  first : Pieces
  given : PieceId → Prop

namespace Enclosure

variable {C : Enclosure} {p p' : Pieces} {n : Node} {id : PieceId}

/-- The piece is one of the given ones, if it is among the first ones. -/
def Within (C : Enclosure) (p : Pieces) (id : PieceId) : Prop :=
  id < p.nextId ∧ (id < C.first.nextId → C.given id)

/-- The first pieces are as they were, except for the given ones; and these, and the later ones,
refer to none but such. -/
structure Holds (C : Enclosure) (p : Pieces) : Prop where
  nextId_le : C.first.nextId ≤ p.nextId
  same : ∀ id < C.first.nextId, ¬ C.given id → p.get id = C.first.get id
  solid : p.Solid
  closed : ∀ id, C.Within p id → ∀ other, (p.get id).Refers other → C.Within p other

theorem Within.mono (h : C.Within p id) (more : p.nextId ≤ p'.nextId) : C.Within p' id :=
  ⟨Nat.lt_of_lt_of_le h.1 more, h.2⟩

theorem Within.of_later (later : C.first.nextId ≤ id) (inside : id < p.nextId) : C.Within p id :=
  ⟨inside, fun before => absurd before (Nat.not_lt_of_le later)⟩

namespace Holds

theorem start (solid : C.first.Solid)
    (closed : ∀ id, C.given id → ∀ other, (C.first.get id).Refers other → C.given other) :
    C.Holds C.first where
  nextId_le := Nat.le_refl _
  same _ _ _ := rfl
  solid := solid
  closed id within other refers :=
    ⟨(solid id within.1).2 other refers, fun _ => closed id (within.2 within.1) other refers⟩

theorem add (h : C.Holds p) (compound : n.isCompound = true)
    (refers : ∀ id, n.Refers id → C.Within p id) : C.Holds (p.add n) := by
  have more : p.nextId ≤ (p.add n).nextId := by
    rw [Pieces.nextId_add]
    exact Nat.le_succ _
  refine ⟨Nat.le_trans h.nextId_le more, fun id before other => ?_,
    h.solid.add compound fun id inner => (refers id inner).1, fun id within other inner => ?_⟩
  · rw [Pieces.get_add, if_neg (Nat.lt_of_lt_of_le before h.nextId_le).ne]
    exact h.same id before other
  · rw [Pieces.get_add] at inner
    split at inner
    · exact (refers other inner).mono more
    · next old =>
        have inside := within.1
        rw [Pieces.nextId_add] at inside
        have before := Nat.lt_of_le_of_ne (Nat.le_of_lt_succ inside) old
        exact (h.closed id ⟨before, within.2⟩ other inner).mono more

theorem set (h : C.Holds p) (within : C.Within p id) (compound : n.isCompound = true)
    (refers : ∀ id, n.Refers id → C.Within p id) : C.Holds (p.set id n) := by
  have nextId_eq := Pieces.nextId_set p id n
  have within_iff {other : PieceId} : C.Within (p.set id n) other ↔ C.Within p other := by
    rw [Within, Within, nextId_eq]
  refine ⟨nextId_eq ▸ h.nextId_le, fun other before notGiven => ?_,
    h.solid.set compound fun id inner => (refers id inner).1, fun other within' inner inside => ?_⟩
  · rw [Pieces.get_set, if_neg]
    · exact h.same other before notGiven
    · rintro ⟨rfl, -⟩
      exact notGiven (within.2 before)
  · rw [Pieces.get_set] at inside
    rw [within_iff] at within' ⊢
    split at inside
    · exact refers inner inside
    · exact h.closed other within' inner inside

/-- The copies refer to copies. -/
theorem copied (h : C.Holds p) {Met : PieceId → Prop} {ρ : PieceId → PieceId} {n' : Node}
    (inside : ∀ id, Met id → id < p.nextId) (copied : Quote.Copied p n Met ρ p' n') :
    C.Holds p' ∧ ∀ id, n'.Refers id → C.Within p' id := by
  have copy_within {j : PieceId} (met : Met j) : C.Within p' (ρ j) :=
    .of_later (Nat.le_trans h.nextId_le (copied.new j met).1) (copied.new j met).2
  refine ⟨⟨Nat.le_trans h.nextId_le copied.old.nextId_le, fun id before notGiven => ?_,
    h.solid.copied inside copied, fun id within other inner => ?_⟩, fun id inner => ?_⟩
  · rw [copied.old.get_eq id (Nat.lt_of_lt_of_le before h.nextId_le)]
    exact h.same id before notGiven
  · by_cases old : id < p.nextId
    · rw [copied.old.get_eq id old] at inner
      exact (h.closed id ⟨old, within.2⟩ other inner).mono copied.old.nextId_le
    · obtain ⟨original, met, rfl⟩ := copied.onto id (Nat.le_of_not_lt old) within.1
      rw [copied.content original met] at inner
      obtain ⟨j, stands, rfl⟩ := Node.refers_rename_iff.1 inner
      exact copy_within (copied.closed original met j stands)
  · rw [copied.eq] at inner
    obtain ⟨j, stands, rfl⟩ := Node.refers_rename_iff.1 inner
    exact copy_within (copied.refers j stands)

end Holds

/-! ## The setting -/

/-- Quotations refer to given and to later pieces only, and all other pieces stay as they are. -/
def setting (C : Enclosure) : Eval.Setting where
  known := C.known
  start := C.start
  total := False
  pieces := C.Holds
  moves p p' := p.nextId ≤ p'.nextId
  quoted p n := ∀ id, n.Refers id → C.Within p id
  parameter _ _ := True
  code p n := ∀ id, n.Refers id → id < p.nextId
  held _ _ := True
  refl := Nat.le_refl _
  trans := Nat.le_trans
  quoted_moves more h id refers := (h id refers).mono more
  parameter_moves _ h := h
  code_moves more h id refers := Nat.lt_of_lt_of_le (h id refers) more
  held_moves _ h := h
  code_total := nofun
  quoted_text := nofun
  held_text := nofun

theorem quotable (C : Enclosure) : C.setting.Quotable where
  leaf compound other id refers := absurd refers (Node.not_refers_of_not_isCompound compound other id)
  child _ quoted mem id refers := quoted id (.child mem refers)
  rebuild {p n ns} other _ heads quoted id refers := by
    obtain ⟨c, mem, refers⟩ := (Node.refers_withChildren other heads.length_eq.symm).1 refers
    exact quoted c mem id refers
  add {p n} holds compound quoted := by
    have more : p.nextId ≤ (p.add n).nextId := by
      rw [Pieces.nextId_add]
      exact Nat.le_succ _
    refine ⟨holds.add compound quoted, more, fun id refers => ?_⟩
    rw [Node.refers_piece_iff.1 refers]
    refine .of_later holds.nextId_le ?_
    rw [Pieces.nextId_add]
    exact Nat.lt_succ_self _

variable {F : Filter Nat} {m : Machine} {e : ScopeId} {run : Nat → Node → Eval Value}

/-- The copy of a tree may be quoted. -/
theorem copy (code : C.setting.code m.pieces n) :
    C.setting.Runs F m (fun _ => Quote.copy n) fun m' n' => C.setting.quoted m'.pieces n' := by
  intro sound
  have holds : C.Holds m.pieces := sound.pieces
  obtain ⟨Met, ρ, p', ran, inside, copied⟩ := Quote.run_copy holds.solid.isSealed code
  obtain ⟨holds', within⟩ := holds.copied inside copied
  refine .congr (.const (b := .ok (n.rename ρ) { m with pieces := p' }) ?_)
    (.of_forall fun _ => ran)
  exact ⟨⟨Nat.le_refl _, copied.old.nextId_le⟩, sound.of_moves copied.old.nextId_le holds', within⟩

/-- In the tree all unquotations can be replaced, at most `depth` pieces deep. -/
def Visits (C : Enclosure) (F : Filter Nat) (e : ScopeId) (run : Nat → Node → Eval Value)
    (depth : Nat) (n : Node) : Prop :=
  ∀ m, C.setting.Scope m e → C.setting.quoted m.pieces n →
    C.setting.Runs F m (fun i => n.transformM (Quote.unquote (run i) depth)) fun m' n' =>
      C.setting.quoted m'.pieces n'

section

variable {depth : Nat}
  (evaluates : ∀ argument m', C.setting.Scope m' e → C.setting.code m'.pieces argument →
    C.setting.Runs F m' (fun i => run i argument) C.setting.Value)
include evaluates

/-- The argument of an unquotation is evaluated when it may be quoted itself. -/
theorem evaluates_argument {argument : Node} (inside : C.setting.Scope m e) (other : n.isPiece = false)
    (unquotes : n.unquotes? = some [argument]) (quoted : C.setting.quoted m.pieces n) :
    C.setting.Runs F m (fun i => run i argument) C.setting.Value := by
  refine evaluates argument m inside fun id refers => (quoted id (.child ?_ refers)).1
  obtain ⟨t, u, rfl⟩ := Node.eq_call_of_unquotes? unquotes
  exact .tail _ (.head _)

theorem visits_node (other : n.isPiece = false)
    (children : ∀ c ∈ n.children, C.Visits F e run depth c) : C.Visits F e run depth n := by
  intro m inside quoted
  have rebuilt {m' : Machine} {ns : List Node}
      (related : List.Forall₂ (fun _ c => C.setting.quoted m'.pieces c) n.children ns) :
      C.setting.quoted m'.pieces (n.withChildren ns) := by
    intro id refers
    obtain ⟨c, mem, refers⟩ := (Node.refers_withChildren other related.length_eq.symm).1 refers
    exact Eval.Setting.forall_right related (fun _ _ h => h) c mem id refers
  refine Eval.Setting.Runs.visitNode C.quotable (I := fun _ => True)
    (R := fun m' _ c => C.setting.quoted m'.pieces c) other
    (fun later h => C.setting.quoted_moves later.moves h) ?_ trivial ?_ ?_ ?_
  · intro c mem m' later _
    have childQuoted := C.setting.quoted_moves later.moves (C.quotable.child other quoted mem)
    exact (children c mem m' (later.scope inside) childQuoted).mono fun _ _ _ _ h => ⟨trivial, h⟩
  · intro m' ns argument later related unquotes
    refine evaluates_argument evaluates (later.scope inside) ?_ unquotes (rebuilt related)
    rw [Node.isPiece_withChildren, other]
  · exact fun m' ns _ _ _ related _ => rebuilt related
  · exact fun m' m'' ns arguments n' _ _ _ _ _ quoted => quoted

theorem visits_piece
    (children : ∀ m, C.setting.Sound m → ∀ c ∈ (m.pieces.get id).children,
      C.Visits F e run depth c) : C.Visits F e run (depth + 1) (.piece id) := by
  intro m inside quoted
  refine .of_sound fun sound => ?_
  have within : C.Within m.pieces id := quoted id .piece
  have compound := (sound.pieces.solid id within.1).1
  have other := Pieces.isPiece_of_isCompound compound
  have contentQuoted : C.setting.quoted m.pieces (m.pieces.get id) := sound.pieces.closed id within
  have below := Eval.Setting.Runs.belowM (S := C.setting) (F := F) (m := m) (I := fun _ => True)
    (f := fun i => Quote.unquote (run i) depth) (n := m.pieces.get id)
    (R := fun m' _ c => C.setting.quoted m'.pieces c)
    (fun later h => C.setting.quoted_moves later.moves h)
    (fun c mem m' later _ => (children m sound c mem m' (later.scope inside)
      (C.setting.quoted_moves later.moves (C.quotable.child other contentQuoted mem))).mono
        fun _ _ _ _ h => ⟨trivial, h⟩) trivial
  refine (below.bind (f := fun i node => (do
    Eval.setPiece id node
    return (← Quote.substitute? (run i) node).getD (.piece id))) ?_).congr (.of_forall fun i =>
      Quote.transformM_unquote_piece id m)
  rintro _ m₁ later₁ sound₁ ⟨-, ns, rfl, related⟩
  have quoted₁ : C.setting.quoted m₁.pieces ((m.pieces.get id).withChildren ns) := by
    intro j refers
    obtain ⟨c, mem, refers⟩ := (Node.refers_withChildren other related.length_eq.symm).1 refers
    exact Eval.Setting.forall_right related (fun _ _ h => h) c mem j refers
  have within₁ := within.mono later₁.moves
  have changed := sound₁.pieces.set within₁ (by rwa [Node.isCompound_withChildren]) quoted₁
  have same := Pieces.nextId_set m₁.pieces id ((m.pieces.get id).withChildren ns)
  have set : C.setting.Runs F m₁
      (fun _ => Eval.setPiece id ((m.pieces.get id).withChildren ns)) fun m' _ =>
        C.setting.quoted m'.pieces ((m.pieces.get id).withChildren ns) := by
    refine .modifyGet ⟨Nat.le_refl _, same.ge⟩ (fun _ => sound₁.of_moves same.ge changed) ?_
    exact fun j refers => (quoted₁ j refers).mono same.ge
  refine set.bind fun _ m₂ later₂ sound₂ quoted₂ => ?_
  have inside₂ := later₂.scope (later₁.scope inside)
  refine Eval.Setting.Runs.replaced C.quotable (fun argument unquotes => ?_) (fun _ => ?_)
    fun _ _ _ _ _ _ quoted => quoted
  · refine evaluates_argument evaluates inside₂ ?_ unquotes quoted₂
    rw [Node.isPiece_withChildren, other]
  · intro j refers
    rw [Node.refers_piece_iff.1 refers]
    exact within₁.mono later₂.moves

/-- In a tree that may be quoted all unquotations can be replaced. -/
theorem visits (depth : Nat) (n : Node) : C.Visits F e run depth n := by
  induction depth generalizing n with
  | zero =>
    induction n using Node.childInduction with
    | step n ih =>
      cases isPiece : n.isPiece with
      | false => exact visits_node evaluates isPiece ih
      | true =>
          obtain ⟨id, rfl⟩ := Node.eq_piece_of_isPiece isPiece
          exact fun m _ _ => .throw nofun
  | succ depth ihDepth =>
    induction n using Node.childInduction with
    | step n ih =>
      cases isPiece : n.isPiece with
      | false => exact visits_node evaluates isPiece ih
      | true =>
          obtain ⟨id, rfl⟩ := Node.eq_piece_of_isPiece isPiece
          exact visits_piece evaluates fun _ _ c _ => ihDepth c

theorem quote (inside : C.setting.Scope m e) (depth : Nat) {arguments : List Node}
    (code : ∀ n ∈ arguments, C.setting.code m.pieces n) :
    C.setting.Runs F m (fun i => Quote.quote (run i) depth arguments) C.setting.Value := by
  match arguments with
  | [n] =>
    refine (copy (code n (.head _))).bind fun n₁ m₁ later₁ _ quoted₁ => ?_
    refine (visits evaluates depth n₁ m₁ (later₁.scope inside) quoted₁).bind
      fun n₂ m₂ _ _ quoted₂ => ?_
    exact .newQuote C.quotable quoted₂
  | [] | _ :: _ :: _ => exact .fail

end

/-- An evaluation leaves all pieces alone but those its quotations refer to. -/
theorem evaluate (C : Enclosure) (depth : Nat) {n : Node} {e : ScopeId} {m : Machine}
    (inside : C.setting.Scope m e) (code : C.setting.code m.pieces n) :
    C.setting.Runs (pure depth) m (fun i => MonkeyLang.evaluate i n e) C.setting.Value := by
  induction depth generalizing n e m with
  | zero =>
      have halts : C.setting.AtExit m (.halted .overflow) := nofun
      exact .congr (.throw halts) (Filter.eventually_pure.2 rfl)
  | succ depth ih =>
      refine .of_sound fun sound => .succ_pure (c := fun i => MonkeyLang.evaluate i n e) ?_
      refine .form inside (fun c mem m' later => ?_) ?_ ?_ (fun body inner m' _ inside code => ?_) ?_
      · refine ih (later.scope inside) (C.setting.code_moves later.moves fun id refers => ?_)
        exact code id (.child mem refers)
      · rintro id rfl
        exact ih inside (sound.pieces.solid id (code id .piece)).2
      · rintro t parameters body rfl
        exact ⟨fun _ _ => trivial, fun id refers => code id (.child (by simp [Node.children]) refers)⟩
      · exact ih inside code
      · rintro t callee arguments rfl -
        refine .congr (c := fun i => Quote.quote (MonkeyLang.evaluate i · e) depth arguments) ?_
          (Filter.eventually_pure.2 rfl)
        refine quote (fun argument m' inside code => ih inside code) inside depth fun n mem => ?_
        exact fun id refers => code id (.child (.tail _ mem) refers)

end Enclosure

end MonkeyLang
