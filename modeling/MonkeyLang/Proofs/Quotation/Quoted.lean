import MonkeyLang.Proofs.Quotation.Clearing
import MonkeyLang.Proofs.Quotation.Ends
import MonkeyLang.Proofs.Quotation.Substituted
import MonkeyLang.Proofs.Quotation.Wrapped

/-!
# A quotation is a substitution

To quote a tree is to copy it, to replace the calls of `unquote` in the copy, and to make a quotation
of what has come of it. The tree itself stays as it is, also in all evaluations that come later, so
that the next quotation starts from it again.

* `Machine.Placed` says that all that can be reached from a scope refers to pieces that are there.
* `Machine.Quotes` says for which tree a fragment stands when it is quoted, and `Machine.Apart` that
  evaluations leave it alone, so that it stands for the same tree the next time.
* `Quote.Ends` says how a quotation ends, and `quote_substitutes` that it ends so.
-/

namespace MonkeyLang

open Quote (Substitutes Stops Evaluations Fails Replacements)

/-! ## Fragments that stand for trees -/

/-- The trees that the value holds refer to pieces that are there. -/
def Value.Placed (p : Pieces) : Value → Prop
  | .function _ _ body _ => ∀ id, body.Refers id → id < p.nextId
  | .quote _ node => ∀ id, node.Refers id → id < p.nextId
  | _ => True

/-- All pieces, and all values that can be reached from the scope, refer to pieces that are there. -/
structure Machine.Placed (m : Machine) (e : ScopeId) : Prop where
  solid : m.pieces.Solid
  values : ∀ v, m.store.Reaches (.scope e) (.value v) → v.Placed m.pieces

/-- The fragment stands for the tree `w`: with the pieces in their places, of which at most `d` stand
inside each other, and each in one place only unless there is no call of `unquote` in it. -/
structure Machine.Quotes (m : Machine) (e : ScopeId) (fragment w : Node) (d : Nat) : Prop where
  placed : m.Placed e
  tree : ∃ still ids, m.pieces.Unfolds (fun _ => True) still d [fragment] ids [w] ∧ ids.Nodup

/-- No piece in the fragment stands in a quotation that can be reached from the scope. -/
def Machine.Apart (m : Machine) (e : ScopeId) (fragment : Node) : Prop :=
  ∀ serial node, m.store.Reaches (.scope e) (.value (.quote serial node)) →
    ∀ id, m.pieces.Stands fragment id → ¬ m.pieces.Stands node id

namespace Pieces

variable {p p' : Pieces} {own still : PieceId → Prop} {d : Nat} {n : Node} {nodes ws : List Node}
  {ids : List PieceId} {id other : PieceId}

theorem Stands.of_refers (h : n.Refers id) : p.Stands n id := ⟨id, h, .refl⟩

theorem Stands.around (h : p.Stands n id) (refers : (p.get id).Refers other) : p.Stands n other := by
  obtain ⟨around, stands, below⟩ := h
  exact ⟨around, stands, .head refers below⟩

/-- All that stands in the nodes is there. -/
theorem Unfolds.inside (h : p.Unfolds (fun _ => True) still d nodes ids ws) :
    ∀ n ∈ nodes, ∀ id, n.Refers id → id < p.nextId := by
  induction h with
  | nil => exact nofun
  | node other _ _ ihBelow ihLater =>
      refine List.forall_mem_cons.2 ⟨fun id refers => ?_, ihLater⟩
      obtain ⟨c, mem, refers⟩ := (Node.refers_iff_of_not_piece other).1 refers
      exact ihBelow c mem id refers
  | piece _ _ compound _ _ _ ihLater | still _ _ compound _ _ _ _ ihLater =>
      refine List.forall_mem_cons.2 ⟨fun id refers => ?_, ihLater⟩
      rw [Node.refers_piece_iff.1 refers]
      exact lt_nextId_of_isCompound compound
  | other notOwn => exact absurd trivial notOwn

/-- What stands in a tree stood in it before if all that stood in it is as it was. -/
theorem Stands.of_same (h : p'.Stands n id) (same : ∀ id, p.Stands n id → p'.get id = p.get id) :
    p.Stands n id := by
  obtain ⟨around, refers, below⟩ := h
  induction below using Relation.ReflTransGen.head_induction_on with
  | refl => exact .of_refers refers
  | head step _ ih =>
      rw [Tree.Below, same _ ih] at step
      exact ih.around step

theorem Solid.lt_of_stands (solid : p.Solid) (inside : ∀ id, n.Refers id → id < p.nextId)
    (h : p.Stands n id) : id < p.nextId := by
  obtain ⟨around, refers, below⟩ := h
  have last := inside around refers
  induction below using Relation.ReflTransGen.head_induction_on with
  | refl => exact last
  | head step _ ih => exact (solid _ ih).2 _ step

/-- Only the pieces that stand in the nodes count. -/
theorem Unfolds.of_stands (h : p.Unfolds own still d nodes ids ws)
    (same : ∀ n ∈ nodes, ∀ id, p.Stands n id → p'.get id = p.get id) :
    p'.Unfolds own still d nodes ids ws := by
  induction h with
  | nil => exact .nil
  | node other _ _ ihBelow ihLater =>
      obtain ⟨here, later⟩ := List.forall_mem_cons.1 same
      exact .node other (ihBelow fun c mem id stands => here id (stands.child mem)) (ihLater later)
  | piece isOwn moving compound _ _ ihBelow ihLater =>
      obtain ⟨here, later⟩ := List.forall_mem_cons.1 same
      have below := ihBelow fun c mem id stands => here id (stands.inside mem)
      rw [← here _ (.of_refers .piece)] at below compound ⊢
      exact .piece isOwn moving compound below (ihLater later)
  | still isOwn isStill compound _ calm _ ihBelow ihLater =>
      obtain ⟨here, later⟩ := List.forall_mem_cons.1 same
      have below := ihBelow fun c mem id stands => here id (stands.inside mem)
      rw [← here _ (.of_refers .piece)] at below compound calm ⊢
      exact .still isOwn isStill compound below calm (ihLater later)
  | other notOwn _ ih => exact .other notOwn (ih (List.forall_mem_cons.1 same).2)

end Pieces

theorem Enclosure.Holds.within_of_stands {C : Enclosure} {p : Pieces} {n : Node} {id : PieceId}
    (h : C.Holds p) (quoted : ∀ id, n.Refers id → C.Within p id) (stands : p.Stands n id) :
    C.Within p id := by
  obtain ⟨around, refers, below⟩ := stands
  have last := quoted around refers
  induction below using Relation.ReflTransGen.head_induction_on with
  | refl => exact last
  | head step _ ih => exact h.closed _ ih _ step

namespace Machine

variable {m : Machine} {e : ScopeId} {fragment w : Node} {d : Nat}

/-- A fragment without pieces stands for itself. -/
theorem Quotes.of_program (placed : m.Placed e) (free : ∀ id, ¬ fragment.Refers id) :
    m.Quotes e fragment fragment 0 where
  placed := placed
  tree := by
    refine ⟨fun _ => False, [], .self ?_, List.nodup_nil⟩
    exact List.forall_mem_singleton.2 fun id refers => absurd refers (free id)

theorem Apart.of_program (free : ∀ id, ¬ fragment.Refers id) : m.Apart e fragment := by
  intro serial node reached id stands
  obtain ⟨around, refers, -⟩ := stands
  exact absurd refers (free around)

/-- The quotations that can be reached from the scope, and the pieces in them. -/
def enclosed (m : Machine) (e : ScopeId) : Enclosure where
  known id := m.store.Reaches (.scope e) (.scope id)
  start := m.store.nextId
  first := m.pieces
  given id := ∃ serial node, m.store.Reaches (.scope e) (.value (.quote serial node)) ∧
    m.pieces.Stands node id

theorem Placed.sound (placed : m.Placed e) : (m.enclosed e).setting.Sound m where
  start_le := Nat.le_refl _
  pieces := by
    refine .start placed.solid ?_
    rintro id ⟨serial, node, reached, stands⟩ other refers
    exact ⟨serial, node, reached, stands.around refers⟩
  store := by
    refine Store.fits_of_reaches (fun _ => iff_of_eq (congrFun Allowed.at_start _)) fun v steps => ?_
    have here := placed.values v steps
    cases v with
    | function serial parameters body scope =>
        exact ⟨.inl (steps.tail .closure), fun _ _ => trivial, here⟩
    | quote serial node =>
        exact fun id refers => ⟨here id refers, fun _ => ⟨serial, node, steps, .of_refers refers⟩⟩
    | macroValue => exact ⟨fun _ _ => trivial, trivial⟩
    | _ => trivial

/-- After an evaluation in the scope, the fragment still stands for the tree. -/
theorem Quotes.evaluate (h : m.Quotes e fragment w d) (apart : m.Apart e fragment) (depth : Nat)
    {n : Node} (code : ∀ id, n.Refers id → id < m.pieces.nextId) :
    (finalState ((MonkeyLang.evaluate depth n e).run m)).Quotes e fragment w d ∧
      (finalState ((MonkeyLang.evaluate depth n e).run m)).Apart e fragment := by
  have ended := Settles.pure_iff.1 ((m.enclosed e).evaluate depth (.inl .refl) code h.placed.sound)
  obtain ⟨later, sound⟩ : (m.enclosed e).setting.Later m
      (finalState ((MonkeyLang.evaluate depth n e).run m)) ∧
      (m.enclosed e).setting.Sound (finalState ((MonkeyLang.evaluate depth n e).run m)) := by
    cases ran : (MonkeyLang.evaluate depth n e).run m with
    | ok | error =>
        rw [ran] at ended
        exact ⟨ended.1, ended.2.1⟩
  generalize finalState ((MonkeyLang.evaluate depth n e).run m) = m' at sound
  obtain ⟨still, ids, unfolds, once⟩ := h.tree
  have holds : (m.enclosed e).Holds m'.pieces := sound.pieces
  have inside {id : PieceId} (stands : m.pieces.Stands fragment id) : id < m.pieces.nextId :=
    h.placed.solid.lt_of_stands (unfolds.inside fragment (.head _)) stands
  have same (id : PieceId) (stands : m.pieces.Stands fragment id) :
      m'.pieces.get id = m.pieces.get id := by
    refine holds.same id (inside stands) ?_
    rintro ⟨serial, node, reached, within⟩
    exact apart serial node reached id stands within
  have fits {v : Value} (steps : m'.store.Reaches (.scope e) (.value v)) :
      v.Fits ((m.enclosed e).setting.limits m') :=
    sound.store.reaches (p := .scope e) (.inl .refl) steps
  refine ⟨⟨⟨holds.solid, fun v steps => ?_⟩, still, ids, ?_, once⟩, ?_⟩
  · cases v with
    | function => exact (Value.Fits.function_iff.1 (fits steps)).2.2
    | quote => exact fun id refers => (Value.Fits.quote_iff.1 (fits steps) id refers).1
    | _ => trivial
  · exact unfolds.of_stands (List.forall_mem_singleton.2 same)
  · intro serial node steps id stands within
    have stood := stands.of_same same
    have quoted := holds.within_of_stands (Value.Fits.quote_iff.1 (fits steps)) within
    obtain ⟨serial', node', reached, within'⟩ := quoted.2 (inside stood)
    exact apart serial' node' reached id stood within'

end Machine

/-! ## The quotation of a fragment -/

namespace Quote

/-- The pieces that have been made in copying. -/
def Copy (m : Machine) (p : Pieces) (id : PieceId) : Prop := m.pieces.nextId ≤ id ∧ id < p.nextId

/-- A quotation of the tree is made, with new pieces besides the own ones, and nothing else happens. -/
def Makes (own : PieceId → Prop) (w : Node) (m : Machine) (v : Value) (m' : Machine) : Prop :=
  ∃ node p, v = .quote m.nextSerial node ∧
    m' = { m with pieces := p, nextSerial := m.nextSerial + 1 } ∧ m.pieces.Extends p ∧
    p.Shows (fun id => own id ∨ m.pieces.nextId ≤ id) [node] [w]

/-- How the quotation of the tree `w` ends. Copies of its pieces are made; then the arguments of its
calls of `unquote` are evaluated in the order of substitution, and nothing else. What takes the place
of a call denotes the value of its argument. Either there comes a quotation of the tree that results,
or the first call that cannot be replaced is the end. -/
def Ends (run : Node → Eval Value) (w : Node) (m : Machine) : EStateM.Result Exit Machine Value → Prop
  | .ok v m' => ∃ p rs w' m₁, m.pieces.Extends p ∧ Substitutes [w] rs [w'] ∧
      Evaluations run (Copy m p) { m with pieces := p } rs m₁ ∧ Makes (Copy m p) w' m₁ v m'
  | .error exit m' => ∃ p rs arguments m₁, m.pieces.Extends p ∧ Stops [w] rs arguments ∧
      Evaluations run (Copy m p) { m with pieces := p } rs m₁ ∧
      Fails run (Copy m p) m₁ arguments exit m'

/-- The rewriting of a copy of the fragment. -/
def rewriting {m : Machine} {n n' : Node} {Met : PieceId → Prop} {ρ : PieceId → PieceId} {p : Pieces}
    (copied : Copied m.pieces n Met ρ p n') (e : ScopeId) (still : PieceId → Prop) : Rewriting where
  known id := m.store.Reaches (.scope e) (.scope id)
  start := m.store.nextId
  first := p
  own := Copy m p
  still copy := ∃ id, Met id ∧ still id ∧ ρ id = copy
  kept := Copy m p
  still_own := by
    rintro _ ⟨id, met, -, rfl⟩
    exact copied.new id met
  own_kept _ h := h
  kept_inside _ h := h.2

variable {m m' : Machine} {e : ScopeId} {n n' w : Node} {Met : PieceId → Prop} {p : Pieces}
  {ρ : PieceId → PieceId} {still : PieceId → Prop} {d depth : Nat}

theorem ready_rewriting (placed : m.Placed e) (inside : ∀ id, Met id → id < m.pieces.nextId)
    (copied : Copied m.pieces n Met ρ p n') :
    (rewriting copied e still).Ready { m with pieces := p } where
  start_le := Nat.le_refl _
  nextId_le := Nat.le_refl _
  still _ _ := rfl
  same _ isKept notOwn := absurd isKept notOwn
  solid := placed.solid.copied inside copied
  apart id notKept other refers isKept := by
    have here : id < p.nextId := Pieces.lt_nextId_of_refers refers
    have old : id < m.pieces.nextId := Nat.lt_of_not_le fun later => notKept ⟨later, here⟩
    change (p.get id).Refers other at refers
    rw [copied.old.get_eq id old] at refers
    exact Nat.not_le_of_lt ((placed.solid id old).2 other refers) isKept.1
  fits := by
    refine Store.fits_of_reaches (fun _ => iff_of_eq (congrFun Allowed.at_start _)) fun v steps => ?_
    have here := placed.values v steps
    have more {id : PieceId} (old : id < m.pieces.nextId) : id < p.nextId :=
      Nat.lt_of_lt_of_le old copied.old.nextId_le
    cases v with
    | function serial parameters body scope =>
        exact ⟨.inl (steps.tail .closure), fun _ _ => trivial, fun id refers => more (here id refers)⟩
    | quote serial node =>
        exact fun id refers => ⟨more (here id refers), fun kept => Nat.not_le_of_lt (here id refers) kept.1⟩
    | macroValue => exact ⟨fun _ _ => trivial, trivial⟩
    | _ => trivial

theorem run_mapM_singleton (f : Node → Eval Node) (n : Node) (m : Machine) :
    ([n].mapM f).run m =
      match (f n).run m with
      | .ok n' m' => .ok [n'] m'
      | .error exit m' => .error exit m' := by
  rw [List.mapM_cons]
  cases ran : (f n).run m with
  | ok n' m' =>
      rw [run_bind_of_ok ran]
      rfl
  | error exit m' => exact run_bind_of_exit ran

/-- The copy of the fragment is rewritten by substitution. -/
theorem rewrites (placed : m.Placed e) (inside : ∀ id, Met id → id < m.pieces.nextId)
    (copied : Copied m.pieces n Met ρ p (n.rename ρ)) {ids : List PieceId}
    (unfolds : m.pieces.Unfolds (fun _ => True) still d [n] ids [w]) (once : ids.Nodup)
    (shallow : d ≤ depth) :
    (rewriting copied e still).EndedOne (evaluate depth · e) d (ids.map ρ) w { m with pieces := p }
      (((n.rename ρ).transformM (unquote (evaluate depth · e) depth)).run { m with pieces := p }) := by
  have met : ∀ n' ∈ [n], ∀ id, n'.Refers id → Met id :=
    List.forall_mem_singleton.2 copied.refers
  obtain ⟨unfolds', listed⟩ := unfolds.copied copied met
  have ready : (rewriting copied e still).Ready { m with pieces := p } :=
    ready_rewriting placed inside copied
  have safe : (rewriting copied e still).Safe (evaluate depth · e) :=
    fun m n ready code => ready.evaluate .refl code depth
  have visited := Rewriting.visits safe unfolds'
    (once.map_on fun id mem id' mem' same =>
      copied.injective id id' (listed id mem) (listed id' mem') same)
    (List.forall_mem_map.2 fun id mem => copied.new id (listed id mem)) ready (fun _ _ => rfl) shallow
  rw [List.map_singleton, run_mapM_singleton] at visited
  cases ran : ((n.rename ρ).transformM (unquote (evaluate depth · e) depth)).run
      { m with pieces := p } with
  | ok n' m' =>
      rw [ran] at visited
      exact visited
  | error exit m' =>
      rw [ran] at visited
      exact visited

/-- The quotation of a fragment that stands for a tree is a substitution into the tree. -/
theorem run_quote (quotes : m.Quotes e n w d) (shallow : d ≤ depth) :
    Ends (evaluate depth · e) w m ((quote (evaluate depth · e) depth [n]).run m) := by
  obtain ⟨still, ids, unfolds, once⟩ := quotes.tree
  obtain ⟨Met, ρ, p, ran, inside, copied⟩ := run_copy quotes.placed.solid.isSealed
    (unfolds.inside n (.head _))
  have ended := rewrites quotes.placed inside copied unfolds once shallow
  rw [quote, run_bind_of_ok ran]
  cases visited : ((n.rename ρ).transformM (unquote (evaluate depth · e) depth)).run
      { m with pieces := p } with
  | error exit m' =>
      rw [visited] at ended
      rw [run_bind_of_exit visited]
      obtain ⟨rs, arguments, m₁, stops, evaluations, fails⟩ := ended.stops
      exact ⟨p, rs, arguments, m₁, copied.old, stops, evaluations, fails⟩
  | ok n₁ m₁ =>
      rw [visited] at ended
      rw [run_bind_of_ok visited]
      obtain ⟨rs, trees, ids', becomes, evaluations, -, unfolds₁⟩ := ended.becomes
      obtain ⟨w', rfl⟩ : ∃ w', trees = [w'] := List.length_eq_one_iff.1 becomes.length_eq
      have shown := unfolds₁.shows_.widen ended.ready.solid ended.refers
      obtain ⟨node, p', ran', more, shown'⟩ := run_newQuote
        (fun id (later : m₁.pieces.nextId ≤ id) => .inr later) (Nat.le_refl _) shown
      rw [ran']
      exact ⟨p, rs, w', m₁, copied.old, becomes, evaluations, node, p', rfl, rfl, more, shown'⟩

/-- Where nothing is replaced, only own pieces change. -/
theorem Evaluations.eq_of_nil {run : Node → Eval Value} {own : PieceId → Prop}
    (h : Evaluations run own m [] m') : ∃ p, m' = { m with pieces := p } ∧
      p.nextId = m.pieces.nextId ∧ ∀ id, ¬ own id → p.get id = m.pieces.get id := by
  generalize none : ([] : Replacements) = rs at h
  induction h with
  | @nil m => exact ⟨m.pieces, rfl, rfl, fun _ _ => rfl⟩
  | rewrite size same _ ih =>
      obtain ⟨p, rfl, size', same'⟩ := ih none
      exact ⟨p, rfl, size'.trans size, fun id notOwn => (same' id notOwn).trans (same id notOwn)⟩
  | evaluate => cases none

/-- In the quotation of a tree without calls of `unquote` nothing is evaluated. -/
theorem Ends.of_none {run : Node → Eval Value} {r : EStateM.Result Exit Machine Value}
    (h : Ends run w m r) (none : w.Everywhere fun n => n.unquotes? = none) :
    ∃ v m', r = .ok v m' ∧ Makes (fun _ => False) w m v m' := by
  have all := List.forall_mem_singleton.2 none
  cases r with
  | error exit m' =>
      obtain ⟨p, rs, arguments, m₁, -, stops, -, -⟩ := h
      exact absurd all stops.exists_call
  | ok v m' =>
      obtain ⟨p, rs, w', m₁, old, becomes, evaluations, made⟩ := h
      obtain ⟨rfl, same⟩ := becomes.of_none all
      cases same
      obtain ⟨p₁, rfl, size, kept⟩ := evaluations.eq_of_nil
      obtain ⟨node, p', rfl, rfl, more, shown⟩ := made
      have old₁ : m.pieces.Extends p₁ := by
        refine ⟨size ▸ old.nextId_le, fun id inside => ?_⟩
        exact (kept id fun copy => Nat.not_le_of_lt inside copy.1).trans (old.get_eq id inside)
      refine ⟨_, _, rfl, node, p', rfl, rfl, old₁.trans more, ?_⟩
      have later : (fun id => Copy m p id ∨ p₁.nextId ≤ id) =
          fun id => False ∨ m.pieces.nextId ≤ id := by
        funext id
        have copies := old.nextId_le
        rw [size]
        refine propext ⟨fun own => .inr (own.elim And.left (Nat.le_trans copies)), fun own => ?_⟩
        rcases Nat.lt_or_ge id p.nextId with inside | outside
        · exact .inl ⟨own.resolve_left not_false, inside⟩
        · exact .inr outside
      exact cast (congrArg (fun own => p'.Shows own [node] [_]) later) shown

end Quote

/-- The quotation of a fragment is a substitution into the tree that it stands for: the calls of
`unquote` are replaced in their order, each when its argument has been rewritten and evaluated in the
scope, once, and nothing else is evaluated. The first call that cannot be replaced is the end of it:
if there is not one argument, if its evaluation ends in an exit, or if its value is a fault, of a kind
that has no literal, or an integer with too many digits. Where there is no call, the quotation is one
of the tree itself, and nothing is evaluated. A literal that is put in evaluates to its value in every
scope. If no piece in the fragment stands in a quotation that can be reached from the scope, then after
any evaluation in the scope, that of the quotation included, the fragment stands for the same tree as
before, and this is so again. -/
theorem quote_substitutes {m : Machine} {e : ScopeId} {fragment w : Node} {d : Nat}
    (quotes : m.Quotes e fragment w d) :
    (∀ t u, ∀ depth ≥ d, Quote.Ends (evaluate depth · e) w m
      ((evaluate (depth + 1) (.call t (.ident u Quote.quoteName) [fragment]) e).run m)) ∧
    (w.Everywhere (fun n => n.unquotes? = none) → ∀ t u, ∀ depth ≥ d, ∃ v m',
      (evaluate (depth + 1) (.call t (.ident u Quote.quoteName) [fragment]) e).run m = .ok v m' ∧
        Quote.Makes (fun _ => False) w m v m') ∧
    (∀ v new, Value.Denotes v new → v.kind ≠ .quote → v.isOrdinary = true → ∀ depth scope m',
      (evaluate (depth + 1) new scope).run m' = .ok v m') ∧
    (m.Apart e fragment → ∀ depth n, (∀ id, n.Refers id → id < m.pieces.nextId) →
      (finalState ((evaluate depth n e).run m)).Quotes e fragment w d ∧
        (finalState ((evaluate depth n e).run m)).Apart e fragment) := by
  refine ⟨fun t u depth shallow => ?_, fun none t u depth shallow => ?_,
    fun v new denotes literal ordinary depth scope m' => ?_, fun apart depth n code => ?_⟩
  · exact Quote.run_quote quotes shallow
  · exact (Quote.run_quote quotes shallow).of_none none
  · exact Quote.evaluate_of_denotes denotes literal ordinary depth scope m'
  · exact quotes.evaluate apart depth code

theorem Machine.placed_single {name : Text} {v : Value}
    (alone : ∀ (s : Store) q, ¬ s.Leads (.value v) q) (here : v.Placed .empty) :
    (Machine.empty.enter none [(name, v)]).Placed 0 where
  solid := fun id inside => absurd inside (Nat.not_lt_zero id)
  values w steps := by
    rw [Store.reaches_single rfl (alone _) steps]
    exact here

/-- Of `[unquote(n), n]` there comes a quotation of `[7, n]`, and it is the same a second time. -/
theorem quote_substitutes_array :
    let m := Machine.empty.enter none [("n", .int 7)]
    let tree : Node := .array none
      [.call none (.ident none Quote.unquoteName) [.ident none "n"], .ident none "n"]
    let quotation : Node := .call none (.ident none Quote.quoteName) [tree]
    let again := finalState ((evaluate 3 quotation 0).run m)
    m.Quotes 0 tree tree 0 ∧ m.Apart 0 tree ∧
      Quote.Ends (evaluate 2 · 0) tree m ((evaluate 3 quotation 0).run m) ∧
      Quote.Ends (evaluate 2 · 0) tree again ((evaluate 3 quotation 0).run again) := by
  intro m tree quotation again
  have placed : m.Placed 0 := Machine.placed_single (fun s q step => by cases step) trivial
  have leaf (name : Text) : ∀ id, ¬ (Node.ident none name).Refers id :=
    Node.not_refers_of_not_isCompound rfl rfl
  have above {n l r : Node} (other : n.isPiece = false) (children : n.children = [l, r])
      (left : ∀ id, ¬ l.Refers id) (right : ∀ id, ¬ r.Refers id) : ∀ id, ¬ n.Refers id := by
    refine Node.not_refers_of_children other ?_
    rw [children]
    exact List.forall_mem_cons.2 ⟨left, List.forall_mem_singleton.2 right⟩
  have free : ∀ id, ¬ tree.Refers id := above rfl rfl (above rfl rfl (leaf _) (leaf _)) (leaf _)
  have quotes : m.Quotes 0 tree tree 0 := .of_program placed free
  have apart : m.Apart 0 tree := .of_program free
  have code : ∀ id, ¬ quotation.Refers id := above rfl rfl (leaf _) free
  obtain ⟨ends, -, -, lasts⟩ := quote_substitutes quotes
  obtain ⟨quotesAgain, -⟩ := lasts apart 3 quotation fun id refers => absurd refers (code id)
  obtain ⟨endsAgain, -⟩ := quote_substitutes quotesAgain
  exact ⟨quotes, apart, ends none none 2 (Nat.zero_le _), endsAgain none none 2 (Nat.zero_le _)⟩

/-- An integer with too many digits is the value of the argument, but there comes neither a quotation
nor a fault. -/
theorem overlong_integer_not_put_in :
    let m := Machine.empty.enter none [("n", .int Decimal.limit)]
    let unquotation : Node := .call none (.ident none Quote.unquoteName) [.ident none "n"]
    ((evaluate 1 (.ident none "n") 0).outcome m).1 = .ok (.value (.int Decimal.limit)) ∧
      ((evaluate 2 (.call none (.ident none Quote.quoteName) [unquotation]) 0).outcome m).1 =
        .error .overlong := by
  intro m unquotation
  refine ⟨?_, quotation_overlong (Decimal.isOverlong_of_le (Nat.le_refl Decimal.limit)) 0⟩
  have found : m.store.lookup 0 "n" = some (.int Decimal.limit) := by
    rw [Store.lookup]
    rfl
  have read : (MonadState.get : Eval Machine).run m = .ok m m := rfl
  rw [Eval.outcome, evaluate, Eval.form, Eval.name, run_bind_of_ok read, found]
  rfl

end MonkeyLang
