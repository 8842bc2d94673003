import MonkeyLang.Proofs.Expansion.Course
import MonkeyLang.Proofs.Quotation.Substituted
import MonkeyLang.Proofs.Quotation.Wrapped

/-!
# Templates

A macro whose body quotes a tree, and unquotes nothing in it but parameters, is a template: a call of it
is replaced by the tree with the arguments in the places of the parameters. The arguments are put in as
they stand.

* `Node.instantiate` puts trees in the places of parameters.
* `Expansion.Template` says of a macro that it is a template.
* `Expansion.run_step_of_template` says what becomes of a call, in any machine.
* `template_macros_substitute` is the result for the expansions of programs.
-/

namespace MonkeyLang

/-! ## Trees with places for others -/

namespace Node

/-- The name that the node unquotes. -/
def unquotedName? : Node → Option Text
  | .call _ (.ident _ name) [.ident _ parameter] =>
    if name = Quote.unquoteName then some parameter else none
  | _ => none

/-- The tree with other trees in the places where names are unquoted. -/
def instantiate (assigned : Text → Node) (n : Node) : Node :=
  match n.unquotedName? with
  | some name => assigned name
  | none => n.withChildren (n.children.attach.map fun c => c.1.instantiate assigned)
termination_by sizeOf n
decreasing_by exact sizeOf_children c.2

/-- A call of `unquote` at the node unquotes one of the names, and is not itself called. -/
structure IsTemplate (names : List Text) (n : Node) : Prop where
  unquotes : ∀ arguments, n.unquotes? = some arguments →
    ∃ u name, arguments = [.ident u name] ∧ name ∈ names
  callee : ∀ t callee arguments, n = .call t callee arguments → callee.unquotes? = none

variable {assigned assigned' : Text → Node} {names : List Text} {n : Node}

theorem instantiate_of_some {name : Text} (h : n.unquotedName? = some name) :
    n.instantiate assigned = assigned name := by
  rw [instantiate, h]

theorem instantiate_of_none (h : n.unquotedName? = none) :
    n.instantiate assigned = n.withChildren (n.children.map (instantiate assigned)) := by
  rw [instantiate, h, List.attach_map_val (f := instantiate assigned)]

theorem unquotedName?_of_unquotes? {u : Option Token} {name : Text}
    (h : n.unquotes? = some [.ident u name]) : n.unquotedName? = some name := by
  obtain ⟨t, u', rfl⟩ := eq_call_of_unquotes? h
  simp [unquotedName?]

theorem unquotedName?_of_none (h : n.unquotes? = none) : n.unquotedName? = none := by
  unfold unquotedName?
  split
  · next name _ _ =>
    rw [if_neg]
    rintro rfl
    simp [unquotes?] at h
  · rfl

/-- A node of a template unquotes a name, or calls no `unquote`. -/
theorem IsTemplate.cases (h : n.IsTemplate names) :
    (∃ u name, name ∈ names ∧ n.unquotes? = some [.ident u name] ∧ n.unquotedName? = some name) ∨
      n.unquotes? = none ∧ n.unquotedName? = none := by
  cases unquotes : n.unquotes? with
  | none => exact .inr ⟨rfl, unquotedName?_of_none unquotes⟩
  | some arguments =>
      obtain ⟨u, name, rfl, mem⟩ := h.unquotes arguments unquotes
      exact .inl ⟨u, name, mem, rfl, unquotedName?_of_unquotes? unquotes⟩

/-- A node of a template does not come to call `unquote` when its children are instantiated. -/
theorem IsTemplate.unquotes?_instantiate (h : n.IsTemplate names) (other : n.unquotes? = none) :
    (n.withChildren (n.children.map (instantiate assigned))).unquotes? = none := by
  cases n with
  | call t callee arguments =>
      have same : callee.instantiate assigned = _ := instantiate_of_none
        (unquotedName?_of_none (h.callee t callee arguments rfl))
      have head := callee.heads_withChildren (callee.children.map (instantiate assigned))
      rw [← same] at head
      change (call t (callee.instantiate assigned) (arguments.map _)).unquotes? = none
      cases instantiated : callee.instantiate assigned with
      | ident u name =>
          rw [head u name instantiated] at other
          simpa [unquotes?] using other
      | _ => rfl
  | _ =>
      unfold withChildren
      split <;> first | rfl | simp_all

end Node

theorem Node.rename_of_free {ρ : PieceId → PieceId} {n : Node} (free : ∀ id, ¬ n.Refers id) :
    n.rename ρ = n := by
  induction n using Node.childInduction with
  | step n ih =>
      have children : n.children.map (Node.rename ρ) = n.children.map id :=
        List.map_congr_left fun c mem => ih c mem fun id refers => free id (.child mem refers)
      rw [Node.rename_eq (Node.isPiece_of_free free), children, List.map_id, Node.withChildren_children]

namespace Quote

variable {run : Node → Eval Value} {m : Machine} {n : Node} {names : List Text}
  {assigned : Text → Node}

theorem run_transformM_unquote_of_none {ns : List Node} {m₁ : Machine} {d : Nat}
    (other : n.isPiece = false)
    (below : (n.children.mapM (Node.transformM (unquote run d))).run m = .ok ns m₁)
    (none : (n.withChildren ns).unquotes? = none) :
    (n.transformM (unquote run d)).run m = .ok (n.withChildren ns) m₁ := by
  rw [Node.transformM_eq, run_bind_of_ok below,
    Eval.Setting.giveM_unquote (by rw [Node.isPiece_withChildren, other]), substitute?_of_none _ none]
  rfl

/-- Where the names are bound to quotations, a template is rewritten to what it is with the quoted trees
in their places. -/
theorem run_transformM_template (template : n.Everywhere (Node.IsTemplate names))
    (free : ∀ id, ¬ n.Refers id)
    (bound : ∀ u, ∀ name ∈ names, ∃ serial,
      (run (.ident u name)).run m = .ok (.quote serial (assigned name)) m) (d : Nat) :
    (n.transformM (unquote run d)).run m = .ok (n.instantiate assigned) m := by
  have leaf (u : Option Token) (name : Text) :
      ((Node.ident u name).transformM (unquote run d)).run m = .ok (.ident u name) m :=
    run_transformM_unquote_of_none rfl rfl rfl
  induction template with
  | @mk n here below ih =>
      have other := Node.isPiece_of_free free
      rcases here.cases with ⟨u, name, mem, unquotes, named⟩ | ⟨none, unnamed⟩
      · obtain ⟨serial, ran⟩ := bound u name mem
        obtain ⟨t, u', rfl⟩ := Node.eq_call_of_unquotes? unquotes
        let call : Node := .call t (.ident u' unquoteName) [.ident u name]
        have children : (call.children.mapM (Node.transformM (unquote run d))).run m =
            .ok call.children m :=
          run_mapM_of_idle (List.forall_mem_cons.2 ⟨leaf _ _, List.forall_mem_singleton.2 (leaf _ _)⟩)
        have spliced : (splice run [.ident u name]).run m = .ok (assigned name) m := by
          rw [run_splice, ran]
          rfl
        rw [Node.instantiate_of_some named, Node.transformM_eq, run_bind_of_ok children,
          Node.withChildren_children, Eval.Setting.giveM_unquote rfl, substitute?_call,
          map_eq_pure_bind, bind_assoc, run_bind_of_ok spliced]
        rfl
      · have children : (n.children.mapM (Node.transformM (unquote run d))).run m =
            .ok (n.children.map (Node.instantiate assigned)) m :=
          run_mapM_of_still fun c mem => ih c mem fun id refers => free id (.child mem refers)
        rw [Node.instantiate_of_none unnamed]
        exact run_transformM_unquote_of_none other children (here.unquotes?_instantiate none)

end Quote

theorem Pieces.Shows.of_forall₂ {p : Pieces} {own : PieceId → Prop} {nodes ws : List Node}
    (h : List.Forall₂ (fun n w => p.Shows own [n] [w]) nodes ws) : p.Shows own nodes ws := by
  induction h with
  | nil => exact .nil
  | cons first _ ih => exact cons_iff.2 ⟨first, ih⟩

/-- Instantiated with nodes that are shown as trees, a template is shown as itself with the trees. -/
theorem Pieces.Shows.instantiate {p : Pieces} {own : PieceId → Prop} {n : Node} {names : List Text}
    {assigned assigned' : Text → Node} (template : n.Everywhere (Node.IsTemplate names))
    (free : ∀ id, ¬ n.Refers id)
    (each : ∀ name ∈ names, p.Shows own [assigned name] [assigned' name]) :
    p.Shows own [n.instantiate assigned] [n.instantiate assigned'] := by
  induction template with
  | @mk n here _ ih =>
      rcases here.cases with ⟨u, name, mem, -, named⟩ | ⟨-, unnamed⟩
      · rw [Node.instantiate_of_some named, Node.instantiate_of_some named]
        exact each name mem
      · have children : p.Shows own (n.children.map (Node.instantiate assigned))
            (n.children.map (Node.instantiate assigned')) := by
          refine .of_forall₂ (List.forall₂_map_left_iff.2 (List.forall₂_map_right_iff.2 ?_))
          exact List.forall₂_same.2 fun c mem => ih c mem fun id refers => free id (.child mem refers)
        rw [Node.instantiate_of_none unnamed, Node.instantiate_of_none unnamed]
        exact children.rebuild (Node.isPiece_of_free free) (List.length_map _)

/-! ## Calls -/

/-- A table of different keys is what comes of their insertion. -/
theorem Assoc.get?_ofList {κ α : Type} [DecidableEq κ] {entries : List (κ × α)}
    (distinct : (entries.map Prod.fst).Nodup) (key : κ) :
    (Assoc.ofList entries).get? key = Assoc.get? key entries := by
  have general (table : Assoc κ α) :
      (entries.foldl (fun table entry => table.insert entry.1 entry.2) table).get? key =
        (Assoc.get? key entries).or (table.get? key) := by
    induction entries generalizing table with
    | nil => rfl
    | cons entry entries ih =>
        obtain ⟨k, v⟩ := entry
        obtain ⟨fresh, distinct⟩ := List.nodup_cons.1 distinct
        rw [List.foldl_cons, ih distinct, Assoc.get?_insert, Assoc.get?]
        split
        · next same =>
          subst same
          have none : Assoc.get? k entries = none := by
            cases found : Assoc.get? k entries with
            | none => rfl
            | some v => exact absurd (List.mem_map_of_mem (Assoc.mem_of_get? found)) fresh
          rw [none]
          rfl
        · rfl
  exact (general []).trans Option.or_none

namespace Expansion

/-- The trees that stand for the parameters. -/
def assigned (parameters : List Node) (trees : List Node) (name : Text) : Node :=
  (Assoc.get? name ((parameters.map Node.boundName).zip trees)).getD .missing

/-- The macro with these parameters and this body quotes a tree, in which it unquotes none but
parameters. -/
structure Template (parameters : List Node) (body tree : Node) : Prop where
  body : ∃ t t' t'' u,
    body = .block t [.exprStmt t' (.call t'' (.ident u Quote.quoteName) [tree])]
  distinct : (parameters.map Node.boundName).Nodup
  free : ∀ id, ¬ tree.Refers id
  nodes : tree.Everywhere (Node.IsTemplate (parameters.map Node.boundName))

variable {own : PieceId → Prop} {m : Machine} {arguments trees : List Node}

/-- The value quotes the tree. -/
def Quotes (p : Pieces) (own : PieceId → Prop) (v : Value) (tree : Node) : Prop :=
  ∃ serial node, v = .quote serial node ∧ p.Shows own [node] [tree]

/-- Arguments are quoted as they stand. -/
theorem run_newQuotes (later : ∀ id ≥ m.pieces.nextId, own id)
    (shown : m.pieces.Shows own arguments trees) :
    ∃ values p serials, (arguments.mapM Eval.newQuote).run m =
        .ok values { m with pieces := p, nextSerial := serials } ∧
      m.pieces.Extends p ∧ List.Forall₂ (Quotes p own) values trees := by
  induction arguments generalizing m trees with
  | nil =>
      cases shown
      exact ⟨[], m.pieces, m.nextSerial, rfl, .refl, .nil⟩
  | cons argument arguments ih =>
      cases trees with
      | nil => cases shown.length_eq
      | cons tree trees =>
          obtain ⟨first, others⟩ := Pieces.Shows.cons_iff.1 shown
          obtain ⟨node, p, ran, more, shown₁⟩ := Quote.run_newQuote later (Nat.le_refl _) first
          obtain ⟨values, p', serials, ran', more', quotes⟩ :=
            ih (m := { m with pieces := p, nextSerial := m.nextSerial + 1 })
              (fun id above => later id (Nat.le_trans more.nextId_le above)) (others.of_extends more)
          refine ⟨.quote m.nextSerial node :: values, p', serials, ?_, more.trans more', .cons ?_ quotes⟩
          · rw [List.mapM_cons, run_bind_of_ok ran, run_bind_of_ok ran']
            rfl
          · exact ⟨m.nextSerial, node, rfl, shown₁.of_extends more'⟩

/-- The tree that is quoted by the value of a name. -/
def quotedBy (names : List Text) (values : List Value) (name : Text) : Node :=
  match Assoc.get? name (names.zip values) with
  | some (.quote _ node) => node
  | _ => .missing

theorem exists_quote {p : Pieces} {values : List Value} {names : List Text}
    (quotes : List.Forall₂ (Quotes p own) values trees) (arity : names.length = values.length)
    {name : Text} (mem : name ∈ names) :
    (∃ serial, Assoc.get? name (names.zip values) = some (.quote serial (quotedBy names values name))) ∧
      p.Shows own [quotedBy names values name]
        [(Assoc.get? name (names.zip trees)).getD .missing] := by
  induction quotes generalizing names with
  | nil =>
      rw [List.length_eq_zero_iff.1 arity] at mem
      cases mem
  | @cons v tree values trees quotes _ ih =>
      cases names with
      | nil => cases mem
      | cons first names =>
          obtain ⟨serial, node, rfl, shown⟩ := quotes
          unfold quotedBy
          rw [List.zip_cons_cons, List.zip_cons_cons, Assoc.get?, Assoc.get?]
          by_cases same : first = name
          · rw [if_pos same, if_pos same]
            exact ⟨⟨serial, rfl⟩, shown⟩
          · rw [if_neg same, if_neg same]
            have later := (List.mem_cons.1 mem).resolve_left fun eq => same eq.symm
            exact ih (Nat.succ.inj arity) later

/-- In a new scope a parameter comes to the argument that it is bound to. -/
theorem run_parameter {parameters : List Node} {values : List Value} {serial : Nat} {node : Node}
    {name : Text} (distinct : (parameters.map Node.boundName).Nodup)
    (arity : (parameters.map Node.boundName).length = values.length)
    (found : Assoc.get? name ((parameters.map Node.boundName).zip values) = some (.quote serial node))
    (scope : ScopeId) (p : Pieces) (u : Option Token) (depth : Nat) :
    let m₁ := { m.enter (some scope) (Eval.arguments parameters values) with pieces := p }
    (evaluate (depth + 1) (.ident u name) m.store.nextId).run m₁ = .ok (.quote serial node) m₁ := by
  intro m₁
  have keys : (((parameters.map Node.boundName).zip values).map Prod.fst).Nodup := by
    rwa [List.map_fst_zip arity.le]
  have bindings : (m₁.store.scope m.store.nextId).bindings = Eval.arguments parameters values := by
    change ((m.store.enter _ _).scope _).bindings = _
    rw [Store.scope_enter, if_pos rfl]
  have bound : m₁.store.lookup m.store.nextId name = some (.quote serial node) := by
    rw [Store.lookup, bindings, Eval.arguments, Assoc.get?_ofList keys, found]
  have read : (MonadState.get : Eval Machine).run m₁ = .ok m₁ m₁ := rfl
  rw [evaluate, Eval.form, Eval.name, run_bind_of_ok read, bound]
  rfl

/-- Where names come to quotations, the quotation of a template is one of it with the quoted trees in
their places. -/
theorem run_quote_of_template (run : Node → Eval Value) {names : List Text} {tree w : Node}
    {σ : Text → Node} (nodes : tree.Everywhere (Node.IsTemplate names))
    (free : ∀ id, ¬ tree.Refers id)
    (bound : ∀ p u, ∀ name ∈ names, ∃ serial, (run (.ident u name)).run { m with pieces := p } =
      .ok (.quote serial (σ name)) { m with pieces := p })
    (later : ∀ id ≥ m.pieces.nextId, own id) (shown : m.pieces.Shows own [tree.instantiate σ] [w])
    (d : Nat) :
    ∃ node p serials, (Quote.quote run d [tree]).run m =
        .ok (.quote m.nextSerial node) { m with pieces := p, nextSerial := serials } ∧
      m.pieces.Extends p ∧ p.Shows own [node] [w] := by
  obtain ⟨Met, ρ, p, copied, -, isCopy⟩ := Quote.run_copy (m := m) (n := tree) (R := fun _ => False)
    ⟨nofun, nofun, nofun⟩ free
  rw [Node.rename_of_free free] at copied
  have rewritten := Quote.run_transformM_template nodes free (bound p) d
  obtain ⟨node, p', quoted, more, shown'⟩ := Quote.run_newQuote (m := { m with pieces := p })
    (fun id above => later id (Nat.le_trans isCopy.old.nextId_le above)) (Nat.le_refl _)
    (shown.of_extends isCopy.old)
  refine ⟨node, p', m.nextSerial + 1, ?_, isCopy.old.trans more, shown'⟩
  rw [Quote.quote, run_bind_of_ok copied, run_bind_of_ok rewritten]
  exact quoted

theorem run_body_of_template {parameters : List Node} {body tree : Node} {depth : Nat}
    (template : Template parameters body tree) (arity : parameters.length = arguments.length)
    (later : ∀ id ≥ m.pieces.nextId, own id) (shown : m.pieces.Shows own arguments trees)
    (enough : 4 ≤ depth) (scope : ScopeId) :
    ∃ serial node m', (Expansion.body depth parameters body scope arguments).run m =
        .ok (.quote serial node) m' ∧ m.Extends m' ∧ m'.events = m.events ∧
      m'.pieces.Shows own [node] [tree.instantiate (assigned parameters trees)] := by
  obtain ⟨d, rfl⟩ := Nat.exists_eq_add_of_le' enough
  obtain ⟨t, t', t'', u, rfl⟩ := template.body
  obtain ⟨values, p₁, serials, quoted, more₁, quotes⟩ := run_newQuotes later shown
  have same : (parameters.map Node.boundName).length = values.length := by
    rw [List.length_map, arity, quotes.length_eq, shown.length_eq]
  let m₁ : Machine := { m with pieces := p₁, nextSerial := serials }
  let m₂ := m₁.enter (some scope) (Eval.arguments parameters values)
  have opened : (Eval.newScope scope (Eval.arguments parameters values)).run m₁ =
      .ok m.store.nextId m₂ := rfl
  have shown₂ := Pieces.Shows.instantiate template.nodes template.free fun name mem =>
    (exists_quote quotes same mem).2
  obtain ⟨node, p, serials', ran, more, shown'⟩ := run_quote_of_template (m := m₂)
    (evaluate (d + 1) · m.store.nextId) template.nodes template.free
    (fun p u name mem => by
      obtain ⟨⟨serial, found⟩, -⟩ := exists_quote quotes same mem
      exact ⟨serial, run_parameter template.distinct same found scope p u d⟩)
    (fun id above => later id (Nat.le_trans more₁.nextId_le above)) shown₂ (d + 1)
  refine ⟨_, node, _, (run_bind_of_ok quoted).trans ((run_bind_of_ok opened).trans ran),
    ⟨.enter, more₁.trans more⟩, rfl, shown'⟩

/-- A call of a template with the right number of arguments is replaced by the tree with the arguments
in the places of the parameters, whatever the machine is. Nothing is printed, and nothing that there was
is changed. -/
theorem run_step_of_template {e scope : ScopeId} {t u : Option Token} {name : Text}
    {serial depth : Nat} {parameters : List Node} {body tree : Node}
    (found : m.store.lookup e name = some (.macroValue serial parameters body scope))
    (template : Template parameters body tree) (arity : parameters.length = arguments.length)
    (later : ∀ id ≥ m.pieces.nextId, own id) (shown : m.pieces.Shows own arguments trees)
    (enough : 4 ≤ depth) :
    ∃ result m', (step depth e (.call t (.ident u name) arguments)).run m = .ok result m' ∧
      m.Extends m' ∧ m'.printed = m.printed ∧
      m'.pieces.Shows own [result] [tree.instantiate (assigned parameters trees)] := by
  obtain ⟨serial', node, m₁, ran, more, events, shown'⟩ :=
    run_body_of_template template arity later shown enough scope
  have outcome : (Expand.outcome (Expansion.body depth parameters body scope arguments)).run m =
      .ok (.value (.quote serial' node)) m₁ := by
    rw [Expand.run_outcome, ran]
    rfl
  have replaced : (replacement depth name parameters body scope arguments).run m = .ok node m₁ := by
    rw [replacement, if_neg (not_not_intro arity), run_bind_of_ok outcome]
    rfl
  rw [run_step_of_some found, run_bind_of_ok replaced]
  refine ⟨node, _, rfl, ⟨more.store, more.pieces⟩, ?_, shown'⟩
  have silent (m : Machine) (r : Remark) : (m.remark r).printed = m.printed := by
    simp [Machine.remark, Machine.emit, Machine.printed]
  exact (silent _ _).trans (by rw [Machine.printed, events]; rfl)

end Expansion

/-! ## Programs -/

/-- What takes the place of a node, if it calls one of the templates. -/
def Node.replaceCall (templates : Text → Option (List Node × Node)) : Node → Node
  | .call t (.ident u name) arguments =>
    match templates name with
    | some (parameters, tree) => tree.instantiate (Expansion.assigned parameters arguments)
    | none => .call t (.ident u name) arguments
  | n => n

/-- The tree with all calls of templates replaced, inner ones before outer ones. -/
def Node.expandWith (templates : Text → Option (List Node × Node)) (n : Node) : Node :=
  (n.withChildren (n.children.attach.map fun c => c.1.expandWith templates)).replaceCall templates
termination_by sizeOf n
decreasing_by exact sizeOf_children c.2

theorem Node.expandWith_eq (templates : Text → Option (List Node × Node)) (n : Node) :
    n.expandWith templates =
      (n.withChildren (n.children.map (expandWith templates))).replaceCall templates := by
  rw [expandWith, List.attach_map_val (f := expandWith templates)]

/-- All macros in the scope are templates: these ones. -/
def Store.Templates (s : Store) (e : ScopeId) (templates : Text → Option (List Node × Node)) :
    Prop :=
  ∀ name, match s.lookup e name with
    | some (.macroValue _ parameters body _) =>
      ∃ tree, templates name = some (parameters, tree) ∧ Expansion.Template parameters body tree
    | _ => templates name = none

namespace Pieces.Shows

variable {p : Pieces} {own : PieceId → Prop} {n w : Node} {t u : Option Token} {name : Text}
  {arguments ws : List Node}

/-- A call of a name is shown as one. -/
theorem call (h : p.Shows own [.call t (.ident u name) arguments] [w]) :
    ∃ ws, w = .call t (.ident u name) ws ∧ p.Shows own arguments ws := by
  cases h with
  | node _ below none =>
      cases below with
      | node _ inner later =>
          cases inner
          exact ⟨_, rfl, later⟩

/-- What is shown as a call of a name is one. -/
theorem of_call (h : p.Shows own [n] [.call t (.ident u name) ws]) (other : n.isPiece = false) :
    ∃ arguments, n = .call t (.ident u name) arguments ∧ p.Shows own arguments ws := by
  generalize same : Node.call t (.ident u name) ws = w at h
  cases h with
  | piece | other => cases other
  | @node _ _ ws' _ _ below _ =>
      cases n with
      | call t' callee arguments =>
          cases ws' with
          | nil => cases below.length_eq
          | cons w ws' =>
              obtain ⟨first, later⟩ := cons_iff.1 below
              cases same
              rw [(first.ident_iff u name).2 rfl]
              exact ⟨arguments, rfl, later⟩
      | _ =>
          unfold Node.withChildren at same
          split at same <;> simp_all

end Pieces.Shows

theorem Store.Templates.extend {m m' : Machine} {e : ScopeId}
    {templates : Text → Option (List Node × Node)} (h : m.store.Templates e templates)
    (has : m.HasMacros e) (more : m.Extends m') : m'.store.Templates e templates := by
  intro name
  rw [has.lookup_eq more]
  exact h name

namespace Expansion

variable {depth : Nat} {e : ScopeId} {m m' : Machine} {nodes nodes' : List Node} {calls : List Call}

/-- A call is replaced only if it has the right number of arguments. -/
theorem arity_of_run_step {t u : Option Token} {name : Text} {arguments parameters : List Node}
    {serial : Nat} {body result : Node} {scope : ScopeId}
    (found : m.store.lookup e name = some (.macroValue serial parameters body scope))
    (ran : (step depth e (.call t (.ident u name) arguments)).run m = .ok result m') :
    parameters.length = arguments.length := by
  rw [run_step_of_some found] at ran
  obtain ⟨node, m₁, replaced, -⟩ := exists_of_run_bind ran
  by_contra other
  rw [replacement, if_pos other] at replaced
  cases replaced

/-- What holds of the machine and of a call before the call is replaced. -/
theorem Course.each (h : Course depth e nodes m calls nodes' m') (has : m.HasMacros e)
    (free : ∀ n ∈ nodes, ∀ id, ¬ n.Refers id) :
    ∀ call ∈ calls, call.before.HasMacros e ∧
      (∀ id, call.node.Refers id → id < call.before.pieces.nextId) ∧
      (step depth e call.node).run call.before = .ok call.result call.after := by
  induction h with
  | nil => exact nofun
  | @stays n _ ns _ _ _ _ m₁ m₂ below other later ihBelow ihLater =>
      obtain ⟨freeHere, freeLater⟩ := List.forall_mem_cons.1 free
      have freeBelow := Node.free_children freeHere
      obtain ⟨-, has₁, -⟩ := below.extends_ has freeBelow
      exact List.forall_mem_append.2 ⟨ihBelow has freeBelow, ihLater has₁ freeLater⟩
  | @replaced n result _ ns _ _ _ _ m₁ m₂ m₃ below called ran later ihBelow ihLater =>
      obtain ⟨freeHere, freeLater⟩ := List.forall_mem_cons.1 free
      have freeBelow := Node.free_children freeHere
      obtain ⟨-, has₁, inside⟩ := below.extends_ has freeBelow
      obtain ⟨-, has₂, -⟩ :=
        (below.one_replaced called ran).extends_ has (List.forall_mem_singleton.2 freeHere)
      refine List.forall_mem_append.2 ⟨ihBelow has freeBelow,
        List.forall_mem_cons.2 ⟨⟨has₁, fun id refers => ?_, ran⟩, ihLater has₂ freeLater⟩⟩
      obtain ⟨c, mem, refers⟩ :=
        (Node.refers_withChildren (Node.isPiece_of_free freeHere) below.length_eq).1 refers
      exact inside c mem id refers

variable {templates : Text → Option (List Node × Node)} {n w result : Node}

/-- A node that calls no macro is shown as one that calls no template. -/
theorem replaceCall_of_shows {p : Pieces} {own : PieceId → Prop} (all : m.store.Templates e templates)
    (notPiece : n.isPiece = false) (shown : p.Shows own [n] [w])
    (other : m.store.macroFor? e n = none) : w.replaceCall templates = w := by
  unfold Node.replaceCall
  split
  · next t u name ws =>
    obtain ⟨arguments, rfl, -⟩ := shown.of_call notPiece
    have bound := all name
    unfold Store.macroFor? at other
    dsimp only at other
    generalize m.store.lookup e name = v at bound other
    split at other
    · cases other
    · next unbound =>
      have none : templates name = none := by
        split at bound
        · next found => exact absurd rfl (unbound _ _ _ _)
        · exact bound
      rw [none]
  · rfl

/-- A call of a template is replaced as in the tree that it is shown as. -/
theorem shows_replaceCall (all : m.store.Templates e templates)
    (shown : m.pieces.Shows (fun _ => True) [n] [w]) (called : m.store.macroFor? e n ≠ none)
    (ran : (step depth e n).run m = .ok result m') (enough : 4 ≤ depth) :
    m'.pieces.Shows (fun _ => True) [result] [w.replaceCall templates] := by
  obtain ⟨⟨parameters, body, scope⟩, some⟩ := Option.ne_none_iff_exists'.1 called
  obtain ⟨t, u, name, arguments, serial, rfl, found⟩ := Store.macroFor?_eq_some some
  obtain ⟨ws, rfl, shown'⟩ := shown.call
  have bound := all name
  rw [found] at bound
  obtain ⟨tree, isTemplate, template⟩ := bound
  obtain ⟨result', m'', ran', -, -, replaced⟩ := run_step_of_template (t := t) (u := u) found template
    (arity_of_run_step found ran) (fun _ _ => trivial) shown' enough
  cases ran.symm.trans ran'
  rw [Node.replaceCall, isTemplate]
  exact replaced

/-- Where all macros are templates, an expansion is a replacement in trees. -/
theorem Course.shows_ (h : Course depth e nodes m calls nodes' m') (has : m.HasMacros e)
    (free : ∀ n ∈ nodes, ∀ id, ¬ n.Refers id) (enough : 4 ≤ depth)
    (all : m.store.Templates e templates) :
    m'.pieces.Shows (fun _ => True) nodes' (nodes.map (Node.expandWith templates)) := by
  induction h with
  | nil => exact .nil
  | @stays n _ ns _ _ _ _ m₁ m₂ below other later ihBelow ihLater =>
      obtain ⟨freeHere, freeLater⟩ := List.forall_mem_cons.1 free
      have other' := Node.isPiece_of_free freeHere
      have one : Course depth e [n] _ _ [n.withChildren ns] m₁ := below.stays other .nil
      obtain ⟨more₁, has₁, -⟩ := one.extends_ has (List.forall_mem_singleton.2 freeHere)
      have all₁ := all.extend has more₁
      have shown := (ihBelow has (Node.free_children freeHere) all).rebuild other' below.length_eq
      have stays := replaceCall_of_shows all₁ (by rwa [Node.isPiece_withChildren]) shown other
      obtain ⟨more₂, -, -⟩ := later.extends_ has₁ freeLater
      rw [List.map_cons, Node.expandWith_eq, stays]
      exact Pieces.Shows.cons_iff.2
        ⟨shown.of_extends more₂.pieces, ihLater has₁ freeLater all₁⟩
  | @replaced n result _ ns _ _ _ _ m₁ m₂ m₃ below called ran later ihBelow ihLater =>
      obtain ⟨freeHere, freeLater⟩ := List.forall_mem_cons.1 free
      have freeBelow := Node.free_children freeHere
      obtain ⟨more₁, has₁, -⟩ := below.extends_ has freeBelow
      have all₁ := all.extend has more₁
      obtain ⟨more₂, has₂, -⟩ :=
        (below.one_replaced called ran).extends_ has (List.forall_mem_singleton.2 freeHere)
      obtain ⟨more₃, -, -⟩ := later.extends_ has₂ freeLater
      have shown := (ihBelow has freeBelow all).rebuild (Node.isPiece_of_free freeHere) below.length_eq
      have replaced := shows_replaceCall all₁ shown called ran enough
      rw [List.map_cons, Node.expandWith_eq]
      exact Pieces.Shows.cons_iff.2
        ⟨replaced.of_extends more₃.pieces, ihLater has₂ freeLater (all.extend has more₂)⟩

end Expansion

/-- In any machine, a call of a template with the right number of arguments is replaced by its tree with
the arguments in the places of the parameters: they are put in as they stand, and so are the trees that
they stand for. Nothing is printed, and no scope and no piece is changed that was there, so that no call
has an effect on another one. In an expansion that returns, every call of a template has the right number
of arguments, and is replaced so when its arguments have been expanded. If all macros are templates, the
expanded program is the program with the calls replaced, inner ones before outer ones. -/
theorem template_macros_substitute {e : ScopeId} {depth : Nat} (enough : 4 ≤ depth) :
    (∀ (m : Machine) t u name arguments serial parameters body scope tree,
      m.store.lookup e name = some (.macroValue serial parameters body scope) →
      Expansion.Template parameters body tree → parameters.length = arguments.length →
      ∀ (own : PieceId → Prop) trees, (∀ id ≥ m.pieces.nextId, own id) →
        m.pieces.Shows own arguments trees → ∃ result m',
          (Expansion.step depth e (.call t (.ident u name) arguments)).run m = .ok result m' ∧
            m.Extends m' ∧ m'.printed = m.printed ∧
            m'.pieces.Shows own [result] [tree.instantiate (Expansion.assigned parameters trees)]) ∧
    ∀ (m : Machine) program expanded m', m.HasMacros e → (∀ id, ¬ program.Refers id) →
      (expand depth e program).run m = .ok expanded m' →
      ∃ calls, Expansion.Course depth e [program] m calls [expanded] m' ∧
        (∀ call ∈ calls, ∀ t u name arguments serial parameters body scope tree,
          call.node = .call t (.ident u name) arguments →
          call.before.store.lookup e name = some (.macroValue serial parameters body scope) →
          Expansion.Template parameters body tree →
          parameters.length = arguments.length ∧ call.before.Extends call.after ∧
            call.after.printed = call.before.printed ∧
            call.after.pieces.Shows (call.before.pieces.nextId ≤ ·) [call.result]
              [tree.instantiate (Expansion.assigned parameters arguments)]) ∧
        ∀ templates, m.store.Templates e templates →
          m'.pieces.Shows (fun _ => True) [expanded] [program.expandWith templates] := by
  refine ⟨fun m t u name arguments serial parameters body scope tree found template arity own trees
    later shown => ?_, fun m program expanded m' has free ran => ?_⟩
  · exact Expansion.run_step_of_template found template arity later shown enough
  · have free : ∀ n ∈ [program], ∀ id, ¬ n.Refers id := List.forall_mem_singleton.2 free
    obtain ⟨calls, course⟩ := Expansion.exists_course ran
    refine ⟨calls, course, fun call mem t u name arguments serial parameters body scope tree same found
      template => ?_, fun templates all => course.shows_ has free enough all⟩
    obtain ⟨-, inside, ran⟩ := course.each has free call mem
    rw [same] at inside ran
    have arity := Expansion.arity_of_run_step found ran
    have asTheyStand : call.before.pieces.Shows (call.before.pieces.nextId ≤ ·) arguments arguments := by
      have unfolds : call.before.pieces.Unfolds (call.before.pieces.nextId ≤ ·) (fun _ => False) 0
          arguments [] arguments := .self fun a mem id refers =>
        Nat.not_le_of_lt (inside id (.child (.tail _ mem) refers))
      exact unfolds.shows_
    obtain ⟨result, m₁, ran', more, printed, shown⟩ := Expansion.run_step_of_template (t := t) (u := u)
      found template arity (fun _ later => later) asTheyStand enough
    rw [ran] at ran'
    cases ran'
    exact ⟨arity, more, printed, shown⟩

/-- Of `double(puts(1))` there comes `puts(1) + puts(1)`, and nothing is printed. In a program with
`double(double(puts(1)))` the inner call is replaced first. -/
theorem template_macros_substitute_double :
    let place : Node := .call none (.ident none Quote.unquoteName) [.ident none "x"]
    let tree : Node := .binary none place "+" place
    let body : Node := .block none [.exprStmt none (.call none (.ident none Quote.quoteName) [tree])]
    let m := Session.machine₀.bind Session.macros "double"
      (.macroValue 0 [.ident none "x"] body Session.macros)
    let argument : Node := .call none (.ident none "puts") [.int none 1]
    let double (n : Node) : Node := .call none (.ident none "double") [n]
    let sum (n : Node) : Node := .binary none n "+" n
    let program : Node := .program [.exprStmt none (double (double argument))]
    4 ≤ 4 ∧ Expansion.Template [.ident none "x"] body tree ∧ m.HasMacros Session.macros ∧
      (∃ result m', (Expansion.step 4 Session.macros (double argument)).run m = .ok result m' ∧
        m'.printed = [] ∧ m'.pieces.Shows (fun _ => True) [result] [sum argument]) ∧
      ∃ expanded m', (expand 4 Session.macros program).run m = .ok expanded m' ∧
        m'.pieces.Shows (fun _ => True) [expanded]
          [.program [.exprStmt none (sum (sum argument))]] := by
  intro place tree body m argument double sum program
  have free : ∀ id, ¬ argument.Refers id := Node.not_refers_of_postorder (by decide)
  have template : Expansion.Template [.ident none "x"] body tree := by
    refine ⟨⟨none, none, none, none, rfl⟩, by decide, Node.not_refers_of_postorder (by decide), ?_⟩
    have ident (name : Text) : (Node.ident none name).Everywhere (Node.IsTemplate ["x"]) :=
      .mk ⟨nofun, nofun⟩ nofun
    have unquotes : place.Everywhere (Node.IsTemplate ["x"]) := by
      refine .mk ⟨fun arguments call => ⟨none, "x", ?_, .head _⟩, fun t callee arguments call => ?_⟩
        (List.forall_mem_cons.2 ⟨ident _, List.forall_mem_singleton.2 (ident _)⟩)
      · cases (Node.unquotes?_call none none [.ident none "x"]).symm.trans call
        rfl
      · rw [← (Node.call.inj call).2.1]
        rfl
    exact .mk ⟨nofun, nofun⟩ (List.forall_mem_cons.2 ⟨unquotes, List.forall_mem_singleton.2 unquotes⟩)
  have has : m.HasMacros Session.macros := ⟨Session.hasMacros_machine₀.solid,
    Session.hasMacros_machine₀.binds.bind "double" (Node.not_refers_of_postorder (by decide))⟩
  have found : m.store.lookup Session.macros "double" =
      some (.macroValue 0 [.ident none "x"] body Session.macros) := by
    rw [Store.lookup]
    rfl
  have value (n : Node) : tree.instantiate (Expansion.assigned [.ident none "x"] [n]) = sum n := by
    have one : place.instantiate (Expansion.assigned [.ident none "x"] [n]) = n := by
      have named : place.unquotedName? = some "x" := rfl
      rw [Node.instantiate_of_some named]
      rfl
    rw [Node.instantiate_of_none rfl]
    change Node.binary none (place.instantiate _) "+" (place.instantiate _) = _
    rw [one]
  refine ⟨Nat.le_refl 4, template, has, ?_, ?_⟩
  · have unfolds : m.pieces.Unfolds (fun _ => True) (fun _ => False) 0 [argument] [] [argument] :=
      .self (List.forall_mem_singleton.2 fun id refers => absurd refers (free id))
    obtain ⟨result, m', ran, -, printed, shown⟩ := (template_macros_substitute (Nat.le_refl 4)).1 m none
      none "double" [argument] 0 [.ident none "x"] body Session.macros tree found template rfl
      (fun _ => True) [argument] (fun _ _ => trivial) unfolds.shows_
    rw [value] at shown
    exact ⟨result, m', ran, printed, shown⟩
  · have returns : (value? ((expand 4 Session.macros program).run m)).isSome = true := by decide +kernel
    obtain ⟨expanded, returns⟩ := Option.isSome_iff_exists.1 returns
    obtain ⟨m', ran⟩ := exists_of_value?_eq_some returns
    let templates (name : Text) : Option (List Node × Node) :=
      if name = "double" then some ([.ident none "x"], tree) else none
    have all : m.store.Templates Session.macros templates := by
      intro name
      by_cases same : name = "double"
      · subst same
        rw [found]
        exact ⟨tree, rfl, template⟩
      · have unbound : m.store.lookup Session.macros name = none := by
          have bound : Assoc.get? name (m.store.scope Session.macros).bindings = none := by
            change Assoc.get? name [("double", _)] = none
            simp [Assoc.get?, Ne.symm same]
          rw [Store.lookup, bound]
          rfl
        rw [unbound]
        exact if_neg same
    obtain ⟨calls, -, -, shows_⟩ := (template_macros_substitute (Nat.le_refl 4)).2 m program expanded m'
      has (Node.not_refers_of_postorder (by decide)) ran
    have ident (name : Text) : (Node.ident none name).expandWith templates = .ident none name := by
      rw [Node.expandWith_eq]
      rfl
    have call {n w : Node} (inner : n.expandWith templates = w) :
        (double n).expandWith templates = sum w := by
      rw [Node.expandWith_eq]
      change Node.replaceCall templates (.call none _ [n.expandWith templates]) = _
      rw [ident, inner]
      exact value w
    have stays : argument.expandWith templates = argument := by
      have number : (Node.int none 1).expandWith templates = .int none 1 := by
        rw [Node.expandWith_eq]
        rfl
      rw [Node.expandWith_eq]
      change Node.replaceCall templates (.call none _ [_]) = _
      rw [ident, number]
      rfl
    have whole : program.expandWith templates =
        .program [.exprStmt none (sum (sum argument))] := by
      rw [Node.expandWith_eq]
      change Node.program [(Node.exprStmt none (double (double argument))).expandWith templates] = _
      rw [Node.expandWith_eq]
      change Node.program [.exprStmt none ((double (double argument)).expandWith templates)] = _
      rw [call (call stays)]
    rw [← whole]
    exact ⟨expanded, m', ran, shows_ templates all⟩

end MonkeyLang
