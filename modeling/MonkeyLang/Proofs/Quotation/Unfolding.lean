import MonkeyLang.Proofs.Quotation.Calm
import MonkeyLang.Proofs.Quotation.Substitution

/-!
# Trees and the pieces in them

A tree that refers to pieces stands for the tree with the pieces in their places. A piece may stand in
several places of it. That does not matter as long as there is no call of `unquote` in the piece; any
other piece is to stand in one place only.

* `Pieces.Shows` puts some of the pieces in their places.
* `Pieces.Unfolds` does so, too, and lists the pieces that are to stand in one place only.
-/

namespace MonkeyLang

namespace Node

theorem withChildren_rename {ρ : PieceId → PieceId} {n : Node} {ws : List Node}
    (other : n.isPiece = false) (same : ws.length = n.children.length) :
    (n.rename ρ).withChildren ws = n.withChildren ws := by
  rw [rename_eq other, withChildren_withChildren (List.length_map _) same]

theorem unquotes?_call (t u : Option Token) (arguments : List Node) :
    (call t (.ident u Quote.unquoteName) arguments).unquotes? = some arguments := by
  simp [unquotes?]

end Node

namespace Pieces

/-- With the pieces in `own` in their places, the nodes are the trees. -/
inductive Shows (p : Pieces) (own : PieceId → Prop) : List Node → List Node → Prop
  | nil : Shows p own [] []
  | node {n : Node} {others ws ws' : List Node} : n.isPiece = false →
    Shows p own n.children ws → Shows p own others ws' →
    Shows p own (n :: others) (n.withChildren ws :: ws')
  | piece {id : PieceId} {others ws ws' : List Node} : own id → (p.get id).isCompound = true →
    Shows p own (p.get id).children ws → Shows p own others ws' →
    Shows p own (.piece id :: others) ((p.get id).withChildren ws :: ws')
  | other {id : PieceId} {others ws : List Node} : ¬ own id → Shows p own others ws →
    Shows p own (.piece id :: others) (.piece id :: ws)

/-- With the pieces in `own` in their places, of which at most `d` stand inside each other, the nodes
are the trees. In still pieces there is no call of `unquote`; the other ones are listed, each as often
as it has places. -/
inductive Unfolds (p : Pieces) (own still : PieceId → Prop) :
    Nat → List Node → List PieceId → List Node → Prop
  | nil {d : Nat} : Unfolds p own still d [] [] []
  | node {d : Nat} {n : Node} {others ws ws' : List Node} {ids ids' : List PieceId} :
    n.isPiece = false → Unfolds p own still d n.children ids ws →
    Unfolds p own still d others ids' ws' →
    Unfolds p own still d (n :: others) (ids ++ ids') (n.withChildren ws :: ws')
  | piece {d : Nat} {id : PieceId} {others ws ws' : List Node} {ids ids' : List PieceId} :
    own id → ¬ still id → (p.get id).isCompound = true →
    Unfolds p own still d (p.get id).children ids ws →
    Unfolds p own still (d + 1) others ids' ws' →
    Unfolds p own still (d + 1) (.piece id :: others) (id :: ids ++ ids')
      ((p.get id).withChildren ws :: ws')
  | still {d : Nat} {id : PieceId} {others ws ws' : List Node} {ids' : List PieceId} :
    own id → still id → (p.get id).isCompound = true →
    Unfolds p own still d (p.get id).children [] ws →
    (((p.get id).withChildren ws).Everywhere fun n => n.unquotes? = none) →
    Unfolds p own still (d + 1) others ids' ws' →
    Unfolds p own still (d + 1) (.piece id :: others) ids' ((p.get id).withChildren ws :: ws')
  | other {d : Nat} {id : PieceId} {others ws : List Node} {ids : List PieceId} :
    ¬ own id → Unfolds p own still d others ids ws →
    Unfolds p own still d (.piece id :: others) ids (.piece id :: ws)

namespace Shows

variable {p p' : Pieces} {own own' : PieceId → Prop} {n w : Node} {nodes ws : List Node}

theorem length_eq (h : p.Shows own nodes ws) : ws.length = nodes.length := by
  induction h with
  | nil => rfl
  | node _ _ _ _ ih | piece _ _ _ _ _ ih => exact congrArg (· + 1) ih
  | other _ _ ih => exact congrArg (· + 1) ih

theorem cons_iff : p.Shows own (n :: nodes) (w :: ws) ↔ p.Shows own [n] [w] ∧ p.Shows own nodes ws := by
  constructor
  · intro h
    cases h with
    | node other below later => exact ⟨.node other below .nil, later⟩
    | piece isOwn compound below later => exact ⟨.piece isOwn compound below .nil, later⟩
    | other notOwn later => exact ⟨.other notOwn .nil, later⟩
  · rintro ⟨first, later⟩
    cases first with
    | node other below _ => exact .node other below later
    | piece isOwn compound below _ => exact .piece isOwn compound below later
    | other notOwn _ => exact .other notOwn later

/-- An identifier is shown as itself, and by nothing else. -/
theorem ident_iff (h : p.Shows own [n] [w]) (t : Option Token) (name : Text) :
    n = .ident t name ↔ w = .ident t name := by
  cases h with
  | node other below _ =>
      refine ⟨?_, fun same => n.heads_withChildren _ t name same⟩
      rintro rfl
      rfl
  | @piece id _ ws _ _ compound below _ =>
      refine ⟨nofun, fun same => ?_⟩
      have compound' := Node.isCompound_withChildren ((p.get id)) ws
      rw [same, compound] at compound'
      cases compound'
  | other => exact ⟨nofun, nofun⟩

theorem heads (h : p.Shows own nodes ws) : List.Forall₂ Node.Heads nodes ws := by
  induction nodes generalizing ws with
  | nil =>
      cases h
      exact .nil
  | cons n nodes ih =>
      cases ws with
      | nil => cases h.length_eq
      | cons w ws =>
          obtain ⟨first, later⟩ := cons_iff.1 h
          exact .cons (fun t name => (first.ident_iff t name).2) (ih later)

/-- A node is shown as a node of the same form. -/
theorem rebuild (h : p.Shows own nodes ws) (other : n.isPiece = false)
    (same : nodes.length = n.children.length) :
    p.Shows own [n.withChildren nodes] [n.withChildren ws] := by
  have children := Node.children_withChildren same
  have rebuilt := Node.withChildren_withChildren same (h.length_eq.trans same)
  have shown : p.Shows own [n.withChildren nodes] [(n.withChildren nodes).withChildren ws] :=
    .node (by rw [Node.isPiece_withChildren, other]) (by rwa [children]) .nil
  rwa [rebuilt] at shown

/-- A call of `unquote` is shown as one. -/
theorem unquotes? (h : p.Shows own [n] [w]) (other : n.isPiece = false) :
    (n.unquotes? = none → w.unquotes? = none) ∧
      ∀ arguments, n.unquotes? = some arguments →
        ∃ shown, w.unquotes? = some shown ∧ p.Shows own arguments shown := by
  cases h with
  | piece => cases other
  | other => cases other
  | node _ below _ =>
      refine ⟨fun none => Node.unquotes?_withChildren none below.heads, fun arguments call => ?_⟩
      obtain ⟨t, u, rfl⟩ := Node.eq_call_of_unquotes? call
      cases below with
      | node _ none later =>
          cases none
          exact ⟨_, Node.unquotes?_call t u _, later⟩

end Shows

namespace Unfolds

variable {p p' : Pieces} {own still : PieceId → Prop} {d : Nat} {n w : Node} {nodes ws : List Node}
  {ids ids' : List PieceId}

theorem shows_ (h : p.Unfolds own still d nodes ids ws) : p.Shows own nodes ws := by
  induction h with
  | nil => exact .nil
  | node other _ _ ihBelow ihLater => exact .node other ihBelow ihLater
  | piece isOwn _ compound _ _ ihBelow ihLater => exact .piece isOwn compound ihBelow ihLater
  | still isOwn _ compound _ _ _ ihBelow ihLater => exact .piece isOwn compound ihBelow ihLater
  | other notOwn _ ih => exact .other notOwn ih

theorem cons (first : p.Unfolds own still d [n] ids [w]) (later : p.Unfolds own still d nodes ids' ws) :
    p.Unfolds own still d (n :: nodes) (ids ++ ids') (w :: ws) := by
  cases first with
  | node other below none =>
      cases none
      rw [List.append_nil]
      exact .node other below later
  | piece isOwn moving compound below none =>
      cases none
      rw [List.append_nil]
      exact .piece isOwn moving compound below later
  | still isOwn isStill compound below calm none =>
      cases none
      exact .still isOwn isStill compound below calm later
  | other notOwn none =>
      cases none
      exact .other notOwn later

theorem length_eq (h : p.Unfolds own still d nodes ids ws) : ws.length = nodes.length :=
  h.shows_.length_eq

/-- A node unfolds when its children do. -/
theorem above (h : p.Unfolds own still d n.children ids ws) (other : n.isPiece = false) :
    p.Unfolds own still d [n] ids [n.withChildren ws] := by
  have whole := Unfolds.node other h .nil
  rwa [List.append_nil] at whole

/-- All listed pieces are own ones that are not still. -/
theorem mem (h : p.Unfolds own still d nodes ids ws) : ∀ id ∈ ids, own id ∧ ¬ still id := by
  induction h with
  | nil => exact nofun
  | node _ _ _ ihBelow ihLater => exact List.forall_mem_append.2 ⟨ihBelow, ihLater⟩
  | piece isOwn moving _ _ _ ihBelow ihLater =>
      exact List.forall_mem_append.2 ⟨List.forall_mem_cons.2 ⟨⟨isOwn, moving⟩, ihBelow⟩, ihLater⟩
  | still _ _ _ _ _ _ _ ihLater => exact ihLater
  | other _ _ ih => exact ih

/-- None but the listed and the still pieces count. -/
theorem of_same (h : p.Unfolds own still d nodes ids ws) (listed : ∀ id ∈ ids, p'.get id = p.get id)
    (stills : ∀ id, still id → p'.get id = p.get id) : p'.Unfolds own still d nodes ids ws := by
  induction h with
  | nil => exact .nil
  | node other _ _ ihBelow ihLater =>
      obtain ⟨listedBelow, listedLater⟩ := List.forall_mem_append.1 listed
      exact .node other (ihBelow listedBelow) (ihLater listedLater)
  | piece isOwn moving compound _ _ ihBelow ihLater =>
      obtain ⟨listedHere, listedLater⟩ := List.forall_mem_append.1 listed
      obtain ⟨same, listedBelow⟩ := List.forall_mem_cons.1 listedHere
      have below := ihBelow listedBelow
      rw [← same] at below compound ⊢
      exact .piece isOwn moving compound below (ihLater listedLater)
  | still isOwn isStill compound _ calm _ ihBelow ihLater =>
      have below := ihBelow nofun
      rw [← stills _ isStill] at below compound calm ⊢
      exact .still isOwn isStill compound below calm (ihLater listed)
  | other notOwn _ ih => exact .other notOwn (ih listed)

/-- A tree without own pieces is what it is. -/
theorem self (each : ∀ n ∈ nodes, ∀ id, n.Refers id → ¬ own id) :
    p.Unfolds own still d nodes [] nodes := by
  have one (n : Node) (h : ∀ id, n.Refers id → ¬ own id) : p.Unfolds own still d [n] [] [n] := by
    induction n using Node.childInduction with
    | step n ih =>
        cases isPiece : n.isPiece with
        | true =>
            obtain ⟨id, rfl⟩ := Node.eq_piece_of_isPiece isPiece
            exact .other (h id .piece) .nil
        | false =>
            have below : p.Unfolds own still d n.children [] n.children := by
              have all (c : Node) (mem : c ∈ n.children) : p.Unfolds own still d [c] [] [c] :=
                ih c mem fun id refers => h id (.child mem refers)
              revert all
              generalize n.children = cs
              intro all
              induction cs with
              | nil => exact .nil
              | cons c cs ih => exact (all c (.head _)).cons (ih fun c mem => all c (.tail _ mem))
            have whole := Unfolds.node isPiece below .nil
            rwa [Node.withChildren_children] at whole
  induction nodes with
  | nil => exact .nil
  | cons n nodes ih =>
      exact (one n (each n (.head _))).cons (ih fun n mem => each n (.tail _ mem))

/-- Where all pieces are own ones, it is enough that the listed and the still ones are. -/
theorem narrow (h : p.Unfolds (fun _ => True) still d nodes ids ws) (listed : ∀ id ∈ ids, own id)
    (stills : ∀ id, still id → own id) : p.Unfolds own still d nodes ids ws := by
  induction h with
  | nil => exact .nil
  | node other _ _ ihBelow ihLater =>
      obtain ⟨listedBelow, listedLater⟩ := List.forall_mem_append.1 listed
      exact .node other (ihBelow listedBelow) (ihLater listedLater)
  | piece _ moving compound _ _ ihBelow ihLater =>
      obtain ⟨listedHere, listedLater⟩ := List.forall_mem_append.1 listed
      obtain ⟨isOwn, listedBelow⟩ := List.forall_mem_cons.1 listedHere
      exact .piece isOwn moving compound (ihBelow listedBelow) (ihLater listedLater)
  | still _ isStill compound _ calm _ ihBelow ihLater =>
      exact .still (stills _ isStill) isStill compound (ihBelow nofun) calm (ihLater listed)
  | other notOwn => exact absurd trivial notOwn

/-- A copy unfolds as the tree does that it is a copy of. -/
theorem copied {Met : PieceId → Prop} {ρ : PieceId → PieceId} {tree tree' : Node}
    (copied : Quote.Copied p tree Met ρ p' tree')
    (h : p.Unfolds (fun _ => True) still d nodes ids ws)
    (met : ∀ n ∈ nodes, ∀ id, n.Refers id → Met id) :
    p'.Unfolds (fun _ => True) (fun copy => ∃ id, Met id ∧ still id ∧ ρ id = copy) d
        (nodes.map (Node.rename ρ)) (ids.map ρ) ws ∧ ∀ id ∈ ids, Met id := by
  induction h with
  | nil => exact ⟨.nil, nofun⟩
  | @node d n others ws ws' ids ids' other below _ ihBelow ihLater =>
      obtain ⟨metHere, metLater⟩ := List.forall_mem_cons.1 met
      obtain ⟨later, listedLater⟩ := ihLater metLater
      obtain ⟨content, listed⟩ := ihBelow fun c mem id refers => metHere id (.child mem refers)
      refine ⟨?_, List.forall_mem_append.2 ⟨listed, listedLater⟩⟩
      rw [← Node.children_rename other] at content
      have whole := Unfolds.node (by rw [Node.isPiece_rename, other]) content later
      rwa [Node.withChildren_rename other below.length_eq, ← List.map_append] at whole
  | @piece d id others ws ws' ids ids' _ moving compound below _ ihBelow ihLater =>
      obtain ⟨metHere, metLater⟩ := List.forall_mem_cons.1 met
      obtain ⟨later, listedLater⟩ := ihLater metLater
      have metId := metHere id .piece
      obtain ⟨content, listed⟩ := ihBelow fun c mem other refers =>
        copied.closed id metId other (.child mem refers)
      refine ⟨?_, List.forall_mem_append.2 ⟨List.forall_mem_cons.2 ⟨metId, listed⟩, listedLater⟩⟩
      have other := isPiece_of_isCompound compound
      rw [← Node.children_rename other, ← copied.content id metId] at content
      have moving' : ¬ ∃ id', Met id' ∧ still id' ∧ ρ id' = ρ id := by
        rintro ⟨id', met', isStill, same⟩
        exact moving (copied.injective id' id met' metId same ▸ isStill)
      have compound' : (p'.get (ρ id)).isCompound = true := by
        rw [copied.content id metId]
        exact Node.isCompound_rename ρ compound
      have whole := Unfolds.piece trivial moving' compound' content later
      rwa [copied.content id metId, Node.withChildren_rename other below.length_eq,
        ← List.map_cons, ← List.map_append] at whole
  | @still d id others ws ws' ids' _ isStill compound below calm _ ihBelow ihLater =>
      obtain ⟨metHere, metLater⟩ := List.forall_mem_cons.1 met
      obtain ⟨later, listedLater⟩ := ihLater metLater
      have metId := metHere id .piece
      obtain ⟨content, -⟩ := ihBelow fun c mem other refers =>
        copied.closed id metId other (.child mem refers)
      refine ⟨?_, listedLater⟩
      have other := isPiece_of_isCompound compound
      rw [← Node.children_rename other, ← copied.content id metId] at content
      have compound' : (p'.get (ρ id)).isCompound = true := by
        rw [copied.content id metId]
        exact Node.isCompound_rename ρ compound
      have same : (p'.get (ρ id)).withChildren ws = (p.get id).withChildren ws := by
        rw [copied.content id metId, Node.withChildren_rename other below.length_eq]
      have whole := Unfolds.still trivial ⟨id, metId, isStill, rfl⟩ compound' content
        (same.symm ▸ calm) later
      rwa [same] at whole
  | other notOwn => exact absurd trivial notOwn

end Unfolds

end Pieces

end MonkeyLang
