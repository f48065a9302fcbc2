import YangDoc.Proofs.Expr.Nodes
import YangDoc.Proofs.Tree.Below

/-!
# What an expression stands for

An expression stands for a statement: a node for its present value, a statement for itself, and a
tuple for the statement of its keyword and argument around what its parts stand for. The value does
not tell where the statements come from. `Realizes` does: in the table of a document the nodes of
that document keep their positions, and all else is new.
-/

namespace YangDoc.Expr

mutual

def denote (w : Workspace) : Expr → Statement
  | .node n => n.statement w
  | .statement s => s
  | .tuple keyword argument children => ⟨keyword, argument, denoteAll w children⟩

def denoteAll (w : Workspace) : List Expr → List Statement
  | [] => []
  | e :: rest => denote w e :: denoteAll w rest

end

theorem denoteAll_eq_map (w : Workspace) (es : List Expr) : denoteAll w es = es.map (denote w) := by
  induction es with
  | nil => rfl
  | cons e rest ih => rw [denoteAll, ih, List.map_cons]

mutual

/-- What an expression stands for depends on the workspace through the nodes it names, and on the
value of each of them. -/
theorem denote_eq_iff {w w' : Workspace} : (e : Expr) →
    (e.denote w' = e.denote w ↔ ∀ n ∈ e.nodes, n.statement w' = n.statement w)
  | .node n => by simp [denote, nodes]
  | .statement _ => by simp [denote, nodes]
  | .tuple keyword argument children => by
    rw [denote, denote, nodes, ← denoteAll_eq_iff children, Statement.mk.injEq]
    simp

theorem denoteAll_eq_iff {w w' : Workspace} : (es : List Expr) →
    (denoteAll w' es = denoteAll w es ↔ ∀ n ∈ nodesAll es, n.statement w' = n.statement w)
  | [] => by simp [denoteAll, nodesAll]
  | e :: rest => by
    rw [denoteAll, denoteAll, nodesAll, List.cons.injEq, denote_eq_iff e, denoteAll_eq_iff rest,
      List.forall_mem_append]

end

mutual

/-- What has been frozen stands, wherever it is read, for what it stood for when it was frozen. -/
theorem denote_frozen (w w' : Workspace) : (e : Expr) → (e.frozen w).denote w' = e.denote w
  | .node _ => rfl
  | .statement _ => rfl
  | .tuple _ _ children => by
    rw [frozen, denote, denote, denoteAll_frozenAll w w' children]

theorem denoteAll_frozenAll (w w' : Workspace) : (es : List Expr) →
    denoteAll w' (frozenAll w es) = denoteAll w es
  | [] => rfl
  | e :: rest => by
    rw [frozenAll, denoteAll, denoteAll, denote_frozen w w' e, denoteAll_frozenAll w w' rest]

end

/-! ### Where the statements come from -/

mutual

/-- The statement at `id` of the document has come from the expression: a node of the document is
where it was, a tuple is new and lists what has come from its parts, and a copy is new throughout.
New are the positions from `size` on. -/
def Realizes (t : Tree) (d : Document) (size : Nat) (id : Nat) : Expr → Prop
  | .node n => if n.document = d then id = n.id else ∀ x, t.Above id x → size ≤ x
  | .statement _ => ∀ x, t.Above id x → size ≤ x
  | .tuple _ _ children => size ≤ id ∧ RealizesAll t d size (t.children id) children

def RealizesAll (t : Tree) (d : Document) (size : Nat) (ids : List Nat) : List Expr → Prop
  | [] => ids = []
  | e :: rest => ∃ id ids', ids = id :: ids' ∧ Realizes t d size id e ∧
      RealizesAll t d size ids' rest

end

variable {t t' : Tree} {d : Document} {size size' : Nat}

theorem realizesAll_singleton {id : Nat} {e : Expr} :
    RealizesAll t d size [id] [e] ↔ e.Realizes t d size id := by
  constructor
  · rintro ⟨_, _, heq, he, -⟩
    obtain ⟨rfl, -⟩ := List.cons.inj heq
    exact he
  · exact fun he => ⟨id, [], rfl, he, rfl⟩

theorem Realizes.le_or_mem {id : Nat} {e : Expr} (h : e.Realizes t d size id) :
    size ≤ id ∨ (⟨d, id⟩ : Node) ∈ e.nodes := by
  cases e with
  | node n =>
    rw [Realizes] at h
    split at h
    · next hd =>
      subst hd h
      exact .inr (List.mem_singleton_self n)
    · exact .inl (h id .refl)
  | statement s => exact .inl (h id .refl)
  | tuple keyword argument children => exact .inl h.1

theorem RealizesAll.le_or_mem {ids : List Nat} {es : List Expr} (h : RealizesAll t d size ids es) :
    ∀ id ∈ ids, size ≤ id ∨ (⟨d, id⟩ : Node) ∈ nodesAll es := by
  induction es generalizing ids with
  | nil =>
    rw [RealizesAll] at h
    simp [h]
  | cons e rest ih =>
    obtain ⟨id, ids', rfl, hid, hids⟩ := h
    rw [List.forall_mem_cons]
    exact ⟨hid.le_or_mem.imp_right (List.mem_append_left _),
      fun i hi => (ih hids i hi).imp_right (List.mem_append_right _)⟩

mutual

theorem Realizes.congr (hsize : size' ≤ size) : ∀ {id : Nat} (e : Expr), t.SameBelow t' id →
    e.Realizes t d size id → e.Realizes t' d size' id
  | id, .node n, hsame, h => by
    rw [Realizes] at h ⊢
    split at h
    · next hd => rwa [if_pos hd]
    · next hd =>
      rw [if_neg hd]
      exact fun x hx => hsize.trans (h x (hsame.above hx))
  | id, .statement s, hsame, h => fun x hx => hsize.trans (h x (hsame.above hx))
  | id, .tuple keyword argument children, hsame, h => by
    refine ⟨hsize.trans h.1, ?_⟩
    rw [(hsame id .refl).2]
    exact RealizesAll.congr hsize children (fun c hc => hsame.mono (.single hc)) h.2

theorem RealizesAll.congr (hsize : size' ≤ size) : ∀ {ids : List Nat} (es : List Expr),
    (∀ id ∈ ids, t.SameBelow t' id) → RealizesAll t d size ids es →
      RealizesAll t' d size' ids es
  | _, [], _, h => h
  | _, e :: rest, hsame, h => by
    obtain ⟨id, ids', rfl, hid, hids⟩ := h
    rw [List.forall_mem_cons] at hsame
    exact ⟨id, ids', rfl, hid.congr hsize e hsame.1, hids.congr hsize rest hsame.2⟩

end

end YangDoc.Expr
