import Mathlib.Tactic.Common
import YangDoc.Expr.OfJson

/-!
# The nodes of an expression

Which nodes an expression names, at any depth, and which of them move or are copied when it is
received. Freezing an expression leaves none: its nodes become statements given by value. An
expression read from JSON has neither nodes nor such statements to begin with. The keywords of an
expression are those of its tuples, at any depth.
-/

namespace YangDoc.Expr

mutual

def nodes : Expr → List Node
  | .node n => [n]
  | .statement _ => []
  | .tuple _ _ children => nodesAll children

def nodesAll : List Expr → List Node
  | [] => []
  | e :: rest => nodes e ++ nodesAll rest

end

theorem mem_nodesAll {n : Node} {es : List Expr} : n ∈ nodesAll es ↔ ∃ e ∈ es, n ∈ e.nodes := by
  induction es with
  | nil => simp [nodesAll]
  | cons e rest ih => simp [nodesAll, ih]

/-- The nodes that move when the expression is received. With `copy` the expression itself stays
where it is, but the nodes inside a tuple always move. -/
def moving (copy : Bool) : Expr → List Node
  | .node n => if copy then [] else [n]
  | .statement _ => []
  | .tuple _ _ children => nodesAll children

@[simp] theorem moving_false (e : Expr) : e.moving false = e.nodes := by
  cases e <;> rfl

mutual

/-- The nodes that are copied when document `d` receives the expression: those of other documents
and, with `copy`, the expression itself. -/
def copied (d : Document) (copy : Bool) : Expr → List Node
  | .node n => if copy = false ∧ n.document = d then [] else [n]
  | .statement _ => []
  | .tuple _ _ children => copiedAll d children

def copiedAll (d : Document) : List Expr → List Node
  | [] => []
  | e :: rest => copied d false e ++ copiedAll d rest

end

mutual

theorem copied_subset_nodes (d : Document) (copy : Bool) : (e : Expr) → e.copied d copy ⊆ e.nodes
  | .node n => by
    rw [copied]
    split
    · exact List.nil_subset _
    · exact List.Subset.refl _
  | .statement _ => List.Subset.refl _
  | .tuple _ _ children => copiedAll_subset_nodesAll d children

theorem copiedAll_subset_nodesAll (d : Document) : (es : List Expr) → copiedAll d es ⊆ nodesAll es
  | [] => List.Subset.refl _
  | e :: rest => List.append_subset.2
    ⟨List.Subset.trans (copied_subset_nodes d false e) (List.subset_append_left ..),
      List.Subset.trans (copiedAll_subset_nodesAll d rest) (List.subset_append_right ..)⟩

end

mutual

def values : Expr → List Statement
  | .node _ => []
  | .statement s => [s]
  | .tuple _ _ children => valuesAll children

def valuesAll : List Expr → List Statement
  | [] => []
  | e :: rest => values e ++ valuesAll rest

end

theorem mem_valuesAll {s : Statement} {es : List Expr} :
    s ∈ valuesAll es ↔ ∃ e ∈ es, s ∈ e.values := by
  induction es with
  | nil => simp [valuesAll]
  | cons e rest ih => simp [valuesAll, ih]

mutual

theorem nodes_frozen (w : Workspace) : (e : Expr) → (e.frozen w).nodes = []
  | .node _ => rfl
  | .statement _ => rfl
  | .tuple _ _ children => nodesAll_frozenAll w children

theorem nodesAll_frozenAll (w : Workspace) : (es : List Expr) → nodesAll (frozenAll w es) = []
  | [] => rfl
  | e :: rest => by
    rw [frozenAll, nodesAll, nodes_frozen w e, nodesAll_frozenAll w rest, List.append_nil]

end

mutual

theorem mem_values_frozen {w : Workspace} {s : Statement} : (e : Expr) →
    (s ∈ (e.frozen w).values ↔ s ∈ e.values ∨ ∃ n ∈ e.nodes, s = n.statement w)
  | .node n => by simp [frozen, values, nodes]
  | .statement _ => by simp [frozen, nodes]
  | .tuple _ _ children => mem_valuesAll_frozenAll children

theorem mem_valuesAll_frozenAll {w : Workspace} {s : Statement} : (es : List Expr) →
    (s ∈ valuesAll (frozenAll w es) ↔ s ∈ valuesAll es ∨ ∃ n ∈ nodesAll es, s = n.statement w)
  | [] => by simp [frozenAll, valuesAll, nodesAll]
  | e :: rest => by
    rw [frozenAll, valuesAll, List.mem_append, mem_values_frozen e, mem_valuesAll_frozenAll rest,
      valuesAll, nodesAll]
    simp only [List.mem_append, or_and_right, exists_or]
    exact or_or_or_comm

end

private theorem bind_eq_ok {ε α β : Type} {x : Except ε α} {f : α → Except ε β} {b : β}
    (h : (x >>= f) = .ok b) : ∃ a, x = .ok a ∧ f a = .ok b := by
  cases x with
  | error e => cases h
  | ok a => exact ⟨a, rfl, h⟩

-- the cases are those of the reader: one for each form of an array, then the elements in turn
private theorem ofJson_and :
    (∀ value e, ofJson value = .ok e → e.nodes = [] ∧ e.values = []) ∧
      ∀ values es, ofJsonAll values = .ok es → nodesAll es = [] ∧ valuesAll es = [] := by
  refine ofJson.mutual_induct
    (fun value => ∀ e, ofJson value = .ok e → e.nodes = [] ∧ e.values = [])
    (fun values => ∀ es, ofJsonAll values = .ok es → nodesAll es = [] ∧ valuesAll es = [])
    ?_ ?_ ?_ ?_ ?_ ?_ ?_ ?_ ?_ ?_ ?_
  · intro e h
    rw [ofJson] at h
    cases h
  · intro keyword e h
    rw [ofJson] at h
    cases h
    exact ⟨rfl, rfl⟩
  · intro keyword children ih e h
    rw [ofJson] at h
    obtain ⟨es, hes, he⟩ := bind_eq_ok h
    cases he
    exact ih es hes
  · intro keyword argument hargument e h
    rw [ofJson] at h
    · obtain ⟨a, -, he⟩ := bind_eq_ok h
      cases he
      exact ⟨rfl, rfl⟩
    · exact hargument
  · intro keyword argument children ih e h
    rw [ofJson] at h
    obtain ⟨a, -, h⟩ := bind_eq_ok h
    obtain ⟨es, hes, he⟩ := bind_eq_ok h
    cases he
    exact ih es hes
  · intro keyword argument children hchildren e h
    rw [ofJson] at h
    · cases h
    · exact hchildren
  · intros
    rename_i h
    rw [ofJson] at h
    · cases h
    all_goals assumption
  · intros
    rename_i h
    rw [ofJson] at h
    · cases h
    all_goals assumption
  · intros
    rename_i h
    rw [ofJson] at h
    · cases h
    all_goals assumption
  · intro es h
    rw [ofJsonAll] at h
    cases h
    exact ⟨rfl, rfl⟩
  · intro value rest ih ihrest es h
    rw [ofJsonAll] at h
    obtain ⟨e, he, h⟩ := bind_eq_ok h
    obtain ⟨es', hes, h⟩ := bind_eq_ok h
    cases h
    rw [nodesAll, valuesAll, (ih e he).1, (ih e he).2, (ihrest es' hes).1, (ihrest es' hes).2]
    exact ⟨rfl, rfl⟩

theorem nodes_ofJson {value : Json} {e : Expr} (h : ofJson value = .ok e) : e.nodes = [] :=
  (ofJson_and.1 value e h).1

theorem values_ofJson {value : Json} {e : Expr} (h : ofJson value = .ok e) : e.values = [] :=
  (ofJson_and.1 value e h).2

/-! ### Keywords -/

mutual

def keywords : Expr → List String
  | .node _ => []
  | .statement _ => []
  | .tuple keyword _ children => keyword :: keywordsAll children

def keywordsAll : List Expr → List String
  | [] => []
  | e :: rest => keywords e ++ keywordsAll rest

end

theorem mem_keywordsAll {k : String} {es : List Expr} :
    k ∈ keywordsAll es ↔ ∃ e ∈ es, k ∈ e.keywords := by
  induction es with
  | nil => simp [keywordsAll]
  | cons e rest ih => simp [keywordsAll, ih]

mutual

theorem keywords_frozen (w : Workspace) : (e : Expr) → (e.frozen w).keywords = e.keywords
  | .node _ => rfl
  | .statement _ => rfl
  | .tuple _ _ children => by
    rw [frozen, keywords, keywords, keywordsAll_frozenAll w children]

theorem keywordsAll_frozenAll (w : Workspace) : (es : List Expr) →
    keywordsAll (frozenAll w es) = keywordsAll es
  | [] => rfl
  | e :: rest => by
    rw [frozenAll, keywordsAll, keywordsAll, keywords_frozen w e, keywordsAll_frozenAll w rest]

end

/-- No tuple, at any depth, lacks a keyword or has one that belongs to the root. -/
def Ordinary (e : Expr) : Prop :=
  ∀ k ∈ e.keywords, k ≠ "" ∧ Keyword.isRoot k = false

instance (e : Expr) : Decidable e.Ordinary :=
  inferInstanceAs (Decidable (∀ k ∈ e.keywords, k ≠ "" ∧ Keyword.isRoot k = false))

theorem ordinary_frozen {w : Workspace} {e : Expr} : (e.frozen w).Ordinary ↔ e.Ordinary := by
  rw [Ordinary, Ordinary, keywords_frozen]

theorem ordinary_tuple_iff {keyword : String} {argument : Option String} {children : List Expr} :
    (tuple keyword argument children).Ordinary ↔
      (keyword ≠ "" ∧ Keyword.isRoot keyword = false) ∧ ∀ e ∈ children, e.Ordinary := by
  simp only [Ordinary, keywords, List.forall_mem_cons, mem_keywordsAll]
  refine and_congr_right fun _ => ⟨fun h e he k hk => h k ⟨e, he, hk⟩, ?_⟩
  rintro h k ⟨e, he, hk⟩
  exact h e he k hk

end YangDoc.Expr
