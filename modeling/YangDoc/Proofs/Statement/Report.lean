import YangDoc.Proofs.Statement.Walk
import YangDoc.Validation.Structural

/-!
# The structural checks on a statement by itself

The checks read a table: they look up substatements, collect the imports and go through the
document in pre-order. Each of these steps is made here on the statement that the rows spell out,
so what is reported about a position of a forest is what the checks say of the snapshot taken
there, with the source of the document.
-/

namespace YangDoc

namespace Diagnostic

/-- A diagnostic located at a statement with this keyword and argument. -/
def atHeader (source : String) (header : String × Option String) (d : Diagnostic) : Diagnostic :=
  { d with source := some source, keyword := some header.1, argument := header.2 }

end Diagnostic

namespace Statement

def header (s : Statement) : String × Option String :=
  (s.keyword, s.argument)

def child? (s : Statement) (keyword : String) : Option Statement :=
  s.children.find? fun c => c.keyword == keyword

def ownPrefix (s : Statement) : Option String :=
  ((s.child? "prefix").or ((s.child? "belongs-to").bind (·.child? "prefix"))).bind
    Statement.argument

def imports (s : Statement) : List (Statement × String) :=
  (s.children.filter fun c => c.keyword == "import").filterMap fun i =>
    ((i.child? "prefix").bind Statement.argument).map (i, ·)

def usedBy (header : String × Option String) : List String :=
  (Keyword.qualifier? header.1).toList ++
    if Structural.proseKeywords.contains header.1 then []
    else header.2.elim [] Structural.referenced

def headerReport (s : Statement) : List Diagnostic :=
  (if s.argument.isNone then [Structural.missingName] else []) ++
    (Structural.required s.keyword).filterMap fun (keyword, code) =>
      if (s.child? keyword).isNone then some (Structural.missing keyword code) else none

def report (source : String) (s : Statement) : List Diagnostic :=
  let declared := s.ownPrefix.toList ++ s.imports.map (·.2)
  let used := (s.headers .statements).flatMap usedBy
  s.headerReport.map (Diagnostic.atHeader source s.header) ++
    ((s.headers .statements).filterMap fun header =>
      ((Keyword.qualifier? header.1).filter (!declared.contains ·)).map fun q =>
        (Structural.undeclared q).atHeader source header) ++
    s.imports.filterMap fun (i, q) =>
      if used.contains q then none else some ((Structural.unused q).atHeader source i.header)

end Statement

theorem Query.accepts_keyword (k keyword : String) (argument : Option String) :
    ({ keyword := some k } : Query).accepts keyword argument = (keyword == k) := by
  simp only [accepts, same, Option.all_some, Option.all_none, Bool.and_true, Bool.false_eq_true,
    if_false]
  exact BEq.comm

namespace Tree

variable {t : Tree}

theorem header_snapshot (t : Tree) (id : NodeId) : (t.snapshot id).header = t.header id := by
  unfold snapshot
  cases t.size <;> rfl

theorem keyword_snapshot (t : Tree) (id : NodeId) : (t.snapshot id).keyword = t.keyword id :=
  congrArg Prod.fst (header_snapshot t id)

theorem argument_snapshot (t : Tree) (id : NodeId) : (t.snapshot id).argument = t.argument id :=
  congrArg Prod.snd (header_snapshot t id)

theorem bind_argument_snapshot (t : Tree) (found : Option NodeId) :
    (found.map t.snapshot).bind Statement.argument = found.bind t.argument := by
  cases found with
  | none => rfl
  | some c => exact argument_snapshot t c

theorem select_keyword (t : Tree) (keyword : String) (candidates : List NodeId) :
    t.select { keyword := some keyword } candidates =
      candidates.filter fun c => t.keyword c == keyword := by
  unfold select
  congr
  funext c
  exact Query.accepts_keyword ..

namespace Forest

theorem child?_snapshot (h : t.Forest) (id : NodeId) (keyword : String) :
    (t.snapshot id).child? keyword = (t.child? id keyword).map t.snapshot := by
  rw [h.snapshot_eq id, Statement.child?, child?, List.find?_map]
  congr
  funext c
  rw [Function.comp_apply, keyword_snapshot]

theorem ownPrefix_snapshot (h : t.Forest) (id : NodeId) :
    (t.snapshot id).ownPrefix = Structural.ownPrefix t id := by
  have hbelow : ((t.snapshot id).child? "belongs-to").bind (·.child? "prefix") =
      ((t.child? id "belongs-to").bind fun b => t.child? b "prefix").map t.snapshot := by
    rw [h.child?_snapshot]
    cases t.child? id "belongs-to" with
    | none => rfl
    | some b => exact h.child?_snapshot b "prefix"
  rw [Statement.ownPrefix, Structural.ownPrefix, hbelow, h.child?_snapshot, ← Option.map_or,
    bind_argument_snapshot]

theorem imports_snapshot (h : t.Forest) (root : NodeId) :
    (t.snapshot root).imports = (Structural.imports t root).map (Prod.map t.snapshot id) := by
  have hchildren : (t.snapshot root).children = (t.children root).map t.snapshot := by
    rw [h.snapshot_eq root]
  rw [Statement.imports, Structural.imports, select_keyword, hchildren, List.filter_map,
    List.filterMap_map, List.map_filterMap]
  have hkeyword : ((fun c : Statement => c.keyword == "import") ∘ t.snapshot) =
      fun c => t.keyword c == "import" := by
    funext c
    rw [Function.comp_apply, keyword_snapshot]
  rw [hkeyword]
  congr
  funext i
  rw [Function.comp_apply, h.child?_snapshot, bind_argument_snapshot, Option.map_map]
  rfl

theorem headerReport_snapshot (h : t.Forest) (id : NodeId) :
    (t.snapshot id).headerReport = Structural.headerReport t id := by
  simp only [Statement.headerReport, Structural.headerReport, argument_snapshot, keyword_snapshot,
    h.child?_snapshot, Option.isNone_map]

/-- What is reported about a position of a forest depends only on the statement found there and on
the source of the document. -/
theorem report_eq (h : t.Forest) (root : NodeId) :
    Structural.report t root = (t.snapshot root).report t.source := by
  rw [Statement.report, h.ownPrefix_snapshot, h.imports_snapshot, h.headerReport_snapshot,
    ← h.map_header_preorder, header_snapshot, List.map_map, List.flatMap_map, List.filterMap_map,
    List.filterMap_map]
  refine congrArg₂ (· ++ ·) rfl (congrArg (List.filterMap · _) ?_)
  funext item
  obtain ⟨i, q⟩ := item
  rw [Function.comp_apply, Prod.map_apply]
  dsimp only
  rw [header_snapshot]
  rfl

end Forest

end Tree

end YangDoc
