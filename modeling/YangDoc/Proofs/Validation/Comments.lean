import Mathlib.Logic.Relation
import YangDoc.Proofs.Section.Rearrangement
import YangDoc.Proofs.Statement.Observation
import YangDoc.Proofs.Syntax.RoundTrip

/-!
# Comments take no part in validation

Comments can be put between the substatements of any statement and taken away again, with whatever
hangs below them. Each step of the structural checks gives the same on a statement as on the
statement without its comments: the header looks for keywords that are no comments, so do the
imports and the prefix of the document, and the walk goes around comments. So two documents that
come from each other by such edits have the same report.
-/

namespace YangDoc

namespace Statement

/-- The second statement is the first with one comment more, somewhere below it. -/
inductive Commented : Statement → Statement → Prop where
  | here {keyword : String} {argument : Option String} (before after : List Statement)
      {comment : Statement} (hcomment : Keyword.isComment comment.keyword = true) :
      Commented ⟨keyword, argument, before ++ after⟩ ⟨keyword, argument, before ++ comment :: after⟩
  | inside {keyword : String} {argument : Option String} (before after : List Statement)
      {s s' : Statement} (h : Commented s s') :
      Commented ⟨keyword, argument, before ++ s :: after⟩ ⟨keyword, argument, before ++ s' :: after⟩

/-- The statements are the same up to comments: one comes from the other by putting comments in
and taking comments away. -/
def SameUpToComments : Statement → Statement → Prop :=
  Relation.EqvGen Commented

/-! ### Statements without their comments -/

theorem uncommentedAll_eq_map (ss : List Statement) :
    uncommentedAll ss = (ss.filter fun s => !Keyword.isComment s.keyword).map uncommented := by
  induction ss with
  | nil => rfl
  | cons s rest ih =>
    rw [uncommentedAll, List.filter_cons, ih]
    cases Keyword.isComment s.keyword <;> rfl

theorem header_uncommented (s : Statement) : s.uncommented.header = s.header := by
  cases s
  rfl

theorem keyword_uncommented (s : Statement) : s.uncommented.keyword = s.keyword :=
  congrArg Prod.fst s.header_uncommented

theorem argument_uncommented (s : Statement) : s.uncommented.argument = s.argument :=
  congrArg Prod.snd s.header_uncommented

theorem children_uncommented (s : Statement) :
    s.uncommented.children =
      (s.children.filter fun c => !Keyword.isComment c.keyword).map uncommented := by
  cases s
  exact uncommentedAll_eq_map _

theorem Commented.keyword_eq {s s' : Statement} (h : Commented s s') : s'.keyword = s.keyword := by
  cases h <;> rfl

theorem Commented.uncommented_eq {s s' : Statement} (h : Commented s s') :
    s'.uncommented = s.uncommented := by
  induction h with
  | here before after hcomment =>
    simp only [uncommented, uncommentedAll_eq_map, List.filter_append, List.filter_cons, hcomment,
      Bool.not_true, Bool.false_eq_true, if_false]
  | inside before after h ih =>
    simp only [uncommented, uncommentedAll_eq_map, List.filter_append, List.filter_cons,
      h.keyword_eq, List.map_append]
    split
    · rw [List.map_cons, List.map_cons, ih]
    · rfl

theorem SameUpToComments.uncommented_eq {s s' : Statement} (h : SameUpToComments s s') :
    s.uncommented = s'.uncommented := by
  induction h with
  | rel s s' hstep => exact hstep.uncommented_eq.symm
  | refl s => rfl
  | symm s s' _ ih => exact ih.symm
  | trans s s' s'' _ _ ih ih' => exact ih.trans ih'

/-! ### The steps of the checks -/

/-- A filter for one keyword, which is not that of comments, does not see that comments are gone. -/
theorem filter_children_uncommented (s : Statement) {keyword : String}
    (hkeyword : Keyword.isComment keyword = false) :
    (s.uncommented.children.filter fun c => c.keyword == keyword) =
      (s.children.filter fun c => c.keyword == keyword).map uncommented := by
  rw [children_uncommented, List.filter_map, List.filter_filter]
  congr 1
  apply List.filter_congr
  intro c _
  rw [Function.comp_apply, keyword_uncommented]
  by_cases hc : c.keyword = keyword
  · simp [hc, hkeyword]
  · simp [hc]

theorem child?_uncommented (s : Statement) {keyword : String}
    (hkeyword : Keyword.isComment keyword = false) :
    s.uncommented.child? keyword = (s.child? keyword).map uncommented := by
  rw [child?, child?, ← List.head?_filter, ← List.head?_filter,
    s.filter_children_uncommented hkeyword, List.head?_map]

theorem bind_argument_uncommented (found : Option Statement) :
    (found.map uncommented).bind Statement.argument = found.bind Statement.argument := by
  cases found with
  | none => rfl
  | some s => exact s.argument_uncommented

theorem ownPrefix_uncommented (s : Statement) : s.uncommented.ownPrefix = s.ownPrefix := by
  have hbelow : (s.uncommented.child? "belongs-to").bind (·.child? "prefix") =
      ((s.child? "belongs-to").bind (·.child? "prefix")).map uncommented := by
    rw [s.child?_uncommented (by decide)]
    cases s.child? "belongs-to" with
    | none => rfl
    | some b => exact b.child?_uncommented (by decide)
  rw [ownPrefix, ownPrefix, hbelow, s.child?_uncommented (by decide), ← Option.map_or,
    bind_argument_uncommented]

theorem imports_uncommented (s : Statement) :
    s.uncommented.imports = s.imports.map (Prod.map uncommented id) := by
  rw [imports, imports, s.filter_children_uncommented (by decide), List.filterMap_map,
    List.map_filterMap]
  congr 1
  funext i
  rw [Function.comp_apply, i.child?_uncommented (by decide), bind_argument_uncommented,
    Option.map_map]
  rfl

theorem headerReport_uncommented (s : Statement) : s.uncommented.headerReport = s.headerReport := by
  rw [headerReport, headerReport, argument_uncommented, keyword_uncommented]
  congr 1
  apply List.filterMap_congr
  intro entry hentry
  dsimp only
  rw [s.child?_uncommented (Structural.isComment_of_mem_required hentry), Option.isNone_map]

mutual

theorem headers_uncommented (s : Statement) :
    s.uncommented.headers .statements = s.headers .statements := by
  obtain ⟨keyword, argument, children⟩ := s
  rw [uncommented, headers, headers, headersAll_uncommentedAll children]

theorem headersAll_uncommentedAll (ss : List Statement) :
    headersAll .statements (uncommentedAll ss) = headersAll .statements ss := by
  match ss with
  | [] => rfl
  | s :: rest =>
    rw [uncommentedAll, headersAll, ← headersAll_uncommentedAll rest]
    by_cases hcomment : Keyword.isComment s.keyword = true
    · rw [if_pos hcomment, Scope.admits, hcomment]
      rfl
    · rw [if_neg hcomment, headersAll, keyword_uncommented, headers_uncommented s]

end

theorem report_uncommented (source : String) (s : Statement) :
    s.uncommented.report source = s.report source := by
  rw [report, report, ownPrefix_uncommented, imports_uncommented, headerReport_uncommented,
    headers_uncommented, header_uncommented, List.map_map, List.filterMap_map]
  refine congrArg₂ (· ++ ·) rfl (congrArg (List.filterMap · _) ?_)
  funext item
  obtain ⟨i, q⟩ := item
  rw [Function.comp_apply, Prod.map_apply]
  dsimp only
  rw [header_uncommented]
  rfl

end Statement

namespace Workspace

/-- Comments do not influence validation: documents with the same source, whose statements are the
same up to comments at any place below the root, get the same diagnostics and the same result. -/
theorem comments_ignored {w v : Workspace} {a b : Node} (ha : (a.tree w).Reachable)
    (hb : (b.tree v).Reachable) (hsource : a.source w = b.source v)
    (hsame : Statement.SameUpToComments (a.statement w) (b.statement v)) :
    (∀ context, (((Structural.validator (m := StateM Workspace)).check a context).run w).1 =
      (((Structural.validator (m := StateM Workspace)).check b context).run v).1) ∧
    ∀ context allowWarnings,
      ((a.validate (m := StateM Workspace) Structural.validator context allowWarnings).run w).1 =
        ((b.validate (m := StateM Workspace) Structural.validator context allowWarnings).run
          v).1 := by
  have huncommented := hsame.uncommented_eq
  have hreport : Structural.report (a.tree w) a.id = Structural.report (b.tree v) b.id := by
    rw [ha.forest.report_eq, hb.forest.report_eq, ← Statement.report_uncommented,
      ← Statement.report_uncommented _ ((b.tree v).snapshot b.id)]
    exact congrArg₂ Statement.report hsource huncommented
  have hkeyword : a.keyword w = b.keyword v := by
    rw [Node.keyword, Node.keyword, ← Tree.keyword_snapshot, ← Tree.keyword_snapshot,
      ← Statement.keyword_uncommented, ← Statement.keyword_uncommented ((b.tree v).snapshot b.id)]
    exact congrArg Statement.keyword huncommented
  refine ⟨fun context => ?_, fun context allowWarnings => ?_⟩
  · rw [Structural.run_check, Structural.run_check, hreport]
  · rw [Node.run_validate, Node.run_validate, hreport, hkeyword]

/-- A module with statements at its end and statements in its import. -/
def importing (atEnd inImport : List Statement) : Statement :=
  ⟨"module", some "m", [⟨"prefix", some "m", []⟩,
    ⟨"import", some "a", inImport ++ [⟨"prefix", some "a", []⟩]⟩] ++ atEnd⟩

/-- The module with a comment at its end, which seems to use the import. -/
def commentAtEnd : Workspace :=
  (({} : Workspace).add (Tree.ofStatement
    (importing [⟨Keyword.comment, some "// c", [⟨"a:b", none, []⟩]⟩] []))).1

/-- The module with a comment in the import, which seems to give another prefix. -/
def commentInImport : Workspace :=
  (({} : Workspace).add (Tree.ofStatement
    (importing [] [⟨Keyword.comment, none, [⟨"x:y", none, []⟩, ⟨"prefix", some "x", []⟩]⟩]))).1

theorem comments_ignored_importing :
    (commentAtEnd.tree ⟨0⟩).Reachable ∧ (commentInImport.tree ⟨0⟩).Reachable ∧
      Statement.SameUpToComments ((⟨⟨0⟩, 0⟩ : Node).statement commentAtEnd)
        ((⟨⟨0⟩, 0⟩ : Node).statement commentInImport) ∧
      (((Structural.validator (m := StateM Workspace)).check ⟨⟨0⟩, 0⟩ {}).run commentAtEnd).1 =
        (((Structural.validator (m := StateM Workspace)).check ⟨⟨0⟩, 0⟩ {}).run
          commentInImport).1 := by
  have hend : (commentAtEnd.tree ⟨0⟩).Reachable := .ofStatement _
  have himport : (commentInImport.tree ⟨0⟩).Reachable := .ofStatement _
  have hsame : Statement.SameUpToComments ((⟨⟨0⟩, 0⟩ : Node).statement commentAtEnd)
      ((⟨⟨0⟩, 0⟩ : Node).statement commentInImport) := by
    rw [show (⟨⟨0⟩, 0⟩ : Node).statement commentAtEnd = _ from Tree.snapshot_ofStatement _,
      show (⟨⟨0⟩, 0⟩ : Node).statement commentInImport = _ from Tree.snapshot_ofStatement _]
    have hcomment : Keyword.isComment Keyword.comment = true := by decide
    exact .trans _ (importing [] []) _ (.symm _ _ (.rel _ _ (.here [_, _] [] hcomment)))
      (.rel _ _ (.inside [_] [] (.here [] [_] hcomment)))
  exact ⟨hend, himport, hsame, (comments_ignored (a := ⟨⟨0⟩, 0⟩) (b := ⟨⟨0⟩, 0⟩) hend himport
    (by decide) hsame).1 {}⟩

end Workspace

end YangDoc
