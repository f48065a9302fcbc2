import YangDoc.Proofs.Construction.Reachable
import YangDoc.Proofs.Statement.Print
import YangDoc.Proofs.Statement.Report

/-!
# What can be seen of a statement

The text of a statement, the headers met by a traversal and the diagnostics of the structural
checks are functions of its snapshot, and of the source where diagnostics name it. So two nodes
with the same value cannot be told apart by them, whatever has happened in their tables: rows may
be numbered differently, and there may be statements on no list or with stale records in between.
-/

namespace YangDoc

theorem Context.foldl_push (ds : List Diagnostic) (context : Context) :
    ds.foldl Context.push context = ⟨context.diagnostics ++ ds⟩ := by
  induction ds generalizing context with
  | nil => rw [List.foldl_nil, List.append_nil]
  | cons d ds ih => rw [List.foldl_cons, ih, push, List.append_assoc, List.singleton_append]

namespace Structural

theorem run_check (n : Node) (context : Context) (w : Workspace) :
    ((validator (m := StateM Workspace)).check n context).run w =
      let after := (report (n.tree w) n.id).foldl Context.push context
      ((!after.hasErrors, after), w) :=
  rfl

end Structural

namespace Node

theorem map_header_preorder {n : Node} {w : Workspace} (h : (n.tree w).Forest) (scope : Scope) :
    (n.preorder w scope).map (fun x => (x.keyword w, x.argument w)) =
      (n.statement w).headers scope := by
  rw [preorder, List.map_map, statement, ← h.map_header_preorder]
  rfl

/-- A run of the checks gives back the context that it was given, and it reads the workspace only
through the keyword of the node and the report about it. -/
theorem run_validate (n : Node) (context : Option Context) (allowWarnings : Bool) (w : Workspace) :
    (n.validate (m := StateM Workspace) Structural.validator context allowWarnings).run w =
      let after := (Structural.report (n.tree w) n.id).foldl Context.push {}
      ((if Keyword.isRoot (n.keyword w) then
          .ok (Verdict.of (!after.hasErrors) allowWarnings after.diagnostics)
        else .error (.notTopLevel (n.keyword w)), context), w) := by
  change (if Keyword.isRoot (n.keyword w) then _ else _ : StateM Workspace _).run w = _
  by_cases hroot : Keyword.isRoot (n.keyword w)
  · simp only [if_pos hroot]
    cases context with
    | none => rfl
    | some before => rfl
  · simp only [if_neg hroot]
    rfl

theorem validate_root {n : Node} {w : Workspace} (hroot : Keyword.isRoot (n.keyword w) = true)
    (context : Option Context) (allowWarnings : Bool) :
    ((n.validate (m := StateM Workspace) Structural.validator context allowWarnings).run w).1.1 =
      let report := Structural.report (n.tree w) n.id
      .ok (Verdict.of (!report.any Diagnostic.isError) allowWarnings report) := by
  rw [run_validate]
  simp only [if_pos hroot, Context.foldl_push]
  rfl

end Node

namespace Workspace

/-- Nodes with the same value, in any two documents, are printed alike, traversed alike and, where
the sources agree, validated alike. A copy has the value of what was copied. -/
theorem observations_eq {w v : Workspace} {a b : Node} (ha : (a.tree w).Reachable)
    (hb : (b.tree v).Reachable) (hsame : a.statement w = b.statement v) :
    (∀ layout, a.print w layout = b.print v layout) ∧
    (∀ scope, (a.preorder w scope).map (fun x => (x.keyword w, x.argument w)) =
      (b.preorder v scope).map fun x => (x.keyword v, x.argument v)) ∧
    (a.source w = b.source v →
      (∀ context, (((Structural.validator (m := StateM Workspace)).check a context).run w).1 =
        (((Structural.validator (m := StateM Workspace)).check b context).run v).1) ∧
      ∀ context allowWarnings,
        ((a.validate (m := StateM Workspace) Structural.validator context allowWarnings).run w).1 =
          ((b.validate (m := StateM Workspace) Structural.validator context allowWarnings).run
            v).1) ∧
    ∀ (t : Tree) layout, t.Reachable →
      (t.copyFrom (a.tree w) a.id).1.print layout (t.copyFrom (a.tree w) a.id).2 =
        a.print w layout := by
  have hforest := ha.forest
  have hforest' := hb.forest
  refine ⟨?_, ?_, ?_, ?_⟩
  · intro layout
    rw [Node.print, Node.print, hforest.print_eq, hforest'.print_eq]
    exact congrArg (Statement.print layout layout.startLevel) hsame
  · intro scope
    rw [Node.map_header_preorder hforest, Node.map_header_preorder hforest', hsame]
  · intro hsource
    have hreport : Structural.report (a.tree w) a.id = Structural.report (b.tree v) b.id := by
      rw [hforest.report_eq, hforest'.report_eq]
      exact congrArg₂ Statement.report hsource hsame
    have hkeyword : a.keyword w = b.keyword v := by
      rw [Node.keyword, Node.keyword, ← Tree.keyword_snapshot, ← Tree.keyword_snapshot]
      exact congrArg Statement.keyword hsame
    refine ⟨fun context => ?_, fun context allowWarnings => ?_⟩
    · rw [Structural.run_check, Structural.run_check, hreport]
    · rw [Node.run_validate, Node.run_validate, hreport, hkeyword]
  · intro t layout ht
    have hcopy : (t.plant (a.statement w)).1.Forest := (t.planted _).forest ht.forest
    show (t.plant (a.statement w)).1.print layout (t.plant (a.statement w)).2 = _
    rw [Tree.plant_snd, hcopy.print_eq, Tree.snapshot_plant, Node.print, hforest.print_eq]
    rfl

/-- The first document of the sample in a table of its own, where the container comes before its
leaf. -/
def replanted : Workspace :=
  (({} : Workspace).add (Tree.ofStatement ((⟨⟨0⟩, 0⟩ : Node).statement sample))).1

theorem observations_eq_replanted :
    (sample.tree ⟨0⟩).Reachable ∧ (replanted.tree ⟨0⟩).Reachable ∧
      (⟨⟨0⟩, 0⟩ : Node).preorder sample .all ≠ (⟨⟨0⟩, 0⟩ : Node).preorder replanted .all ∧
      (⟨⟨0⟩, 0⟩ : Node).print sample {} = (⟨⟨0⟩, 0⟩ : Node).print replanted {} ∧
      (((⟨⟨0⟩, 0⟩ : Node).validate (m := StateM Workspace) Structural.validator none true).run
          sample).1 =
        (((⟨⟨0⟩, 0⟩ : Node).validate (m := StateM Workspace) Structural.validator none true).run
          replanted).1 := by
  have hsample : (sample.tree ⟨0⟩).Reachable := reachable_sample.tree (by decide)
  have hreplanted : (replanted.tree ⟨0⟩).Reachable := .ofStatement _
  obtain ⟨hprint, -, hvalidate, -⟩ := observations_eq (a := ⟨⟨0⟩, 0⟩) (b := ⟨⟨0⟩, 0⟩) hsample
    hreplanted (by decide)
  exact ⟨hsample, hreplanted, by decide, hprint {}, (hvalidate (by decide)).2 none true⟩

end Workspace

end YangDoc
