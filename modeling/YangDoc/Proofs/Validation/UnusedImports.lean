import YangDoc.Proofs.Validation.Findings

/-!
# Imports that are called unused

An import is called unused when its prefix is found in no keyword and no argument. For a prefix that
is an identifier, the search in an argument comes down to this: the prefix and a colon stand at the
start of the argument or right after a separator. Every separator ends an identifier, but not every
character that ends an identifier is a separator. Behind one of the others, such as `<`, a name is
overlooked, and the import is called unused although the document refers to it.
-/

namespace YangDoc

namespace Text

def beginsIdentifier (c : Char) : Bool :=
  c.isAlpha || c == '_'

def inIdentifier (c : Char) : Bool :=
  c.isAlphanum || ['_', '-', '.'].contains c

def isIdentifier (name : String) : Bool :=
  name.toList.head?.any beginsIdentifier && name.toList.all inIdentifier

variable {c : Char}

theorem toNat_of_inIdentifier (h : inIdentifier c = true) : 45 ≤ c.toNat ∧ c.toNat ≤ 122 := by
  rw [inIdentifier, Bool.or_eq_true, List.contains_iff_mem] at h
  rcases h with hrange | hmark
  · change ((decide (65 ≤ c.toNat ∧ c.toNat ≤ 90) ||
      decide (97 ≤ c.toNat) && decide (c.toNat ≤ 122)) ||
      decide (48 ≤ c.toNat) && decide (c.toNat ≤ 57)) = true at hrange
    simp only [Bool.or_eq_true, Bool.and_eq_true, decide_eq_true_eq] at hrange
    omega
  · have hmarks : ['_', '-', '.'].all (fun d => 45 ≤ d.toNat ∧ d.toNat ≤ 122) = true := by decide
    exact of_decide_eq_true (List.all_eq_true.1 hmarks c hmark)

-- there is no blank between `-` and `z`
theorem not_isBlank_of_inIdentifier (h : inIdentifier c = true) : isBlank c = false := by
  have hrange := toNat_of_inIdentifier h
  have hblank : ∀ r ∈ blankRanges, r.2 < 45 ∨ 122 < r.1 := by decide
  simp only [isBlank, inRanges, List.any_eq_false, Bool.and_eq_true, decide_eq_true_eq]
  intro r hr
  have := hblank r hr
  omega

end Text

namespace Structural

variable {argument p : String} {c : Char}

/-! ### Names in an argument -/

theorem not_isSeparator_of_inIdentifier (h : Text.inIdentifier c = true) :
    isSeparator c = false := by
  have hends : "/[]()=|+,'\"".toList.all (!Text.inIdentifier ·) = true := by decide
  rw [isSeparator, Text.not_isBlank_of_inIdentifier h, Bool.false_or, List.contains_eq_mem,
    decide_eq_false_iff_not]
  intro hc
  have hc := List.all_eq_true.1 hends c hc
  rw [h] at hc
  cases hc

/-- A prefix that is an identifier is found where it stands, with a colon, at the start of the
argument or right after a separator. -/
theorem refers_iff (hp : Text.isIdentifier p = true) :
    Refers argument p ↔ ∃ before after, argument = before ++ p ++ ":" ++ after ∧
      ∀ c ∈ before.toList.getLast?, isSeparator c = true := by
  rw [Text.isIdentifier, Bool.and_eq_true, List.all_eq_true] at hp
  obtain ⟨hstart, hchars⟩ := hp
  constructor
  · rintro ⟨-, token, ⟨-, before, after, hargument, hbefore, -⟩, -, name, rfl⟩
    refine ⟨String.ofList before, name ++ String.ofList after, ?_, ?_⟩
    · rw [← String.toList_inj, hargument]
      simp
    · rwa [String.toList_ofList]
  · rintro ⟨before, after, rfl, hbefore⟩
    have hne : p ≠ "" := by
      rintro rfl
      simp at hstart
    have hcolon : ':' ∉ p.toList := fun hmem => absurd (hchars ':' hmem) (by decide)
    have hstretch : ∀ c ∈ (p ++ ":").toList, isSeparator c = false := by
      intro c hc
      rw [String.toList_append, List.mem_append] at hc
      rcases hc with hc | hc
      · exact not_isSeparator_of_inIdentifier (hchars c hc)
      · rw [show c = ':' by simpa using hc]
        decide
    obtain ⟨name, hpiece⟩ := Text.exists_isPiece hbefore hstretch after.toList
    refine ⟨hne, p ++ ":" ++ String.ofList name, ?_, hcolon, _, rfl⟩
    simpa using hpiece

variable {t : Tree} {root i : NodeId}

theorem not_used_iff (hp : Text.isIdentifier p = true) :
    ¬ Used t root p ↔ ∀ x ∈ visited t root, ¬ Keyword.Qualifies p (t.keyword x) ∧
      (t.keyword x ∉ proseKeywords →
        ∀ before after, t.argument x = some (before ++ p ++ ":" ++ after) →
          ∃ c ∈ before.toList.getLast?, isSeparator c = false) := by
  simp only [Used, refers_iff hp]
  push Not
  refine forall₂_congr fun x _ => and_congr_right fun _ => imp_congr_right fun _ => ?_
  constructor
  · intro hnone before after hargument
    simpa using hnone _ hargument before after rfl
  · rintro hafter argument hargument before after rfl
    simpa using hafter before after hargument

/-! ### The warning -/

theorem message_unused_injective {q : String} (h : (unused p).message = (unused q).message) :
    p = q := by
  rw [unused, unused, ← String.toList_inj] at h
  rw [← String.toList_inj]
  simpa using h

theorem locate_unused_mem_report (h : t.Forest) (hroot : Keyword.isRoot (t.keyword root) = true)
    (hi : i ∈ t.children root) (himport : t.keyword i = "import") (hp : GivesPrefix t i p) :
    t.locate i (unused p) ∈ report t root ↔ ¬ Used t root p := by
  rw [(collects_report h hroot).mem_iff Finds.unique]
  constructor
  · rintro ⟨check, -, hfinds⟩
    have hwarning : ∀ {j : NodeId} {e : Diagnostic}, e.severity = .error →
        t.locate i (unused p) ≠ t.locate j e := by
      intro j e herror heq
      have hseverity : Severity.warning = e.severity := congrArg Diagnostic.severity heq
      rw [herror] at hseverity
      cases hseverity
    generalize hd : t.locate i (unused p) = d at hfinds
    cases hfinds with
    | missingName _ => exact absurd hd (hwarning rfl)
    | missing _ => exact absurd hd (hwarning rfl)
    | undeclared _ _ => exact absurd hd (hwarning rfl)
    | @unused j q _ hunused =>
      have hmessage := congrArg Diagnostic.message hd
      rwa [message_unused_injective (p := p) (q := q) hmessage]
  · intro hunused
    refine ⟨.linkage i, ?_, .unused hp hunused⟩
    apply List.mem_append_right
    exact List.mem_map_of_mem (List.mem_filter.2 ⟨hi, beq_iff_eq.2 himport⟩)

end Structural

namespace Workspace

open Structural

/-- An import whose prefix is an identifier is called unused exactly if the prefix is that of no
keyword and, wherever it stands with a colon in an argument that is not prose, a character that is
no separator stands right before it. So a name at the start of an argument or after a separator
always keeps its import from being called unused. -/
theorem unused_import_iff {w : Workspace} {n : Node} {i : NodeId} {p : String} (hw : w.Reachable)
    (hroot : Keyword.isRoot (n.keyword w) = true) (hi : i ∈ (n.tree w).children n.id)
    (himport : (n.tree w).keyword i = "import") (hgives : GivesPrefix (n.tree w) i p)
    (hp : Text.isIdentifier p = true) :
    (n.tree w).locate i (unused p) ∈
        (((validator (m := StateM Workspace)).check n {}).run w).1.2.diagnostics ↔
      ∀ x ∈ visited (n.tree w) n.id, ¬ Keyword.Qualifies p ((n.tree w).keyword x) ∧
        ((n.tree w).keyword x ∉ proseKeywords →
          ∀ before after, (n.tree w).argument x = some (before ++ p ++ ":" ++ after) →
            ∃ c ∈ before.toList.getLast?, isSeparator c = false) := by
  have hforest : (n.tree w).Forest :=
    hw.sound n.document (Node.Live.has (Tree.lt_size_of_isRoot hroot))
  rw [run_check]
  simp only [Context.foldl_push]
  rw [List.nil_append, locate_unused_mem_report hforest hroot hi himport hgives, not_used_iff hp]

theorem unused_import_iff_imports :
    withImports.Reachable ∧ Keyword.isRoot ((⟨⟨0⟩, 0⟩ : Node).keyword withImports) = true ∧
      GivesPrefix (withImports.tree ⟨0⟩) 4 "b" ∧
      (withImports.tree ⟨0⟩).locate 4 (unused "b") ∉
        (((validator (m := StateM Workspace)).check ⟨⟨0⟩, 0⟩ {}).run
          withImports).1.2.diagnostics := by
  have hw : withImports.Reachable := Reachable.empty.ofStatement _
  have hroot : Keyword.isRoot ((⟨⟨0⟩, 0⟩ : Node).keyword withImports) = true := by decide
  have hgives : GivesPrefix (withImports.tree ⟨0⟩) 4 "b" := givesPrefix_iff.1 (by decide)
  refine ⟨hw, hroot, hgives, fun hunused => ?_⟩
  have hafter := (unused_import_iff hw hroot (by decide) (by decide) hgives (by decide)).1 hunused
  obtain ⟨c, hc, hno⟩ := (hafter 9 (by decide)).2 (by decide) "../" "l = 1" (by decide)
  rw [Option.mem_def, show "../".toList.getLast? = some '/' by decide, Option.some.injEq] at hc
  rw [← hc] at hno
  exact absurd hno (by decide)

/-- A module that refers to its import right after a `<`. -/
def withComparison : Workspace :=
  (({} : Workspace).add (Tree.ofStatement ⟨"module", some "m", [⟨"namespace", some "urn:m", []⟩,
    ⟨"prefix", some "m", []⟩, ⟨"import", some "a", [⟨"prefix", some "a", []⟩]⟩,
    ⟨"container", some "c", [⟨"must", some "1<a:b", []⟩]⟩]⟩)).1

/-- The import is called unused, although the argument of `must` has the name `a:b`, after a
character that ends an identifier. -/
theorem unused_import_overlooked :
    withComparison.Reachable ∧ Keyword.isRoot ((⟨⟨0⟩, 0⟩ : Node).keyword withComparison) = true ∧
      3 ∈ (withComparison.tree ⟨0⟩).children 0 ∧
      (withComparison.tree ⟨0⟩).keyword 3 = "import" ∧
      GivesPrefix (withComparison.tree ⟨0⟩) 3 "a" ∧ Text.isIdentifier "a" = true ∧
      6 ∈ visited (withComparison.tree ⟨0⟩) 0 ∧
      (withComparison.tree ⟨0⟩).keyword 6 ∉ proseKeywords ∧
      (withComparison.tree ⟨0⟩).argument 6 = some ("1<" ++ "a" ++ ":" ++ "b") ∧
      "1<".toList.getLast? = some '<' ∧ Text.inIdentifier '<' = false ∧
      "b".toList.head? = some 'b' ∧ Text.beginsIdentifier 'b' = true ∧
      (withComparison.tree ⟨0⟩).locate 3 (unused "a") ∈
        (((validator (m := StateM Workspace)).check ⟨⟨0⟩, 0⟩ {}).run
          withComparison).1.2.diagnostics := by
  refine ⟨Reachable.empty.ofStatement _, by decide, by decide, by decide,
    givesPrefix_iff.1 (by decide), ?_⟩
  decide

end Workspace

end YangDoc
