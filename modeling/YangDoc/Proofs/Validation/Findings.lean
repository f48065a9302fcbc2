import YangDoc.Proofs.Section.Rearrangement
import YangDoc.Proofs.Tree.Traversal
import YangDoc.Proofs.Validation.References

/-!
# What the structural checks find

The structural checks collect the prefix of the document, its imports and the prefixes in use before
they report anything. What they report in the end is said here without these collections: a list of
single checks, in their order, and for each of them the condition under which it finds a fault and
the diagnostic that it then gives. A check finds one fault at most, so the report is determined, and
it is exactly the one that the checker makes.
-/

namespace YangDoc

namespace Tree

/-- The first substatement of `id` with a keyword is `c`. -/
def FirstChild (t : Tree) (id : NodeId) (keyword : String) (c : NodeId) : Prop :=
  t.keyword c = keyword ∧ ∃ before after, t.children id = before ++ c :: after ∧
    ∀ b ∈ before, t.keyword b ≠ keyword

variable {t : Tree} {id c : NodeId} {keyword : String}

theorem child?_eq_some_iff : t.child? id keyword = some c ↔ t.FirstChild id keyword c := by
  rw [child?, List.find?_eq_some_iff_append, FirstChild]
  simp only [beq_iff_eq, Bool.not_eq_true', beq_eq_false_iff_ne]

theorem child?_eq_none_iff :
    t.child? id keyword = none ↔ ∀ c ∈ t.children id, t.keyword c ≠ keyword := by
  rw [child?, List.find?_eq_none]
  simp only [beq_iff_eq]

end Tree

namespace Structural

/-! ### Reports, check by check -/

section Collects

variable {α : Type} {finds : α → Diagnostic → Prop} {xs ys : List α} {ds es : List Diagnostic}

/-- What checks find, one after the other. A check that finds nothing adds nothing. -/
inductive Collects (finds : α → Diagnostic → Prop) : List α → List Diagnostic → Prop where
  | nil : Collects finds [] []
  | found {x : α} {d : Diagnostic} {xs : List α} {ds : List Diagnostic} (hd : finds x d)
      (hrest : Collects finds xs ds) : Collects finds (x :: xs) (d :: ds)
  | clean {x : α} {xs : List α} {ds : List Diagnostic} (hnone : ∀ d, ¬ finds x d)
      (hrest : Collects finds xs ds) : Collects finds (x :: xs) ds

namespace Collects

theorem append (hxs : Collects finds xs ds) (hys : Collects finds ys es) :
    Collects finds (xs ++ ys) (ds ++ es) := by
  induction hxs with
  | nil => exact hys
  | found hd _ ih => exact .found hd ih
  | clean hnone _ ih => exact .clean hnone ih

theorem filterMap {β : Type} {f : β → Option Diagnostic} {check : β → α} {items : List β}
    (hf : ∀ x ∈ items, ∀ d, f x = some d ↔ finds (check x) d) :
    Collects finds (items.map check) (items.filterMap f) := by
  induction items with
  | nil => exact .nil
  | cons x items ih =>
    rw [List.forall_mem_cons] at hf
    rw [List.map_cons, List.filterMap_cons]
    cases hx : f x with
    | none =>
      refine .clean (fun d hd => ?_) (ih hf.2)
      rw [(hf.1 d).2 hd] at hx
      cases hx
    | some d => exact .found ((hf.1 d).1 hx) (ih hf.2)

/-- Where each check finds one fault at most, there is one report. -/
theorem unique (hfinds : ∀ x d e, finds x d → finds x e → d = e) (hds : Collects finds xs ds)
    (hes : Collects finds xs es) : ds = es := by
  induction hds generalizing es with
  | nil =>
    cases hes
    rfl
  | found hd _ ih =>
    cases hes with
    | found he hrest => rw [hfinds _ _ _ hd he, ih hrest]
    | clean hnone _ => exact absurd hd (hnone _)
  | clean hnone _ ih =>
    cases hes with
    | found he _ => exact absurd he (hnone _)
    | clean _ hrest => exact ih hrest

theorem mem_iff (hfinds : ∀ x d e, finds x d → finds x e → d = e) (hds : Collects finds xs ds)
    {d : Diagnostic} : d ∈ ds ↔ ∃ x ∈ xs, finds x d := by
  induction hds with
  | nil => simp
  | @found x e xs ds he _ ih =>
    rw [List.mem_cons, List.exists_mem_cons_iff, ih]
    exact or_congr ⟨fun h => h ▸ he, fun hd => hfinds _ _ _ hd he⟩ Iff.rfl
  | clean hnone _ ih =>
    rw [List.exists_mem_cons_iff, ih]
    exact ⟨.inr, fun h => h.resolve_left (hnone d)⟩

end Collects

end Collects

/-! ### The checks and what they find -/

/-- A single check. -/
inductive Check where
  /-- The root has a name. -/
  | name
  /-- The root has a substatement with this keyword; the code is that of its absence. -/
  | header (keyword code : String)
  /-- The prefix of the keyword is declared. -/
  | keyword (id : NodeId)
  /-- The prefix of the import is used. -/
  | linkage (id : NodeId)

variable (t : Tree) (root : NodeId)

/-- The statements at and below the root that are not part of a comment, in pre-order. -/
def visited : List NodeId :=
  (t.preorder .all root).filter fun x => !t.inComment root x

def checks : List Check :=
  [.name] ++
    (if t.keyword root = "module" then [.header "namespace" "E0002", .header "prefix" "E0003"]
      else [.header "belongs-to" "E0004"]) ++
    (visited t root).map .keyword ++
    ((t.children root).filter fun c => t.keyword c == "import").map .linkage

/-- The first `prefix` statement below `id` gives the prefix `q`. -/
def GivesPrefix (id : NodeId) (q : String) : Prop :=
  ∃ c, t.FirstChild id "prefix" c ∧ t.argument c = some q

/-- The prefix of the document itself: that of the root, or, where the root has no `prefix`
statement, that of its first `belongs-to`. -/
def OwnPrefix (q : String) : Prop :=
  GivesPrefix t root q ∨ (∀ c ∈ t.children root, t.keyword c ≠ "prefix") ∧
    ∃ b, t.FirstChild root "belongs-to" b ∧ GivesPrefix t b q

/-- The prefix belongs to the document or to one of its imports. -/
def Declared (q : String) : Prop :=
  OwnPrefix t root q ∨ ∃ i ∈ t.children root, t.keyword i = "import" ∧ GivesPrefix t i q

/-- The prefix stands in the keyword of a statement, or in an argument that is not prose. -/
def Used (q : String) : Prop :=
  ∃ x ∈ visited t root, Keyword.Qualifies q (t.keyword x) ∨
    t.keyword x ∉ proseKeywords ∧ ∃ argument, t.argument x = some argument ∧ Refers argument q

/-- A check finds a fault, and this is its diagnostic. -/
inductive Finds : Check → Diagnostic → Prop where
  | missingName (h : t.argument root = none) : Finds .name (t.locate root missingName)
  | missing {keyword code : String} (h : ∀ c ∈ t.children root, t.keyword c ≠ keyword) :
      Finds (.header keyword code) (t.locate root (missing keyword code))
  | undeclared {x : NodeId} {q : String} (hq : Keyword.Qualifies q (t.keyword x))
      (h : ¬ Declared t root q) : Finds (.keyword x) (t.locate x (undeclared q))
  | unused {i : NodeId} {q : String} (hq : GivesPrefix t i q) (h : ¬ Used t root q) :
      Finds (.linkage i) (t.locate i (unused q))

/-! ### The checker's collections -/

variable {t root}

theorem givesPrefix_iff {id : NodeId} {q : String} :
    (t.child? id "prefix").bind t.argument = some q ↔ GivesPrefix t id q := by
  simp only [Option.bind_eq_some_iff, Tree.child?_eq_some_iff, GivesPrefix]

theorem Finds.unique (check : Check) (d e : Diagnostic) (hd : Finds t root check d)
    (he : Finds t root check e) : d = e := by
  cases hd with
  | missingName _ =>
    cases he
    rfl
  | missing _ =>
    cases he
    rfl
  | undeclared hq _ =>
    cases he with
    | undeclared hq' _ => rw [hq.unique hq']
  | unused hq _ =>
    cases he with
    | unused hq' _ =>
      rw [← givesPrefix_iff] at hq hq'
      rw [Option.some.inj (hq.symm.trans hq')]

theorem ownPrefix_eq_some_iff {q : String} :
    ownPrefix t root = some q ↔ OwnPrefix t root q := by
  rw [OwnPrefix, ← givesPrefix_iff, ← Tree.child?_eq_none_iff, ownPrefix]
  simp only [← givesPrefix_iff, ← Tree.child?_eq_some_iff]
  cases t.child? root "prefix" with
  | some c => simp
  | none =>
    cases t.child? root "belongs-to" with
    | some b => simp
    | none => simp

theorem mem_imports_iff {i : NodeId} {q : String} :
    (i, q) ∈ imports t root ↔
      i ∈ t.children root ∧ t.keyword i = "import" ∧ GivesPrefix t i q := by
  simp only [imports, Tree.select_keyword, List.mem_filterMap, List.mem_filter, beq_iff_eq,
    Option.map_eq_some_iff, givesPrefix_iff]
  constructor
  · rintro ⟨j, ⟨hchild, hkeyword⟩, p, hprefix, heq⟩
    obtain ⟨rfl, rfl⟩ := Prod.mk.inj heq
    exact ⟨hchild, hkeyword, hprefix⟩
  · rintro ⟨hchild, hkeyword, hprefix⟩
    exact ⟨i, ⟨hchild, hkeyword⟩, q, hprefix, rfl⟩

theorem mem_declared_iff {q : String} :
    q ∈ (ownPrefix t root).toList ++ (imports t root).map (·.2) ↔ Declared t root q := by
  rw [List.mem_append, Option.mem_toList, ownPrefix_eq_some_iff, List.mem_map, Declared]
  refine or_congr_right ⟨?_, ?_⟩
  · rintro ⟨⟨i, p⟩, hi, rfl⟩
    exact ⟨i, mem_imports_iff.1 hi⟩
  · rintro ⟨i, hi⟩
    exact ⟨(i, q), mem_imports_iff.2 hi, rfl⟩

theorem mem_usedBy_iff {x : NodeId} {q : String} :
    q ∈ usedBy t x ↔ Keyword.Qualifies q (t.keyword x) ∨
      t.keyword x ∉ proseKeywords ∧
        ∃ argument, t.argument x = some argument ∧ Refers argument q := by
  rw [usedBy, List.mem_append, Option.mem_toList, Keyword.qualifier?_eq_some_iff]
  refine or_congr_right ?_
  by_cases hprose : t.keyword x ∈ proseKeywords
  · simp [hprose]
  · cases hargument : t.argument x with
    | none => simp [hprose]
    | some argument => simp [hprose, mem_referenced_iff]

theorem mem_used_iff (h : t.Forest) {q : String} :
    q ∈ (t.preorder .statements root).flatMap (usedBy t) ↔ Used t root q := by
  rw [h.preorder_statements, List.mem_flatMap, Used]
  simp only [mem_usedBy_iff]
  rfl

/-! ### The report -/

theorem isRoot_iff {keyword : String} :
    Keyword.isRoot keyword = true ↔ keyword = "module" ∨ keyword = "submodule" := by
  simp [Keyword.isRoot, Keyword.roots]

theorem collects_headerReport (hroot : Keyword.isRoot (t.keyword root) = true) :
    Collects (Finds t root)
      ([.name] ++ if t.keyword root = "module" then
          [.header "namespace" "E0002", .header "prefix" "E0003"]
        else [.header "belongs-to" "E0004"])
      ((headerReport t root).map (t.locate root)) := by
  have hname : Collects (Finds t root) [.name]
      ((if (t.argument root).isNone then [missingName] else []).map (t.locate root)) := by
    cases hargument : t.argument root with
    | none => exact .found (.missingName hargument) .nil
    | some name =>
      refine .clean (fun d hd => ?_) .nil
      cases hd with
      | missingName hnone => simp [hnone] at hargument
  have hheader : (if t.keyword root = "module" then
        [.header "namespace" "E0002", .header "prefix" "E0003"]
      else [.header "belongs-to" "E0004"]) =
      (required (t.keyword root)).map fun entry => Check.header entry.1 entry.2 := by
    rcases isRoot_iff.1 hroot with hmodule | hsubmodule
    · rw [hmodule]
      rfl
    · rw [hsubmodule]
      rfl
  rw [headerReport, List.map_append, List.map_filterMap, hheader]
  apply hname.append
  apply Collects.filterMap
  rintro ⟨keyword, code⟩ _ d
  simp only [Option.isNone_iff_eq_none, Tree.child?_eq_none_iff]
  constructor
  · intro hd
    obtain ⟨e, he, rfl⟩ := Option.map_eq_some_iff.1 hd
    rw [Option.ite_none_right_eq_some] at he
    obtain ⟨hmissing, he⟩ := he
    exact Option.some.inj he ▸ .missing hmissing
  · intro hd
    cases hd with
    | missing hmissing =>
      rw [if_pos hmissing]
      rfl

theorem collects_report (h : t.Forest) (hroot : Keyword.isRoot (t.keyword root) = true) :
    Collects (Finds t root) (checks t root) (report t root) := by
  have hkeywords : Collects (Finds t root) ((visited t root).map .keyword)
      ((t.preorder .statements root).filterMap fun x =>
        ((Keyword.qualifier? (t.keyword x)).filter fun q =>
          !((ownPrefix t root).toList ++ (imports t root).map (·.2)).contains q).map fun q =>
            t.locate x (undeclared q)) := by
    rw [h.preorder_statements]
    apply Collects.filterMap
    intro x _ d
    simp only [Option.map_eq_some_iff, Option.filter_eq_some_iff, Keyword.qualifier?_eq_some_iff,
      Bool.not_eq_true', List.contains_eq_mem, decide_eq_false_iff_not, mem_declared_iff]
    constructor
    · rintro ⟨q, ⟨hq, hundeclared⟩, rfl⟩
      exact .undeclared hq hundeclared
    · intro hd
      cases hd with
      | undeclared hq hundeclared => exact ⟨_, ⟨hq, hundeclared⟩, rfl⟩
  have hlinkage : Collects (Finds t root)
      (((t.children root).filter fun c => t.keyword c == "import").map .linkage)
      ((imports t root).filterMap fun item =>
        if ((t.preorder .statements root).flatMap (usedBy t)).contains item.2 then none
        else some (t.locate item.1 (unused item.2))) := by
    rw [imports, Tree.select_keyword, List.filterMap_filterMap]
    apply Collects.filterMap
    intro i _ d
    constructor
    · intro hd
      obtain ⟨⟨j, q⟩, hitem, hd⟩ := Option.bind_eq_some_iff.1 hd
      obtain ⟨p, hprefix, heq⟩ := Option.map_eq_some_iff.1 hitem
      obtain ⟨rfl, rfl⟩ := Prod.mk.inj heq
      rw [Option.ite_none_left_eq_some, List.contains_iff_mem, mem_used_iff h] at hd
      obtain ⟨hunused, hd⟩ := hd
      exact Option.some.inj hd ▸ .unused (givesPrefix_iff.1 hprefix) hunused
    · intro hd
      cases hd with
      | unused hq hunused =>
        rw [givesPrefix_iff.2 hq, Option.map_some, Option.bind_some]
        dsimp only
        rw [if_neg (by rwa [List.contains_iff_mem, mem_used_iff h])]
  exact ((collects_headerReport hroot).append hkeywords).append hlinkage

end Structural

namespace Workspace

open Structural

variable {w : Workspace} {n : Node}

/-- On a module or submodule the structural checks report exactly what the single checks find: a
missing name, the missing statements of the header, then the keywords with a prefix that is not
declared, in pre-order and outside of comments, and then the imports whose prefix is not used. -/
theorem findings_exact (hw : w.Reachable) (hroot : Keyword.isRoot (n.keyword w) = true)
    (ds : List Diagnostic) :
    ((((validator (m := StateM Workspace)).check n {}).run w).1.2.diagnostics = ds ↔
      Collects (Finds (n.tree w) n.id) (checks (n.tree w) n.id) ds) ∧
    ∀ allowWarnings, (((n.validate (m := StateM Workspace) validator (some {}) allowWarnings).run
      w).1.1.map Verdict.diagnostics = .ok ds ↔
        Collects (Finds (n.tree w) n.id) (checks (n.tree w) n.id) ds) := by
  have hforest : (n.tree w).Forest :=
    hw.sound n.document (Node.Live.has (Tree.lt_size_of_isRoot hroot))
  have hreport := collects_report hforest hroot
  have hiff : report (n.tree w) n.id = ds ↔
      Collects (Finds (n.tree w) n.id) (checks (n.tree w) n.id) ds :=
    ⟨fun heq => heq ▸ hreport, fun hds => hreport.unique Finds.unique hds⟩
  refine ⟨?_, fun allowWarnings => ?_⟩
  · rw [run_check]
    simp only [Context.foldl_push]
    exact hiff
  · rw [Node.validate_root hroot]
    show Except.ok (report (n.tree w) n.id) = .ok ds ↔ _
    rw [Except.ok.injEq]
    exact hiff

/-- A module without namespace, with an import that is used, one that is not, and prefixes in and
outside of a comment. -/
def withImports : Workspace :=
  (({} : Workspace).add (Tree.ofStatement ⟨"module", some "m", [⟨"prefix", some "m", []⟩,
    ⟨"import", some "a", [⟨"prefix", some "a", []⟩]⟩,
    ⟨"import", some "b", [⟨Keyword.comment, none, [⟨"a:c", none, []⟩]⟩, ⟨"prefix", some "b", []⟩]⟩,
    ⟨"x:y", none, [⟨"must", some "../b:l = 1", []⟩]⟩]⟩)).1

theorem findings_exact_imports :
    withImports.Reachable ∧ Keyword.isRoot ((⟨⟨0⟩, 0⟩ : Node).keyword withImports) = true ∧
      Collects (Finds (withImports.tree ⟨0⟩) 0) (checks (withImports.tree ⟨0⟩) 0)
        [(withImports.tree ⟨0⟩).locate 0 (missing "namespace" "E0002"),
          (withImports.tree ⟨0⟩).locate 8 (undeclared "x"),
          (withImports.tree ⟨0⟩).locate 2 (unused "a")] := by
  have hw : withImports.Reachable := Reachable.empty.ofStatement _
  have hroot : Keyword.isRoot ((⟨⟨0⟩, 0⟩ : Node).keyword withImports) = true := by decide
  exact ⟨hw, hroot, (findings_exact hw hroot _).1.1 (by decide)⟩

end Workspace

end YangDoc
