import YangDoc.Proofs.Construction.Reachable
import YangDoc.Proofs.Statement.Print
import YangDoc.Proofs.Syntax.Comments

/-!
# Reading back what is printed

The text of a statement, printed in the order of its substatements, reads back as the statement
without its comments. Printing and reading meet at the tokens of a statement: scanning its text
gives its tokens, and parsing its tokens gives the statement. Both are inductions over the
statement, with the comments dropping out of the first.
-/

namespace YangDoc

open Syntax

namespace Statement

mutual

/-- The statement without comments and what hangs below them. -/
def uncommented : Statement → Statement
  | ⟨keyword, argument, children⟩ => ⟨keyword, argument, uncommentedAll children⟩

def uncommentedAll : List Statement → List Statement
  | [] => []
  | s :: rest =>
    if Keyword.isComment s.keyword then uncommentedAll rest
    else uncommented s :: uncommentedAll rest

end

mutual

/-- Every keyword can be read as a word, and every comment ends where it is meant to. -/
def Readable : Statement → Prop
  | ⟨keyword, argument, children⟩ =>
    if Keyword.isComment keyword then Comment.Closed argument
    else Quoting.needed keyword = false ∧ ReadableAll children

def ReadableAll : List Statement → Prop
  | [] => True
  | s :: rest => Readable s ∧ ReadableAll rest

end

/-! ### Tokens of a statement -/

def argumentToken (keyword argument : String) : Token :=
  if Keyword.argumentKind keyword = .identifier ∧ Quoting.needed argument = false then
    .word argument
  else .quoted argument

def headingTokens (keyword : String) (argument : Option String) : List Token :=
  .word keyword :: (argument.map (argumentToken keyword)).toList

mutual

def tokens : Statement → List Token
  | ⟨keyword, argument, children⟩ =>
    if Keyword.isComment keyword then []
    else
      headingTokens keyword argument ++
        if children = [] then [.semicolon] else .opening :: (tokensAll children ++ [.closing])

def tokensAll : List Statement → List Token
  | [] => []
  | s :: rest => tokens s ++ tokensAll rest

end

/-! ### Parsing the tokens -/

theorem take_semicolon (around : List Frame) (before : List Statement) (keyword : String)
    (argument : Option String) :
    Partial.take ⟨around, before, some (keyword, argument)⟩ .semicolon =
      some ⟨around, before ++ [⟨keyword, argument, []⟩], none⟩ := by
  cases argument <;> rfl

theorem take_opening (around : List Frame) (before : List Statement) (keyword : String)
    (argument : Option String) :
    Partial.take ⟨around, before, some (keyword, argument)⟩ .opening =
      some ⟨⟨keyword, argument, before⟩ :: around, [], none⟩ := by
  cases argument <;> rfl

theorem foldlM_headingTokens (around : List Frame) (before : List Statement) (keyword : String)
    (argument : Option String) :
    (headingTokens keyword argument).foldlM Partial.take ⟨around, before, none⟩ =
      some ⟨around, before, some (keyword, argument)⟩ := by
  cases argument with
  | none => rfl
  | some argument =>
    rw [headingTokens, Option.map_some, argumentToken]
    split
    · rfl
    · rfl

mutual

theorem foldlM_tokens : ∀ (s : Statement) (around : List Frame) (before : List Statement),
    Keyword.isComment s.keyword = false →
    s.tokens.foldlM Partial.take ⟨around, before, none⟩ =
      some ⟨around, before ++ [s.uncommented], none⟩
  | ⟨keyword, argument, children⟩, around, before, hcomment => by
    have hkeyword : Keyword.isComment keyword = false := hcomment
    rw [tokens, hkeyword, if_neg Bool.false_ne_true, List.foldlM_append, foldlM_headingTokens]
    by_cases hchildren : children = []
    · rw [if_pos hchildren, hchildren, Option.bind_eq_bind, Option.bind_some, List.foldlM_cons,
        take_semicolon]
      rfl
    · have hbelow := foldlM_tokensAll children (⟨keyword, argument, before⟩ :: around) []
      rw [if_neg hchildren, Option.bind_eq_bind, Option.bind_some, List.foldlM_cons, take_opening,
        Option.bind_eq_bind, Option.bind_some, List.foldlM_append, hbelow]
      rfl

theorem foldlM_tokensAll : ∀ (ss : List Statement) (around : List Frame)
    (before : List Statement),
    (tokensAll ss).foldlM Partial.take ⟨around, before, none⟩ =
      some ⟨around, before ++ uncommentedAll ss, none⟩
  | [], around, before => by
    rw [uncommentedAll, List.append_nil]
    rfl
  | s :: rest, around, before => by
    rw [tokensAll, uncommentedAll, List.foldlM_append]
    cases hcomment : Keyword.isComment s.keyword with
    | true =>
      have hnone : s.tokens = [] := by
        obtain ⟨keyword, argument, children⟩ := s
        exact if_pos hcomment
      rw [hnone, if_pos rfl]
      exact foldlM_tokensAll rest around before
    | false =>
      rw [foldlM_tokens s around before hcomment, if_neg Bool.false_ne_true]
      have hrest := foldlM_tokensAll rest around (before ++ [s.uncommented])
      rw [List.append_assoc, List.singleton_append] at hrest
      exact hrest

end

theorem parse_tokens {s : Statement} (hcomment : Keyword.isComment s.keyword = false) :
    parse s.tokens = some s.uncommented := by
  have hrun := foldlM_tokens s [] [] hcomment
  rw [parse, show ({} : Partial) = ⟨[], [], none⟩ from rfl, hrun]
  rfl

end Statement

namespace Syntax

/-! ### Scanning the text -/

theorem plain_of_not_needed {text : String} (h : Quoting.needed text = false) :
    Plain text.toList ∧ text.toList ≠ [] := by
  rw [Quoting.needed, Bool.or_eq_false_iff, Bool.or_eq_false_iff, List.any_eq_false] at h
  obtain ⟨⟨hempty, hchars⟩, hmarks⟩ := h
  refine ⟨⟨fun c hc => ?_, hmarks⟩, ?_⟩
  · have := hchars c hc
    simpa using this
  · simpa using hempty

theorem Plain.not_mem_lineBreak {cs : List Char} (h : Plain cs) : '\n' ∉ cs := by
  intro hmem
  have hblank := (h.chars '\n' hmem).1
  exact absurd hblank (by decide)

variable {indent keyword : String} {rest : List Char}

/-- An argument after its keyword, which brings the scanner to the column after the keyword. -/
theorem scan_argument (hindent : ∀ c ∈ indent.toList, c = ' ' ∨ c = '\t')
    (keyword argument : String) (hrest : Stops rest) :
    ∃ column, scan .gap (indent.length + keyword.length)
        ((Layout.argumentText indent keyword argument).toList ++ rest) =
      (scan .gap column rest).map (Statement.argumentToken keyword argument :: ·) := by
  have hblank : Text.isBlank ' ' = true := by decide
  unfold Layout.argumentText Statement.argumentToken
  by_cases hbare : Keyword.argumentKind keyword = .identifier ∧ Quoting.needed argument = false
  · obtain ⟨hplain, hne⟩ := plain_of_not_needed hbare.2
    have htext : (" " ++ argument).toList ++ rest = ' ' :: (argument.toList ++ rest) := by simp
    rw [if_pos hbare, if_pos hbare, htext, scan_blank hblank, scan_word hplain hne hrest,
      String.ofList_toList]
    exact ⟨_, rfl⟩
  · have hpad : ∀ c ∈ indent.toList ++ List.replicate (keyword.length + 1) ' ',
        c = ' ' ∨ c = '\t' := by
      intro c hc
      rcases List.mem_append.1 hc with hc | hc
      · exact hindent c hc
      · exact .inl (List.eq_of_mem_replicate hc)
    have hlength : (indent.toList ++ List.replicate (keyword.length + 1) ' ').length =
        indent.length + keyword.length + 1 := by
      rw [List.length_append, List.length_replicate, String.length_toList, Nat.add_assoc]
    have htext : (" " ++ Layout.quoted indent keyword argument).toList ++ rest =
        ' ' :: '"' :: (Layout.quotedBody
          (indent.toList ++ List.replicate (keyword.length + 1) ' ') argument.toList ++
            '"' :: rest) := by
      simp [Layout.quoted]
    have hquote : ∀ column ahead, step .gap column '"' ahead = some (.quoted column [] 0, []) :=
      fun _ _ => rfl
    have hcolumn : advance (indent.length + keyword.length) ' ' =
        indent.length + keyword.length + 1 := rfl
    rw [if_neg hbare, if_neg hbare, htext, scan_blank hblank, hcolumn,
      scan_cons_silent (hquote _ _), scan_quotedBody hpad hlength (.inl rfl), List.nil_append,
      String.ofList_toList]
    exact ⟨_, rfl⟩

theorem scan_heading (hindent : ∀ c ∈ indent.toList, c = ' ' ∨ c = '\t')
    (hkeyword : Quoting.needed keyword = false) (argument : Option String) (hrest : Stops rest) :
    ∃ column, scan .gap 0 ((indent ++ keyword ++
        (argument.map (Layout.argumentText indent keyword)).getD "").toList ++ rest) =
      (scan .gap column rest).map (Statement.headingTokens keyword argument ++ ·) := by
  obtain ⟨hplain, hne⟩ := plain_of_not_needed hkeyword
  have hcolumn : columnAfter (0 + indent.toList.length) keyword.toList =
      indent.length + keyword.length := by
    rw [columnAfter_of_not_mem hplain.not_mem_lineBreak, Nat.zero_add, String.length_toList,
      String.length_toList]
  rw [String.toList_append, String.toList_append, List.append_assoc, List.append_assoc,
    scan_indent hindent]
  cases argument with
  | none =>
    have htext : ((none.map (Layout.argumentText indent keyword)).getD "").toList ++ rest =
        rest := rfl
    rw [htext, scan_word hplain hne hrest, String.ofList_toList]
    exact ⟨_, rfl⟩
  | some argument =>
    have hspace : Stops ((Layout.argumentText indent keyword argument).toList ++ rest) := by
      have hstart : ∃ cs, (Layout.argumentText indent keyword argument).toList = ' ' :: cs := by
        unfold Layout.argumentText
        split
        · exact ⟨argument.toList, by simp⟩
        · exact ⟨(Layout.quoted indent keyword argument).toList, by simp⟩
      obtain ⟨cs, hcs⟩ := hstart
      exact ⟨' ', cs ++ rest, by rw [hcs, List.cons_append], by decide⟩
    obtain ⟨column, hargument⟩ := scan_argument hindent keyword argument hrest
    rw [Option.map_some, Option.getD_some, scan_word hplain hne hspace, hcolumn, hargument,
      String.ofList_toList, Option.map_map]
    exact ⟨column, rfl⟩

variable {layout : Layout}

theorem stops_cons {c : Char} (hc : (Text.isBlank c || Quoting.isDelimiter c) = true)
    (cs : List Char) : Stops (c :: cs) :=
  ⟨c, cs, rfl, hc⟩

theorem scan_leaf (level : Nat) (hkeyword : Quoting.needed keyword = false)
    (argument : Option String) :
    scan .gap 0 ((layout.statementText level keyword argument none).toList ++ rest) =
      (scan .gap 0 rest).map
        ((Statement.headingTokens keyword argument ++ [.semicolon]) ++ ·) := by
  obtain ⟨column, hheading⟩ := scan_heading (indent_blank layout level) hkeyword argument
    (stops_cons (c := ';') (by decide) ('\n' :: rest))
  have htext : (layout.statementText level keyword argument none).toList ++ rest =
      (layout.indent level ++ keyword ++ (argument.map
        (Layout.argumentText (layout.indent level) keyword)).getD "").toList ++
          ';' :: '\n' :: rest := by
    rw [Layout.statementText, String.toList_append, List.append_assoc]
    rfl
  rw [htext, hheading, scan_semicolon, Option.map_map]
  congr 1
  funext tokens
  simp

theorem scan_block (level : Nat) (hkeyword : Quoting.needed keyword = false)
    (argument : Option String) {body : String} {inner : List Token}
    (hbody : ∀ rest, scan .gap 0 (body.toList ++ rest) = (scan .gap 0 rest).map (inner ++ ·)) :
    scan .gap 0 ((layout.statementText level keyword argument (some body)).toList ++ rest) =
      (scan .gap 0 rest).map
        ((Statement.headingTokens keyword argument ++ .opening :: (inner ++ [.closing])) ++ ·) := by
  have htext : (layout.statementText level keyword argument (some body)).toList ++ rest =
      (layout.indent level ++ keyword ++ (argument.map
        (Layout.argumentText (layout.indent level) keyword)).getD "").toList ++
          ' ' :: '\x7b' :: '\n' :: (body.toList ++
            ((layout.indent level).toList ++ '\x7d' :: '\n' :: rest)) := by
    rw [Layout.statementText]
    simp only [String.toList_append, List.append_assoc]
    rfl
  obtain ⟨column, hheading⟩ := scan_heading (indent_blank layout level) hkeyword argument
    (stops_cons (c := ' ') (by decide) ('\x7b' :: '\n' :: (body.toList ++
      ((layout.indent level).toList ++ '\x7d' :: '\n' :: rest))))
  rw [htext, hheading, scan_opening, hbody, scan_indent (indent_blank layout level), scan_closing]
  simp only [Option.map_map]
  congr 1
  funext tokens
  simp

mutual

theorem scan_print (hlayout : layout.bySection = false) : ∀ (s : Statement) (level : Nat)
    (rest : List Char), s.Readable →
    scan .gap 0 ((s.print layout level).toList ++ rest) = (scan .gap 0 rest).map (s.tokens ++ ·)
  | ⟨keyword, argument, children⟩, level, rest, hs => by
    rw [Statement.Readable] at hs
    rw [Statement.print, Statement.tokens]
    cases hcomment : Keyword.isComment keyword with
    | true =>
      rw [hcomment, if_pos rfl] at hs
      rw [if_pos rfl, if_pos rfl, scan_commentText (indent_blank layout level) hs]
      exact Option.map_id'.symm
    | false =>
      rw [hcomment, if_neg Bool.false_ne_true] at hs
      rw [if_neg Bool.false_ne_true, if_neg Bool.false_ne_true]
      by_cases hchildren : children = []
      · rw [if_pos hchildren, if_pos hchildren, scan_leaf level hs.1 argument]
      · have harranged : ∀ texts, Statement.arranged layout keyword texts = texts := by
          intro texts
          rw [Statement.arranged, hlayout]
          rfl
        rw [if_neg hchildren, if_neg hchildren, harranged]
        apply scan_block level hs.1 argument
        intro rest
        exact scan_printAll hlayout children (level + 1) rest hs.2

theorem scan_printAll (hlayout : layout.bySection = false) : ∀ (ss : List Statement) (level : Nat)
    (rest : List Char), Statement.ReadableAll ss →
    scan .gap 0 ((String.join ((Statement.printAll layout level ss).map Prod.snd)).toList ++ rest) =
      (scan .gap 0 rest).map (Statement.tokensAll ss ++ ·)
  | [], _, _, _ => Option.map_id'.symm
  | s :: rest', level, rest, hss => by
    rw [Statement.ReadableAll] at hss
    rw [Statement.printAll, List.map_cons, String.join_cons, String.toList_append,
      List.append_assoc, scan_print hlayout s level _ hss.1,
      scan_printAll hlayout rest' level rest hss.2, Option.map_map, Statement.tokensAll]
    congr 1
    funext tokens
    simp

end

theorem read_print_statement (hlayout : layout.bySection = false) {s : Statement} (level : Nat)
    (hcomment : Keyword.isComment s.keyword = false) (hs : s.Readable) :
    read (s.print layout level) = some s.uncommented := by
  have hscan := scan_print hlayout s level [] hs
  rw [List.append_nil] at hscan
  rw [read, hscan]
  change parse (s.tokens ++ []) = _
  rw [List.append_nil, Statement.parse_tokens hcomment]

/-- Wherever a readable statement stands, and also once it has been planted anywhere, its text in
any indentation reads back as the statement without its comments. -/
theorem read_print (hlayout : layout.bySection = false) {s : Statement}
    (hcomment : Keyword.isComment s.keyword = false) (hs : s.Readable) :
    (∀ (w : Workspace) (n : Node), w.Reachable → n.Live w → n.statement w = s →
      read (n.print w layout) = some s.uncommented) ∧
    ∀ t : Tree, t.Forest → read ((t.plant s).1.print layout t.size) = some s.uncommented := by
  constructor
  · intro w n hw hn hstatement
    have hforest : (n.tree w).Forest := hw.sound n.document hn.has
    have hsnapshot : (n.tree w).snapshot n.id = s := hstatement
    rw [Node.print, hforest.print_eq, hsnapshot]
    exact read_print_statement hlayout layout.startLevel hcomment hs
  · intro t ht
    rw [((t.planted s).forest ht).print_eq, Tree.snapshot_plant]
    exact read_print_statement hlayout layout.startLevel hcomment hs

/-- An argument of several lines in a statement that has been indented with tabs, and two
comments. -/
theorem read_print_description :
    read (((Tree.new "m" "module").plant ⟨"leaf", some "l",
        [⟨"_comment", some (Comment.ofText "one\n/two"), []⟩,
          ⟨"description", some "a\n\n  \"b\"\t\n", [⟨"_comment", some Comment.blank, []⟩]⟩]⟩).1.print
        { useSpaces := false, startLevel := 2 } 1) =
      some ⟨"leaf", some "l", [⟨"description", some "a\n\n  \"b\"\t\n", []⟩]⟩ := by
  have hclosed : Comment.Closed (some (Comment.ofText "one\n/two")) :=
    .inr ⟨"one\n/two", by decide, rfl⟩
  have hreadable : Statement.Readable ⟨"leaf", some "l",
      [⟨"_comment", some (Comment.ofText "one\n/two"), []⟩,
        ⟨"description", some "a\n\n  \"b\"\t\n", [⟨"_comment", some Comment.blank, []⟩]⟩]⟩ :=
    ⟨by decide, hclosed, ⟨by decide, .inl rfl, trivial⟩, trivial⟩
  exact (read_print rfl rfl hreadable).2 (Tree.new "m" "module") (Tree.forest_new "m" "module")

end Syntax

end YangDoc
