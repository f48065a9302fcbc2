import YangDoc.Comment
import YangDoc.Proofs.Syntax.Scanning
import YangDoc.Proofs.Text.Lines

/-!
# Scanning comments

A comment made from a text that does not hold the end mark of a block is printed as a line comment
or as a block of lines, and the scanner passes over it without finding a token. The printer cuts
the comment into lines once more, which may lose a carriage return but moves no mark.
-/

namespace YangDoc

def Comment.endMark : List Char :=
  ['*', '/']

namespace Syntax

variable {column : Nat} {c : Char} {cs rest : List Char}

/-! ### Line comments -/

theorem scan_inLineComment (hcs : '\n' ∉ cs) :
    scan .lineComment column (cs ++ '\n' :: rest) = scan .gap 0 rest := by
  induction cs generalizing column with
  | nil => exact scan_cons_silent rfl
  | cons c cs ih =>
    rw [List.mem_cons, not_or] at hcs
    have hstep : step .lineComment column c (cs ++ '\n' :: rest) = some (.lineComment, []) := by
      change some (if c = '\n' then Mode.gap else .lineComment, []) = _
      rw [if_neg (Ne.symm hcs.1)]
    rw [List.cons_append, scan_cons_silent hstep, ih hcs.2]

theorem scan_lineComment (hcs : '\n' ∉ cs) :
    scan .gap column ('/' :: '/' :: cs ++ '\n' :: rest) = scan .gap 0 rest := by
  have hstep : step .gap column '/' ('/' :: cs ++ '\n' :: rest) = some (.lineComment, []) := rfl
  have hmark : '\n' ∉ '/' :: cs := by simpa using hcs
  rw [List.cons_append, scan_cons_silent hstep]
  exact scan_inLineComment hmark

/-! ### Blocks -/

theorem scan_blockChar (hmark : isMark '*' '/' c cs = false) :
    scan .block column (c :: cs) = scan .block (advance column c) cs := by
  apply scan_cons_silent
  change some (if isMark '*' '/' c cs then Mode.blockEnd else .block, []) = _
  rw [hmark]
  rfl

theorem scan_blockIndent {indent : List Char} (hindent : ∀ c ∈ indent, c = ' ' ∨ c = '\t') :
    scan .block column (indent ++ cs) = scan .block (columnAfter column indent) cs := by
  induction indent generalizing column with
  | nil => rfl
  | cons c indent ih =>
    rw [List.forall_mem_cons] at hindent
    have hmark : isMark '*' '/' c (indent ++ cs) = false := by
      rcases hindent.1 with rfl | rfl <;> rfl
    rw [List.cons_append, scan_blockChar hmark, ih hindent.2]
    rfl

theorem scan_blockLine (hcs : ¬ Comment.endMark <:+: cs) :
    scan .block column (cs ++ '\n' :: rest) = scan .block 0 rest := by
  induction cs generalizing column with
  | nil => exact scan_blockChar rfl
  | cons c cs ih =>
    rw [List.infix_cons_iff, not_or] at hcs
    have hmark : isMark '*' '/' c (cs ++ '\n' :: rest) = false := by
      rw [← Bool.not_eq_true, isMark, Bool.and_eq_true, beq_iff_eq, beq_iff_eq]
      intro hmark
      obtain ⟨rfl, hhead⟩ := hmark
      cases cs with
      | nil => simp at hhead
      | cons d ds =>
        obtain rfl : d = '/' := Option.some.inj hhead
        exact hcs.1 ⟨ds, rfl⟩
    rw [List.cons_append, scan_blockChar hmark, ih hcs.2]

theorem scan_blockStart : scan .gap column ('/' :: '*' :: cs) = scan .block (column + 2) cs := by
  have hfirst : step .gap column '/' ('*' :: cs) = some (.blockStart, []) := rfl
  have hsecond : step .blockStart (column + 1) '*' cs = some (.block, []) := rfl
  rw [scan_cons_silent hfirst]
  exact scan_cons_silent hsecond

theorem scan_blockEnd : scan .block column ('*' :: '/' :: '\n' :: cs) = scan .gap 0 cs := by
  have hfirst : step .block column '*' ('/' :: '\n' :: cs) = some (.blockEnd, []) := rfl
  have hsecond : step .blockEnd (advance column '*') '/' ('\n' :: cs) = some (.gap, []) := rfl
  rw [scan_cons_silent hfirst, scan_cons_silent hsecond, scan_blank (by decide)]
  rfl

/-! ### Comments as they are printed -/

variable {indent : String} {lines : List (List Char)}

theorem toList_commentLine (hindent : ∀ c ∈ indent.toList, c = ' ' ∨ c = '\t')
    (line : List Char) :
    ∃ pad : List Char, (∀ c ∈ pad, c = ' ' ∨ c = '\t') ∧
      (Layout.commentLine indent line).toList = pad ++ (line ++ ['\n']) := by
  unfold Layout.commentLine
  by_cases hstar : line.head? = some '*'
  · refine ⟨indent.toList ++ [' '], ?_, by simp [hstar]⟩
    intro c hc
    rcases List.mem_append.1 hc with hc | hc
    · exact hindent c hc
    · exact .inl (List.mem_singleton.1 hc)
  · exact ⟨indent.toList, hindent, by simp [hstar]⟩

theorem scan_blockLines (hindent : ∀ c ∈ indent.toList, c = ' ' ∨ c = '\t')
    (hlines : ∀ l ∈ lines, ¬ Comment.endMark <:+: l) :
    scan .block 0 (lines.flatMap (fun l => (Layout.commentLine indent l).toList) ++ rest) =
      scan .block 0 rest := by
  induction lines with
  | nil => rfl
  | cons l lines ih =>
    rw [List.forall_mem_cons] at hlines
    obtain ⟨pad, hpad, htext⟩ := toList_commentLine hindent l
    rw [List.flatMap_cons, htext, List.append_assoc, List.append_assoc, List.append_assoc,
      scan_blockIndent hpad, List.singleton_append, scan_blockLine hlines.1, ih hlines.2]

theorem scan_openingLine (hindent : ∀ c ∈ indent.toList, c = ' ' ∨ c = '\t') :
    scan .gap 0 ((Layout.commentLine indent ['/', '*']).toList ++ rest) = scan .block 0 rest := by
  obtain ⟨pad, hpad, htext⟩ := toList_commentLine hindent ['/', '*']
  have hend : ¬ Comment.endMark <:+: ([] : List Char) := by
    simp [Comment.endMark]
  have hbreak : ∀ column, scan .block column ('\n' :: rest) = scan .block 0 rest :=
    fun _ => scan_blockLine hend
  rw [htext, List.append_assoc, List.append_assoc, scan_indent hpad, List.singleton_append,
    List.cons_append, List.singleton_append, scan_blockStart, hbreak]

theorem scan_closingLine (hindent : ∀ c ∈ indent.toList, c = ' ' ∨ c = '\t') :
    scan .block 0 ((Layout.commentLine indent ['*', '/']).toList ++ rest) = scan .gap 0 rest := by
  obtain ⟨pad, hpad, htext⟩ := toList_commentLine hindent ['*', '/']
  rw [htext, List.append_assoc, scan_blockIndent hpad, List.append_assoc, List.singleton_append,
    List.cons_append, List.singleton_append, scan_blockEnd]

theorem scan_blockComment (hindent : ∀ c ∈ indent.toList, c = ' ' ∨ c = '\t')
    (hlines : ∀ l ∈ lines, ¬ Comment.endMark <:+: l) :
    scan .gap 0 ((['/', '*'] :: (lines ++ [['*', '/']])).flatMap
      (fun l => (Layout.commentLine indent l).toList) ++ rest) = scan .gap 0 rest := by
  rw [List.flatMap_cons, List.append_assoc, scan_openingLine hindent, List.flatMap_append,
    List.append_assoc, scan_blockLines hindent hlines, List.flatMap_singleton,
    scan_closingLine hindent]

end Syntax

/-! ### Comments made from a text -/

namespace Comment

theorem lines_intercalate {ls : List (List Char)} (hls : ∀ l ∈ ls, '\n' ∉ l) (hne : ls ≠ [])
    (rest : List Char) :
    Text.lines (['\n'].intercalate ls ++ '\n' :: rest) = ls.map Text.chomp ++ Text.lines rest := by
  induction ls with
  | nil => exact absurd rfl hne
  | cons l ls ih =>
    rw [List.forall_mem_cons] at hls
    by_cases hlast : ls = []
    · rw [hlast, List.intercalate_singleton, Text.lines_append_lineBreak hls.1]
      rfl
    · rw [List.intercalate_cons_of_ne_nil hlast, List.append_assoc, List.append_assoc,
        List.singleton_append, Text.lines_append_lineBreak hls.1, ih hls.2 hlast]
      rfl

/-- The star in front of a line makes no end mark. -/
theorem endMark_starred {line : List Char} (h : endMark <:+: starred line) :
    endMark <:+: line := by
  rw [starred, List.infix_cons_iff, List.infix_cons_iff] at h
  rcases h with h | h | h
  · simp [endMark] at h
  · simp [endMark] at h
  · exact h

def blockLines (lines : List (List Char)) : List (List Char) :=
  if lines = [] then [[]] else lines.map fun line => Text.chomp (starred line)

theorem lines_ofText_eq (text : String) :
    Text.lines (ofText text).toList =
      match Text.lines (Text.trim text.toList) with
      | [line] => ['/' :: '/' :: ' ' :: line]
      | lines => ['/', '*'] :: (blockLines lines ++ [['*', '/']]) := by
  have hlines : ∀ l ∈ Text.lines (Text.trim text.toList), '\n' ∉ l := fun l hl =>
    (Text.infix_of_mem_lines hl).2
  unfold ofText
  generalize Text.lines (Text.trim text.toList) = ls at hlines
  split
  · rename_i line
    have hline := hlines line (List.mem_singleton_self line)
    rw [String.toList_ofList]
    exact Text.lines_of_not_mem (by simpa using hline) (by simp)
  · next hmany =>
    have htext : ("/*\n" ++ String.intercalate "\n" (ls.map fun l => String.ofList (starred l)) ++
        "\n*/").toList =
          ['/', '*'] ++ '\n' :: (['\n'].intercalate (ls.map starred) ++ '\n' :: ['*', '/']) := by
      simp [String.toList_intercalate, Function.comp_def]
    have hlast : Text.lines ['*', '/'] = [['*', '/']] := rfl
    rw [htext, Text.lines_append_lineBreak (by decide)]
    have hstarred : ∀ line ∈ ls.map starred, '\n' ∉ line := by
      intro line hline
      obtain ⟨line, hmem, rfl⟩ := List.mem_map.1 hline
      simpa [starred] using hlines line hmem
    match ls with
    | [] => rfl
    | [line] => exact absurd rfl (hmany line)
    | first :: second :: ls =>
      rw [lines_intercalate hstarred (by simp), hlast, List.map_map]
      rfl

/-- One line comment, or a block around lines that hold no end mark unless the text does. -/
theorem lines_ofText (text : String) :
    (∃ line, '\n' ∉ line ∧ Text.lines (ofText text).toList = ['/' :: '/' :: line]) ∨
      ∃ lines, Text.lines (ofText text).toList = ['/', '*'] :: (lines ++ [['*', '/']]) ∧
        ∀ l ∈ lines, endMark <:+: l → endMark <:+: text.toList := by
  have hlines : ∀ l ∈ Text.lines (Text.trim text.toList), l <:+: text.toList ∧ '\n' ∉ l := by
    intro l hl
    have hstretch := Text.infix_of_mem_lines hl
    exact ⟨hstretch.1.trans (Text.infix_trim _), hstretch.2⟩
  rw [lines_ofText_eq]
  split
  · next line hline =>
    have hbreak := (hlines line (by simp [hline])).2
    exact .inl ⟨' ' :: line, by simpa using hbreak, rfl⟩
  · refine .inr ⟨_, rfl, fun l hl hmark => ?_⟩
    generalize Text.lines (Text.trim text.toList) = ls at hlines hl
    cases ls with
    | nil =>
      rw [List.mem_singleton.1 hl] at hmark
      simp [endMark] at hmark
    | cons head ls =>
      obtain ⟨line, hline, rfl⟩ := List.mem_map.1 hl
      have hstarred := hmark.trans (Text.prefix_chomp (starred line)).isInfix
      exact (endMark_starred hstarred).trans (hlines line hline).1

theorem trim_ofText (text : String) : Text.trim (ofText text).toList ≠ [] := by
  have hslash : '/' ∈ (ofText text).toList := by
    unfold ofText
    split
    · simp
    · simp
  exact Text.trim_ne_nil hslash (by decide)

end Comment

/-- The text of a comment node is that of a blank line, or was made from a text without an end
mark. -/
def Comment.Closed (argument : Option String) : Prop :=
  argument = some Comment.blank ∨
    ∃ text : String, ¬ Comment.endMark <:+: text.toList ∧ argument = some (Comment.ofText text)

theorem Syntax.scan_commentText {indent : String} {argument : Option String} {rest : List Char}
    (hindent : ∀ c ∈ indent.toList, c = ' ' ∨ c = '\t') (hargument : Comment.Closed argument) :
    scan .gap 0 ((Layout.commentText indent (argument.getD "")).toList ++ rest) =
      scan .gap 0 rest := by
  rcases hargument with rfl | ⟨text, hmark, rfl⟩
  · rw [Option.getD_some, Layout.commentText, if_pos (by decide)]
    have hbreak : Text.isBlank '\n' = true := by decide
    exact scan_blank hbreak
  · rw [Option.getD_some, Layout.commentText, if_neg (Comment.trim_ofText text),
      String.toList_join, List.flatMap_map]
    rcases Comment.lines_ofText text with ⟨line, hline, hlines⟩ | ⟨lines, hlines, hmarks⟩
    · obtain ⟨pad, hpad, htext⟩ := toList_commentLine hindent ('/' :: '/' :: line)
      rw [hlines, List.flatMap_singleton, htext, List.append_assoc, List.append_assoc,
        scan_indent hpad]
      exact scan_lineComment hline
    · rw [hlines]
      exact scan_blockComment hindent fun l hl h => hmark (hmarks l hl h)

end YangDoc
