import Mathlib.Tactic.Common
import YangDoc.Layout
import YangDoc.Proofs.Syntax.Reader

/-!
# Scanning what is printed

How the scanner gets through the pieces that a printed statement is made of: indentation, words,
quoted arguments, line comments and blocks. Each lemma says that the scanner is back in a gap after
the piece and has found its tokens, whatever the rest of the text is.
-/

namespace YangDoc.Layout

variable {pad cs : List Char} {c : Char}

theorem not_mem_escapeChar (hc : c ≠ '\n') : '\n' ∉ Quoting.escapeChar c := by
  unfold Quoting.escapeChar
  split_ifs <;> simp [Ne.symm hc]

theorem quotedBody_cons (hc : c ≠ '\n') :
    quotedBody pad (c :: cs) = Quoting.escapeChar c ++ quotedBody pad cs := by
  rw [quotedBody]
  all_goals simp [hc]

theorem quotedBody_break (hc : c ≠ '\n') :
    quotedBody pad ('\n' :: c :: cs) = '\n' :: (pad ++ [' ']) ++ quotedBody pad (c :: cs) := by
  rw [quotedBody]
  · simp
  · exact hc

/-- Induction over the lines of an argument, as they are written: a line break ends the argument, or
is followed by an empty line, or by a character of the next line. -/
@[elab_as_elim]
theorem lines_induction {P : List Char → Prop} (nil : P []) (last : P ['\n'])
    (empty : ∀ cs, P ('\n' :: cs) → P ('\n' :: '\n' :: cs))
    (line : ∀ c cs, c ≠ '\n' → P (c :: cs) → P ('\n' :: c :: cs))
    (char : ∀ c cs, c ≠ '\n' → P cs → P (c :: cs)) (cs : List Char) : P cs := by
  induction cs using quotedBody.induct with
  | case1 => exact nil
  | case2 => exact last
  | case3 cs ih => exact empty cs ih
  | case4 c cs hc ih => exact line c cs hc ih
  | case5 c cs hlast hempty hmore ih =>
    refine char c cs ?_ ih
    rintro rfl
    cases cs with
    | nil => exact hlast rfl rfl
    | cons d ds => exact hmore d ds rfl rfl

end YangDoc.Layout

namespace YangDoc.Syntax

variable {mode next : Mode} {column : Nat} {c : Char} {cs rest : List Char} {out : List Token}

def columnAfter (column : Nat) (cs : List Char) : Nat :=
  cs.foldl advance column

theorem columnAfter_append (column : Nat) (xs ys : List Char) :
    columnAfter column (xs ++ ys) = columnAfter (columnAfter column xs) ys :=
  List.foldl_append

theorem columnAfter_lineBreak (column : Nat) (cs : List Char) :
    columnAfter column ('\n' :: cs) = columnAfter 0 cs :=
  rfl

theorem columnAfter_of_not_mem (hcs : '\n' ∉ cs) :
    columnAfter column cs = column + cs.length := by
  induction cs generalizing column with
  | nil => rfl
  | cons c cs ih =>
    rw [List.mem_cons, not_or] at hcs
    have hc : advance column c = column + 1 := if_neg (Ne.symm hcs.1)
    change columnAfter (advance column c) cs = _
    rw [hc, ih hcs.2, List.length_cons]
    omega

theorem scan_cons (hstep : step mode column c cs = some (next, out)) :
    scan mode column (c :: cs) = (scan next (advance column c) cs).map (out ++ ·) := by
  rw [scan, hstep]
  cases hscan : scan next (advance column c) cs with
  | none => simp [hscan]
  | some tokens => simp [hscan]

theorem scan_cons_silent (hstep : step mode column c cs = some (next, [])) :
    scan mode column (c :: cs) = scan next (advance column c) cs := by
  rw [scan_cons hstep]
  exact Option.map_id'

/-! ### Gaps and punctuation -/

theorem scan_blank (hc : Text.isBlank c = true) :
    scan .gap column (c :: cs) = scan .gap (advance column c) cs := by
  apply scan_cons_silent
  change gapStep column c cs = _
  rw [gapStep, if_pos hc]

theorem indent_blank (layout : Layout) (level : Nat) :
    ∀ c ∈ (layout.indent level).toList, c = ' ' ∨ c = '\t' := by
  intro c hc
  unfold Layout.indent at hc
  split at hc
  · rw [Text.toList_repeated] at hc
    exact .inl (List.eq_of_mem_replicate hc)
  · rw [Text.toList_repeated] at hc
    exact .inr (List.eq_of_mem_replicate hc)

theorem scan_indent {indent : List Char} (hindent : ∀ c ∈ indent, c = ' ' ∨ c = '\t') :
    scan .gap column (indent ++ cs) = scan .gap (column + indent.length) cs := by
  induction indent generalizing column with
  | nil => rfl
  | cons c indent ih =>
    rw [List.forall_mem_cons] at hindent
    have hblank : Text.isBlank c = true := by
      rcases hindent.1 with rfl | rfl <;> decide
    have hadvance : advance column c = column + 1 := by
      rcases hindent.1 with rfl | rfl <;> rfl
    rw [List.cons_append, scan_blank hblank, hadvance, ih hindent.2, List.length_cons]
    congr 1
    omega

theorem scan_semicolon :
    scan .gap column (';' :: '\n' :: cs) = (scan .gap 0 cs).map (.semicolon :: ·) := by
  have hstep : step .gap column ';' ('\n' :: cs) = some (.gap, [.semicolon]) := rfl
  rw [scan_cons hstep, scan_blank (by decide)]
  rfl

theorem scan_opening :
    scan .gap column (' ' :: '\x7b' :: '\n' :: cs) = (scan .gap 0 cs).map (.opening :: ·) := by
  have hstep : step .gap (advance column ' ') '\x7b' ('\n' :: cs) = some (.gap, [.opening]) := rfl
  rw [scan_blank (by decide), scan_cons hstep, scan_blank (by decide)]
  rfl

theorem scan_closing :
    scan .gap column ('\x7d' :: '\n' :: cs) = (scan .gap 0 cs).map (.closing :: ·) := by
  have hstep : step .gap column '\x7d' ('\n' :: cs) = some (.gap, [.closing]) := rfl
  rw [scan_cons hstep, scan_blank (by decide)]
  rfl

/-! ### Words -/

/-- The text goes on with a character that no word holds. -/
def Stops (rest : List Char) : Prop :=
  ∃ c cs, rest = c :: cs ∧ (Text.isBlank c || Quoting.isDelimiter c) = true

theorem Stops.endsWord (h : Stops rest) : endsWord rest = true := by
  obtain ⟨c, cs, rfl, hc⟩ := h
  rw [Syntax.endsWord, hc, Bool.true_or, Bool.true_or]

theorem Stops.isMark (h : Stops rest) {first second : Char} (hsecond : second = '/' ∨ second = '*')
    (c : Char) : isMark first second c rest = false := by
  obtain ⟨d, cs, rfl, hd⟩ := h
  have hne : d ≠ second := by
    rintro rfl
    rcases hsecond with rfl | rfl <;> exact absurd hd (by decide)
  simp [Syntax.isMark, hne]

theorem isMark_append {first second : Char} (hcs : cs ≠ []) :
    isMark first second c (cs ++ rest) = isMark first second c cs := by
  obtain ⟨d, ds, rfl⟩ := List.exists_cons_of_ne_nil hcs
  rfl

theorem hasCommentMark_tail (h : Quoting.hasCommentMark (c :: cs) = false) :
    Quoting.hasCommentMark cs = false := by
  unfold Quoting.hasCommentMark at h
  split at h
  · simp at h
  · simp at h
  · simp at h
  · rename_i heq
    rw [(List.cons.inj heq).2]
    exact h
  · simp at *

theorem isMark_of_hasCommentMark (h : Quoting.hasCommentMark (c :: cs) = false) :
    isMark '/' '/' c cs = false ∧ isMark '/' '*' c cs = false := by
  have hmark : ∀ d, d = '/' ∨ d = '*' → isMark '/' d c cs = false := by
    intro d hd
    rw [← Bool.not_eq_true, isMark, Bool.and_eq_true, beq_iff_eq, beq_iff_eq]
    intro hmark
    obtain ⟨rfl, hhead⟩ := hmark
    obtain ⟨ds, rfl⟩ := List.head?_eq_some_iff.1 hhead
    rcases hd with rfl | rfl
    · simp [Quoting.hasCommentMark] at h
    · simp [Quoting.hasCommentMark] at h
  exact ⟨hmark _ (.inl rfl), hmark _ (.inr rfl)⟩

/-- Characters that can stand in a word, one after the other. -/
structure Plain (cs : List Char) : Prop where
  chars : ∀ c ∈ cs, Text.isBlank c = false ∧ Quoting.isDelimiter c = false
  marks : Quoting.hasCommentMark cs = false

theorem Plain.tail (h : Plain (c :: cs)) : Plain cs :=
  ⟨fun d hd => h.chars d (List.mem_cons_of_mem c hd), hasCommentMark_tail h.marks⟩

theorem Plain.isMark (h : Plain (c :: cs)) (hrest : Stops rest) :
    isMark '/' '/' c (cs ++ rest) = false ∧ isMark '/' '*' c (cs ++ rest) = false := by
  by_cases hcs : cs = []
  · rw [hcs, List.nil_append]
    exact ⟨hrest.isMark (.inl rfl) c, hrest.isMark (.inr rfl) c⟩
  · rw [isMark_append hcs, isMark_append hcs]
    exact isMark_of_hasCommentMark h.marks

theorem Plain.endsWord (h : Plain (c :: cs)) (hrest : Stops rest) :
    endsWord (c :: cs ++ rest) = false := by
  obtain ⟨hblank, hdelimiter⟩ := h.chars c List.mem_cons_self
  obtain ⟨hline, hblock⟩ := h.isMark hrest
  rw [List.cons_append, Syntax.endsWord, hblank, hdelimiter, hline, hblock]
  rfl

theorem scan_wordStep (read : List Char) (hcs : Plain cs) (hrest : Stops rest) :
    (scan (wordStep read (cs ++ rest)).1 column (cs ++ rest)).map
        ((wordStep read (cs ++ rest)).2 ++ ·) =
      (scan .gap (columnAfter column cs) rest).map (.word (String.ofList (read ++ cs)) :: ·) := by
  induction cs generalizing read column with
  | nil =>
    rw [List.nil_append, wordStep, if_pos hrest.endsWord, List.append_nil]
    rfl
  | cons c cs ih =>
    have hmode : wordStep read (c :: cs ++ rest) = (.word read, []) := by
      rw [wordStep, hcs.endsWord hrest]
      rfl
    have hstep : step (.word read) column c (cs ++ rest) =
        some (wordStep (read ++ [c]) (cs ++ rest)) := rfl
    have hread : read ++ c :: cs = (read ++ [c]) ++ cs := by simp
    rw [hmode, hread, List.cons_append, scan_cons hstep]
    exact Option.map_id'.trans (ih (read ++ [c]) hcs.tail)

theorem scan_word (hcs : Plain cs) (hne : cs ≠ []) (hrest : Stops rest) :
    scan .gap column (cs ++ rest) =
      (scan .gap (columnAfter column cs) rest).map (.word (String.ofList cs) :: ·) := by
  obtain ⟨c, cs, rfl⟩ := List.exists_cons_of_ne_nil hne
  obtain ⟨hblank, hdelimiter⟩ := hcs.chars c List.mem_cons_self
  obtain ⟨hline, hblock⟩ := hcs.isMark hrest
  have hstep : step .gap column c (cs ++ rest) = some (wordStep [c] (cs ++ rest)) := by
    have hpunctuation : ∀ d, Quoting.isDelimiter d = true → c ≠ d := by
      rintro d hd rfl
      simp [hdelimiter] at hd
    change gapStep column c (cs ++ rest) = _
    rw [gapStep, hblank, if_neg Bool.false_ne_true, if_neg (hpunctuation _ (by decide)),
      if_neg (hpunctuation _ (by decide)), if_neg (hpunctuation _ (by decide)),
      if_neg (hpunctuation _ (by decide)), if_neg (hpunctuation _ (by decide)), hline,
      if_neg Bool.false_ne_true, hblock, if_neg Bool.false_ne_true]
  rw [List.cons_append, scan_cons hstep]
  exact scan_wordStep [c] hcs.tail hrest

/-! ### Quoted arguments -/

section Quoted

variable {quote margin : Nat} {read : List Char}

theorem scan_margin {blanks : List Char} (hblanks : ∀ c ∈ blanks, c = ' ' ∨ c = '\t')
    (hlength : blanks.length ≤ margin) :
    scan (.quoted quote read margin) column (blanks ++ rest) =
      scan (.quoted quote read (margin - blanks.length)) (columnAfter column blanks) rest := by
  induction blanks generalizing column margin with
  | nil => rfl
  | cons c blanks ih =>
    rw [List.forall_mem_cons] at hblanks
    rw [List.length_cons] at hlength ⊢
    have hstep : step (.quoted quote read margin) column c (blanks ++ rest) =
        some (.quoted quote read (margin - 1), []) := by
      change some (quotedStep quote read margin c) = _
      rw [quotedStep, if_pos ⟨by omega, hblanks.1⟩]
    have hmargin : margin - (blanks.length + 1) = margin - 1 - blanks.length := by omega
    rw [List.cons_append, scan_cons_silent hstep, ih hblanks.2 (by omega), hmargin]
    rfl

theorem scan_lineBreak :
    scan (.quoted quote read margin) column ('\n' :: rest) =
      scan (.quoted quote (read ++ ['\n']) (quote + 1)) 0 rest := by
  have hstep : step (.quoted quote read margin) column '\n' rest =
      some (.quoted quote (read ++ ['\n']) (quote + 1), []) := by
    change some (quotedStep quote read margin '\n') = _
    rw [quotedStep, if_neg (by simp), if_pos rfl]
  exact scan_cons_silent hstep

theorem scan_closingQuote :
    scan (.quoted quote read margin) column ('"' :: rest) =
      (scan .gap (column + 1) rest).map (.quoted (String.ofList read) :: ·) := by
  have hstep : step (.quoted quote read margin) column '"' rest =
      some (.gap, [.quoted (String.ofList read)]) := by
    change some (quotedStep quote read margin '"') = _
    rw [quotedStep, if_neg (by simp), if_neg (by decide), if_pos rfl]
  exact scan_cons hstep

theorem scan_escapeChar (hc : c ≠ '\n') :
    scan (.quoted quote read 0) column (Quoting.escapeChar c ++ rest) =
      scan (.quoted quote (read ++ [c]) 0) (columnAfter column (Quoting.escapeChar c)) rest := by
  have hescape : ∀ (d : Char) (column : Nat), escapeStep quote read d =
      some (.quoted quote (read ++ [c]) 0, []) →
      scan (.quoted quote read 0) column ('\\' :: d :: rest) =
        scan (.quoted quote (read ++ [c]) 0) (columnAfter column ['\\', d]) rest := by
    intro d column hd
    have hfirst : step (.quoted quote read 0) column '\\' (d :: rest) =
        some (.escape quote read, []) := rfl
    rw [scan_cons_silent hfirst]
    exact scan_cons_silent hd
  by_cases hbackslash : c = '\\'
  · subst hbackslash
    exact hescape '\\' column rfl
  by_cases hquote : c = '"'
  · subst hquote
    exact hescape '"' column rfl
  by_cases htab : c = '\t'
  · subst htab
    exact hescape 't' column rfl
  have hself : Quoting.escapeChar c = [c] := by
    simp [Quoting.escapeChar, hbackslash, hquote, htab]
  have hstep : step (.quoted quote read 0) column c rest =
      some (.quoted quote (read ++ [c]) 0, []) := by
    change some (quotedStep quote read 0 c) = _
    rw [quotedStep, if_neg (by simp), if_neg hc, if_neg hquote, if_neg hbackslash]
  rw [hself, List.singleton_append, scan_cons_silent hstep]
  rfl

-- the induction is on the printer's own cases; spaces of the argument may follow only when the
-- margin is used up, and the printer sees to that except where a line is empty
theorem scan_quotedBody {pad : List Char} (hpad : ∀ c ∈ pad, c = ' ' ∨ c = '\t')
    (hquote : pad.length = quote)
    (hmargin : margin = 0 ∨ cs = [] ∨ cs.head? = some '\n') :
    scan (.quoted quote read margin) column (Layout.quotedBody pad cs ++ '"' :: rest) =
      (scan .gap (columnAfter column (Layout.quotedBody pad cs ++ ['"'])) rest).map
        (.quoted (String.ofList (read ++ cs)) :: ·) := by
  induction cs using Layout.lines_induction generalizing read margin column with
  | nil =>
    rw [Layout.quotedBody, List.nil_append, scan_closingQuote, List.append_nil]
    rfl
  | last =>
    rw [Layout.quotedBody, List.cons_append, scan_lineBreak, scan_margin hpad (by omega),
      scan_closingQuote, List.cons_append, columnAfter_lineBreak, columnAfter_append]
    rfl
  | empty cs ih =>
    rw [Layout.quotedBody, List.cons_append, scan_lineBreak, ih (.inr (.inr rfl)), List.cons_append,
      columnAfter_lineBreak, List.append_assoc, List.singleton_append]
  | line c cs hc ih =>
    have hblanks : ∀ d ∈ pad ++ [' '], d = ' ' ∨ d = '\t' := by
      intro d hd
      rcases List.mem_append.1 hd with hd | hd
      · exact hpad d hd
      · exact .inl (List.mem_singleton.1 hd)
    have hused : quote + 1 - (pad ++ [' ']).length = 0 := by
      rw [List.length_append, hquote, List.length_singleton, Nat.sub_self]
    have hread : read ++ ['\n'] ++ c :: cs = read ++ '\n' :: c :: cs := by simp
    rw [Layout.quotedBody_break hc, List.append_assoc, List.cons_append, scan_lineBreak,
      scan_margin hblanks (by simp [hquote]), hused, ih (.inl rfl), hread, List.append_assoc,
      columnAfter_append _ ('\n' :: (pad ++ [' ']))]
    rfl
  | char c cs hc ih =>
    have hzero : margin = 0 := by simpa [hc] using hmargin
    have hread : read ++ [c] ++ cs = read ++ c :: cs := by simp
    rw [Layout.quotedBody_cons hc, hzero, List.append_assoc, scan_escapeChar hc, ih (.inl rfl),
      hread, List.append_assoc, columnAfter_append _ (Quoting.escapeChar c)]

end Quoted

end YangDoc.Syntax
