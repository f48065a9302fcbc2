import Mathlib.Data.List.Infix
import YangDoc.Proofs.Syntax.Scanning
import YangDoc.Proofs.Text.Lines

/-!
# Double-quoted strings by the rules of YANG

A YANG reader takes three steps to the value of a double-quoted string: it strips spaces and tabs
before each line break, it strips the margin of each line that follows one, up to and including the
column of the opening quote, and it undoes the escapes. How many columns a tab counts for is left
open here.

What the printer writes between the quotes is the escaped argument, line below line. It decodes to
the argument without the spaces before its line breaks: the margin that the printer adds is the one
that the reader takes away, and a tab is written as an escape, but nothing protects a space. The
keyword stands in the line of the opening quote, so for an argument of several lines it must take up
as many columns as it has characters.
-/

namespace YangDoc.DoubleQuoted

/-! ### Decoding -/

/-- The column after some characters that start in a column, where a tab takes up `tab` of them. -/
def columnAfter (tab : Nat) (column : Nat) : List Char → Nat
  | [] => column
  | '\n' :: cs => columnAfter tab 0 cs
  | '\t' :: cs => columnAfter tab (column + tab) cs
  | _ :: cs => columnAfter tab (column + 1) cs

/-- The characters before the closing quote, and those after it. -/
def split : List Char → Option (List Char × List Char)
  | [] => none
  | '"' :: rest => some ([], rest)
  | '\\' :: c :: cs => (split cs).map (Prod.map ('\\' :: c :: ·) id)
  | c :: cs => (split cs).map (Prod.map (c :: ·) id)

/-- The characters without the spaces and tabs before each line break. -/
def stripBeforeBreaks : List Char → List Char
  | [] => []
  | c :: cs =>
    if (c = ' ' ∨ c = '\t') ∧ (stripBeforeBreaks cs).head? = some '\n' then stripBeforeBreaks cs
    else c :: stripBeforeBreaks cs

/-- The characters without the spaces and tabs in the first `margin` columns after each line break,
where `left` of these columns are still to come. Of a tab that reaches further, the columns past the
margin stay as spaces. -/
def stripMargin (tab margin : Nat) : (left : Nat) → List Char → List Char
  | _, [] => []
  | _, '\n' :: cs => '\n' :: stripMargin tab margin margin cs
  | 0, c :: cs => c :: stripMargin tab margin 0 cs
  | left + 1, ' ' :: cs => stripMargin tab margin left cs
  | left + 1, '\t' :: cs =>
    List.replicate (tab - (left + 1)) ' ' ++ stripMargin tab margin (left + 1 - tab) cs
  | _ + 1, c :: cs => c :: stripMargin tab margin 0 cs

def unescape : List Char → Option (List Char)
  | [] => some []
  | '\\' :: 'n' :: cs => (unescape cs).map ('\n' :: ·)
  | '\\' :: 't' :: cs => (unescape cs).map ('\t' :: ·)
  | '\\' :: '"' :: cs => (unescape cs).map ('"' :: ·)
  | '\\' :: '\\' :: cs => (unescape cs).map ('\\' :: ·)
  | '\\' :: _ => none
  | c :: cs => (unescape cs).map (c :: ·)

/-- The value of the string whose opening quote, after some spaces, is the next character, and the
text after it. The first character stands in a column. -/
def read (tab column : Nat) : List Char → Option (List Char × List Char)
  | ' ' :: cs => read tab (column + 1) cs
  | '"' :: cs => do
    let (raw, rest) ← split cs
    let value ← unescape (stripMargin tab (column + 1) 0 (stripBeforeBreaks raw))
    return (value, rest)
  | _ => none

/-- The argument without the spaces before its line breaks. -/
def unpadded : List Char → List Char
  | [] => []
  | c :: cs => if c = ' ' ∧ (unpadded cs).head? = some '\n' then unpadded cs else c :: unpadded cs

variable {tab column margin left : Nat} {c : Char} {cs xs ys pad rest : List Char}

def Blank (cs : List Char) : Prop :=
  ∀ c ∈ cs, c = ' ' ∨ c = '\t'

/-! ### Escapes -/

/-- A character is written as itself, or as an escape that is undone to it. -/
theorem escapeChar_cases (c : Char) :
    (Quoting.escapeChar c = [c] ∧ c ≠ '\\' ∧ c ≠ '"' ∧ c ≠ '\t') ∨
      ∃ x, Quoting.escapeChar c = ['\\', x] ∧ (c ≠ ' ' ∧ c ≠ '\n') ∧
        (x ≠ ' ' ∧ x ≠ '\t' ∧ x ≠ '\n') ∧
        ∀ cs, unescape ('\\' :: x :: cs) = (unescape cs).map (c :: ·) := by
  by_cases hbackslash : c = '\\'
  · subst hbackslash
    exact .inr ⟨'\\', rfl, by decide, by decide, fun _ => rfl⟩
  by_cases hquote : c = '"'
  · subst hquote
    exact .inr ⟨'"', rfl, by decide, by decide, fun _ => rfl⟩
  by_cases htab : c = '\t'
  · subst htab
    exact .inr ⟨'t', rfl, by decide, by decide, fun _ => rfl⟩
  · exact .inl ⟨by simp [Quoting.escapeChar, hbackslash, hquote, htab], hbackslash, hquote, htab⟩

theorem unescape_cons (hc : c ≠ '\\') : unescape (c :: cs) = (unescape cs).map (c :: ·) := by
  rw [unescape]
  all_goals simp [hc]

theorem unescape_escaped (cs : List Char) :
    unescape (cs.flatMap Quoting.escapeChar) = some cs := by
  induction cs with
  | nil => rfl
  | cons c cs ih =>
    rw [List.flatMap_cons]
    rcases escapeChar_cases c with ⟨hself, hbackslash, -, -⟩ | ⟨x, hescape, -, -, hundo⟩
    · rw [hself, List.singleton_append, unescape_cons hbackslash, ih]
      rfl
    · rw [hescape, List.cons_append, List.singleton_append, hundo, ih]
      rfl

theorem escapeChar_ne_nil (c : Char) : Quoting.escapeChar c ≠ [] := by
  rcases escapeChar_cases c with ⟨hself, -⟩ | ⟨x, hescape, -⟩
  · simp [hself]
  · simp [hescape]

theorem getLast?_escapeChar_append (hc : c ≠ '\n') (cs : List Char) :
    (Quoting.escapeChar c ++ cs).getLast? = some '\n' ↔ cs.getLast? = some '\n' := by
  rw [List.getLast?_append, Option.or_eq_some_iff, or_iff_left]
  rintro ⟨-, hlast⟩
  exact Layout.not_mem_escapeChar hc (List.mem_of_getLast? hlast)

theorem pieces_escapeChar_append (hc : c ≠ '\n') (cs : List Char) :
    Text.pieces (· == '\n') (Quoting.escapeChar c ++ cs) =
      (Quoting.escapeChar c ++ (Text.pieces (· == '\n') cs).headD []) ::
        (Text.pieces (· == '\n') cs).tail := by
  apply Text.pieces_append
  intro d hd
  rw [beq_eq_false_iff_ne]
  rintro rfl
  exact Layout.not_mem_escapeChar hc hd

/-! ### The lines of the escaped argument -/

/-- Lines one below the other behind an opening quote. After the first, each that is not empty
starts one column past the quote. -/
def hanging (pad : List Char) (lines : List (List Char)) : List Char :=
  lines.headD [] ++
    lines.tail.flatMap fun line => '\n' :: if line = [] then [] else pad ++ ' ' :: line

theorem hanging_break (pad line : List Char) (lines : List (List Char)) :
    hanging pad ([] :: line :: lines) =
      '\n' :: (if line = [] then [] else pad ++ [' ']) ++ hanging pad (line :: lines) := by
  by_cases hline : line = []
  · simp [hanging, hline]
  · simp [hanging, hline]

theorem quotedBody_eq (pad cs : List Char) :
    Layout.quotedBody pad cs =
      hanging pad (Text.pieces (· == '\n') (cs.flatMap Quoting.escapeChar)) ++
        if (cs.flatMap Quoting.escapeChar).getLast? = some '\n' then pad else [] := by
  have hbreak : ∀ ds : List Char, ('\n' :: ds).flatMap Quoting.escapeChar =
      '\n' :: ds.flatMap Quoting.escapeChar := fun _ => rfl
  have hcut : ∀ ds, Text.pieces (· == '\n') ('\n' :: ds) = [] :: Text.pieces (· == '\n') ds :=
    fun _ => rfl
  induction cs using Layout.lines_induction with
  | nil => rfl
  | last => simp [Layout.quotedBody, hanging, Text.pieces, Quoting.escapeChar]
  | empty cs ih =>
    simp only [hbreak, hcut] at ih ⊢
    rw [Layout.quotedBody, ih, hanging_break, List.getLast?_cons_cons]
    rfl
  | line c cs hc ih =>
    have hnext : ∀ ds, Quoting.escapeChar c ++ ds ≠ [] :=
      List.append_ne_nil_of_left_ne_nil (escapeChar_ne_nil c)
    rw [Layout.quotedBody_break hc, ih, hbreak, hcut, List.flatMap_cons,
      pieces_escapeChar_append hc, hanging_break, if_neg (hnext _), List.append_assoc,
      List.getLast?_cons_of_ne_nil (hnext _)]
  | char c cs hc ih =>
    rw [Layout.quotedBody_cons hc, ih, List.flatMap_cons, pieces_escapeChar_append hc]
    simp only [getLast?_escapeChar_append hc, hanging, List.headD_cons, List.tail_cons,
      List.append_assoc]

/-- A quoted argument is its escaped text line below line, and a closing quote on a line of its own
stands below the opening one. -/
theorem toList_quoted (indent keyword argument : String) :
    (Layout.quoted indent keyword argument).toList =
      '"' :: hanging (indent.toList ++ List.replicate (keyword.length + 1) ' ')
          (Text.pieces (· == '\n') (Quoting.escape argument).toList) ++
        (if (Quoting.escape argument).toList.getLast? = some '\n' then
          indent.toList ++ List.replicate (keyword.length + 1) ' ' else []) ++ ['"'] := by
  have hescape : (Quoting.escape argument).toList = argument.toList.flatMap Quoting.escapeChar :=
    String.toList_ofList
  rw [hescape, Layout.quoted, String.toList_append, String.toList_append, String.toList_ofList,
    quotedBody_eq]
  simp

/-! ### The closing quote -/

theorem split_cons (hquote : c ≠ '"') (hbackslash : c ≠ '\\') :
    split (c :: cs) = (split cs).map (Prod.map (c :: ·) id) := by
  rw [split]
  all_goals simp [hquote, hbackslash]

theorem split_append (hxs : ∀ c ∈ xs, c ≠ '"' ∧ c ≠ '\\') :
    split (xs ++ ys) = (split ys).map (Prod.map (xs ++ ·) id) := by
  induction xs with
  | nil => exact (Option.map_id' ..).symm
  | cons c xs ih =>
    rw [List.forall_mem_cons] at hxs
    rw [List.cons_append, split_cons hxs.1.1 hxs.1.2, ih hxs.2, Option.map_map]
    rfl

theorem split_escapeChar (c : Char) (ys : List Char) :
    split (Quoting.escapeChar c ++ ys) =
      (split ys).map (Prod.map (Quoting.escapeChar c ++ ·) id) := by
  rcases escapeChar_cases c with ⟨hself, hbackslash, hquote, -⟩ | ⟨x, hescape, -, -, -⟩
  · rw [hself, List.singleton_append, split_cons hquote hbackslash]
    rfl
  · rw [hescape, List.cons_append, List.singleton_append, split]
    rfl

theorem split_quotedBody (hpad : Blank pad) (cs rest : List Char) :
    split (Layout.quotedBody pad cs ++ '"' :: rest) = some (Layout.quotedBody pad cs, rest) := by
  have hplain : ∀ c ∈ pad, c ≠ '"' ∧ c ≠ '\\' := by
    intro c hc
    rcases hpad c hc with rfl | rfl <;> decide
  have hbreak : ∀ ys, split ('\n' :: ys) = (split ys).map (Prod.map ('\n' :: ·) id) :=
    fun _ => split_cons (by decide) (by decide)
  induction cs using Layout.lines_induction with
  | nil => rfl
  | last =>
    rw [Layout.quotedBody, List.cons_append, hbreak, split_append hplain, split]
    simp
  | empty cs ih =>
    rw [Layout.quotedBody, List.cons_append, hbreak, ih]
    rfl
  | line c cs hc ih =>
    have hplain' : ∀ c ∈ pad ++ [' '], c ≠ '"' ∧ c ≠ '\\' :=
      List.forall_mem_append.2 ⟨hplain, by simp⟩
    rw [Layout.quotedBody_break hc, List.append_assoc, List.cons_append, hbreak,
      split_append hplain', ih]
    rfl
  | char c cs hc ih =>
    rw [Layout.quotedBody_cons hc, List.append_assoc, split_escapeChar, ih]
    rfl

/-! ### Blanks before a line break -/

theorem stripBeforeBreaks_cons (hspace : c ≠ ' ') (htab : c ≠ '\t') :
    stripBeforeBreaks (c :: cs) = c :: stripBeforeBreaks cs := by
  simp [stripBeforeBreaks, hspace, htab]

theorem stripBeforeBreaks_append (hxs : Blank xs) :
    stripBeforeBreaks (xs ++ ys) =
      if (stripBeforeBreaks ys).head? = some '\n' then stripBeforeBreaks ys
      else xs ++ stripBeforeBreaks ys := by
  induction xs with
  | nil => simp
  | cons c xs ih =>
    rw [Blank, List.forall_mem_cons] at hxs
    rw [List.cons_append, stripBeforeBreaks, ih hxs.2]
    by_cases hhead : (stripBeforeBreaks ys).head? = some '\n'
    · simp [hhead, hxs.1]
    · have hkeep : (xs ++ stripBeforeBreaks ys).head? ≠ some '\n' := by
        cases xs with
        | nil => exact hhead
        | cons d xs =>
          rcases hxs.2 d List.mem_cons_self with rfl | rfl <;> simp
      rw [if_neg hhead, if_neg hhead, if_neg fun h => hkeep h.2, List.cons_append]

/-! ### The margin -/

theorem columnAfter_blank (hxs : Blank xs) (column : Nat) :
    columnAfter tab column xs = column + columnAfter tab 0 xs := by
  induction xs generalizing column with
  | nil => rfl
  | cons c xs ih =>
    rw [Blank, List.forall_mem_cons] at hxs
    rcases hxs.1 with rfl | rfl
    · rw [columnAfter, columnAfter, ih hxs.2 (column + 1), ih hxs.2 (0 + 1)]
      all_goals simp
      omega
    · rw [columnAfter, columnAfter, ih hxs.2 (column + tab), ih hxs.2 (0 + tab)]
      omega

theorem stripMargin_break (left : Nat) :
    stripMargin tab margin left ('\n' :: cs) = '\n' :: stripMargin tab margin margin cs := by
  cases left <;> rfl

theorem stripMargin_cons (hc : c ≠ '\n') :
    stripMargin tab margin 0 (c :: cs) = c :: stripMargin tab margin 0 cs := by
  rw [stripMargin]
  exact hc

theorem stripMargin_of_head (hcs : cs = [] ∨ cs.head? = some '\n') (left : Nat) :
    stripMargin tab margin left cs = stripMargin tab margin 0 cs := by
  rcases hcs with rfl | hhead
  · cases left <;> rfl
  · obtain ⟨ds, rfl⟩ := List.head?_eq_some_iff.1 hhead
    rw [stripMargin_break, stripMargin_break]

theorem stripMargin_append (hxs : Blank xs) (hleft : columnAfter tab 0 xs < left) :
    stripMargin tab margin left (xs ++ ys) =
      stripMargin tab margin (left - columnAfter tab 0 xs) ys := by
  induction xs generalizing left with
  | nil => rfl
  | cons c xs ih =>
    rw [Blank, List.forall_mem_cons] at hxs
    obtain ⟨left, rfl⟩ := Nat.exists_eq_add_one_of_ne_zero (Nat.ne_zero_of_lt hleft)
    have hcolumn : ∀ column, columnAfter tab column xs = column + columnAfter tab 0 xs :=
      columnAfter_blank hxs.2
    rcases hxs.1 with rfl | rfl
    · have hwidth : columnAfter tab 0 (' ' :: xs) = 1 + columnAfter tab 0 xs := hcolumn 1
      have hrest : left + 1 - (1 + columnAfter tab 0 xs) = left - columnAfter tab 0 xs := by omega
      rw [hwidth] at hleft
      rw [List.cons_append, stripMargin, ih hxs.2 (by omega), hwidth, hrest]
    · have hwidth : columnAfter tab 0 ('\t' :: xs) = tab + columnAfter tab 0 xs := by
        rw [columnAfter, Nat.zero_add, hcolumn tab]
      have hnone : tab - (left + 1) = 0 := by omega
      have hrest : left + 1 - (tab + columnAfter tab 0 xs) =
          left + 1 - tab - columnAfter tab 0 xs := by omega
      rw [hwidth] at hleft
      rw [List.cons_append, stripMargin, hnone, List.replicate_zero, List.nil_append,
        ih hxs.2 (by omega), hwidth, hrest]

/-! ### What the printer writes -/

theorem unpadded_cons (hc : c ≠ ' ') : unpadded (c :: cs) = c :: unpadded cs := by
  rw [unpadded, if_neg fun h => hc h.1]

theorem head?_escaped (cs : List Char) :
    (cs.flatMap Quoting.escapeChar).head? = some '\n' ↔ cs.head? = some '\n' := by
  cases cs with
  | nil => rfl
  | cons c cs =>
    rw [List.flatMap_cons]
    rcases escapeChar_cases c with ⟨hself, -, -, -⟩ | ⟨x, hescape, ⟨-, hbreak⟩, -, -⟩
    · rw [hself]
      rfl
    · rw [hescape]
      simp [hbreak]

theorem head?_stripMargin (cs : List Char) :
    (stripMargin tab margin 0 cs).head? = some '\n' ↔ cs.head? = some '\n' := by
  cases cs with
  | nil => rfl
  | cons c cs =>
    by_cases hc : c = '\n'
    · rw [hc, stripMargin_break]
      rfl
    · rw [stripMargin_cons hc]
      rfl

/-- The margin that the printer adds is stripped again, and so are the spaces before line breaks,
but nothing else. -/
theorem strip_quotedBody (hpad : Blank pad) (cs : List Char)
    (hcolumn : '\n' ∈ cs → columnAfter tab 0 pad = column) :
    stripMargin tab (column + 1) 0 (stripBeforeBreaks (Layout.quotedBody pad cs)) =
      (unpadded cs).flatMap Quoting.escapeChar := by
  have hbreak : ∀ ys, stripBeforeBreaks ('\n' :: ys) = '\n' :: stripBeforeBreaks ys :=
    fun _ => stripBeforeBreaks_cons (by decide) (by decide)
  have hhead : ∀ {ds : List Char},
      stripMargin tab (column + 1) 0 (stripBeforeBreaks (Layout.quotedBody pad ds)) =
        (unpadded ds).flatMap Quoting.escapeChar →
      ((stripBeforeBreaks (Layout.quotedBody pad ds)).head? = some '\n' ↔
        (unpadded ds).head? = some '\n') := by
    intro ds heq
    rw [← head?_escaped (unpadded ds), ← heq, head?_stripMargin]
  induction cs using Layout.lines_induction with
  | nil => rfl
  | last =>
    have hwidth := hcolumn (List.mem_singleton_self _)
    have hpadding : stripBeforeBreaks (pad ++ []) = pad ++ [] := stripBeforeBreaks_append hpad
    have hmargin : stripMargin tab (column + 1) (column + 1) (pad ++ []) =
        stripMargin tab (column + 1) _ [] := stripMargin_append hpad (by omega)
    rw [List.append_nil] at hpadding hmargin
    rw [Layout.quotedBody, hbreak, hpadding, stripMargin_break, hmargin,
      stripMargin_of_head (.inl rfl)]
    rfl
  | empty cs ih =>
    have hrest := ih fun _ => hcolumn List.mem_cons_self
    have hnext : (unpadded ('\n' :: cs)).head? = some '\n' := by
      rw [unpadded_cons (by decide)]
      rfl
    rw [Layout.quotedBody, hbreak, stripMargin_break,
      stripMargin_of_head (.inr ((hhead hrest).2 hnext)), hrest,
      unpadded_cons (by decide : '\n' ≠ ' ')]
    rfl
  | line c cs hc ih =>
    have hwidth := hcolumn List.mem_cons_self
    have hrest := ih fun _ => hwidth
    have hblank : Blank (pad ++ [' ']) := List.forall_mem_append.2 ⟨hpad, by simp⟩
    rw [Layout.quotedBody_break hc, List.cons_append, hbreak, stripMargin_break,
      stripBeforeBreaks_append hblank, unpadded_cons (by decide), List.flatMap_cons, ← hrest]
    by_cases hnext : (stripBeforeBreaks (Layout.quotedBody pad (c :: cs))).head? = some '\n'
    · rw [if_pos hnext, stripMargin_of_head (.inr hnext)]
      rfl
    · have hone : column + 1 - columnAfter tab 0 pad = 0 + 1 := by omega
      rw [if_neg hnext, List.append_assoc, stripMargin_append hpad (by omega), hone,
        List.singleton_append, stripMargin]
      rfl
  | char c cs hc ih =>
    have hrest := ih fun hmem => hcolumn (List.mem_cons_of_mem c hmem)
    rw [Layout.quotedBody_cons hc]
    by_cases hspace : c = ' '
    · subst hspace
      have hself : Quoting.escapeChar ' ' = [' '] := rfl
      rw [hself, List.singleton_append, stripBeforeBreaks, unpadded]
      simp only [true_or, true_and, hhead hrest]
      split
      · exact hrest
      · rw [stripMargin_cons hc, hrest]
        rfl
    · rw [unpadded_cons hspace, List.flatMap_cons, ← hrest]
      rcases escapeChar_cases c with ⟨hself, -, -, htab⟩ | ⟨x, hescape, -, ⟨hx, hx', hx''⟩, -⟩
      · rw [hself, List.singleton_append, stripBeforeBreaks_cons hspace htab, stripMargin_cons hc]
        rfl
      · rw [hescape, List.cons_append, List.singleton_append,
          stripBeforeBreaks_cons (by decide) (by decide), stripBeforeBreaks_cons hx hx',
          stripMargin_cons (by decide), stripMargin_cons hx'']
        rfl

/-! ### Arguments that are read back -/

theorem not_infix_unpadded (cs : List Char) : ¬ [' ', '\n'] <:+: unpadded cs := by
  induction cs with
  | nil => simp [unpadded]
  | cons c cs ih =>
    rw [unpadded]
    split
    · exact ih
    · next hkeep =>
      rw [List.infix_cons_iff, not_or]
      refine ⟨?_, ih⟩
      rintro ⟨ds, hds⟩
      obtain ⟨hc, hcs⟩ := List.cons.inj hds
      exact hkeep ⟨hc.symm, by rw [← hcs]; rfl⟩

theorem unpadded_eq_self_iff : unpadded cs = cs ↔ ¬ [' ', '\n'] <:+: cs := by
  refine ⟨fun heq => heq ▸ not_infix_unpadded cs, fun hcs => ?_⟩
  induction cs with
  | nil => rfl
  | cons c cs ih =>
    rw [List.infix_cons_iff, not_or] at hcs
    have hkeep : ¬ (c = ' ' ∧ cs.head? = some '\n') := by
      rintro ⟨rfl, hhead⟩
      obtain ⟨ds, rfl⟩ := List.head?_eq_some_iff.1 hhead
      exact hcs.1 ⟨ds, rfl⟩
    rw [unpadded, ih hcs.2, if_neg hkeep]

/-- The keyword takes up as many columns as it has characters. -/
def Aligned (tab : Nat) (keyword : String) : Prop :=
  '\n' ∉ keyword.toList ∧ ('\t' ∈ keyword.toList → tab = 1)

instance (tab : Nat) (keyword : String) : Decidable (Aligned tab keyword) :=
  inferInstanceAs (Decidable (_ ∧ _))

theorem columnAfter_append (xs ys : List Char) (column : Nat) :
    columnAfter tab column (xs ++ ys) = columnAfter tab (columnAfter tab column xs) ys := by
  induction column, xs using columnAfter.induct tab with
  | case1 => rfl
  | case2 column cs ih => exact ih
  | case3 column cs ih => exact ih
  | case4 column c cs hbreak htab ih =>
    rw [List.cons_append, columnAfter, columnAfter, ih]
    all_goals assumption

theorem Aligned.columnAfter_eq {keyword : String} (h : Aligned tab keyword) (column : Nat) :
    columnAfter tab column keyword.toList = column + keyword.length := by
  obtain ⟨hbreak, htab⟩ := h
  rw [← String.length_toList]
  generalize keyword.toList = cs at hbreak htab
  induction column, cs using columnAfter.induct tab with
  | case1 => rfl
  | case2 column cs ih => exact absurd List.mem_cons_self hbreak
  | case3 column cs ih =>
    rw [List.mem_cons, not_or] at hbreak
    have hone := htab List.mem_cons_self
    rw [columnAfter, ih hbreak.2 fun _ => hone, List.length_cons]
    omega
  | case4 column c cs _ _ ih =>
    rw [List.mem_cons, not_or] at hbreak
    rw [columnAfter, ih hbreak.2 fun hmem => htab (List.mem_cons_of_mem c hmem), List.length_cons]
    · omega
    all_goals assumption

theorem Aligned.columnAfter_pad {keyword : String} (h : Aligned tab keyword) (indent : String) :
    columnAfter tab 0 (indent.toList ++ List.replicate (keyword.length + 1) ' ') =
      columnAfter tab 0 (indent ++ keyword).toList + 1 := by
  have hspaces : ∀ n column, columnAfter tab column (List.replicate n ' ') = column + n := by
    intro n
    induction n with
    | zero => exact fun _ => rfl
    | succ n ih =>
      intro column
      have hspace : columnAfter tab column (' ' :: List.replicate n ' ') =
          columnAfter tab (column + 1) (List.replicate n ' ') := rfl
      rw [List.replicate_succ, hspace, ih]
      omega
  rw [String.toList_append, columnAfter_append, columnAfter_append, h.columnAfter_eq, hspaces]
  omega

theorem read_quoted {indent keyword : String} (hindent : Blank indent.toList) (argument : String)
    (haligned : '\n' ∈ argument.toList → Aligned tab keyword) (rest : List Char) :
    read tab (columnAfter tab 0 (indent ++ keyword).toList + 1)
        ((Layout.quoted indent keyword argument).toList ++ rest) =
      some (unpadded argument.toList, rest) := by
  have hpad : Blank (indent.toList ++ List.replicate (keyword.length + 1) ' ') :=
    List.forall_mem_append.2 ⟨hindent, fun _ hc => .inl (List.eq_of_mem_replicate hc)⟩
  have htext : (Layout.quoted indent keyword argument).toList ++ rest =
      '"' :: (Layout.quotedBody (indent.toList ++ List.replicate (keyword.length + 1) ' ')
        argument.toList ++ '"' :: rest) := by
    simp [Layout.quoted]
  rw [htext, read, split_quotedBody hpad]
  simp only [Option.bind_eq_bind, Option.bind_some]
  rw [strip_quotedBody hpad _ fun hmem => (haligned hmem).columnAfter_pad indent, unescape_escaped]
  rfl

/-- A quoted argument is read back without the spaces before its line breaks. So it is read back as
it is exactly when no space stands before a line break. -/
theorem read_argumentText (tab : Nat) (layout : Layout) (level : Nat) (keyword argument : String)
    (hquoted : ¬ (Keyword.argumentKind keyword = .identifier ∧ Quoting.needed argument = false))
    (haligned : '\n' ∈ argument.toList → Aligned tab keyword) (rest : List Char) :
    read tab (columnAfter tab 0 (layout.indent level ++ keyword).toList)
        ((Layout.argumentText (layout.indent level) keyword argument).toList ++ rest) =
      some (unpadded argument.toList, rest) ∧
    (read tab (columnAfter tab 0 (layout.indent level ++ keyword).toList)
        ((Layout.argumentText (layout.indent level) keyword argument).toList ++ rest) =
      some (argument.toList, rest) ↔ ¬ [' ', '\n'] <:+: argument.toList) := by
  have htext : (Layout.argumentText (layout.indent level) keyword argument).toList ++ rest =
      ' ' :: ((Layout.quoted (layout.indent level) keyword argument).toList ++ rest) := by
    rw [Layout.argumentText, if_neg hquoted, String.toList_append]
    rfl
  have hread := read_quoted (Syntax.indent_blank layout level) argument haligned rest
  rw [htext, read, hread]
  refine ⟨rfl, ?_⟩
  rw [Option.some.injEq, Prod.mk.injEq, and_iff_left rfl]
  exact unpadded_eq_self_iff

/-- Lines that are empty or indented, escapes, and a line break at the end, below one tab. -/
theorem read_argumentText_lines :
    Aligned 8 "description" ∧
      read 8 (columnAfter 8 0 (Layout.indent { useSpaces := false } 1 ++ "description").toList)
          ((Layout.argumentText (Layout.indent { useSpaces := false } 1) "description"
            "a\n\n  \"b\"\t\\\n").toList ++ [';']) =
        some ("a\n\n  \"b\"\t\\\n".toList, [';']) := by
  have haligned : Aligned 8 "description" := by decide
  have hread := read_argumentText 8 { useSpaces := false } 1 "description"
    "a\n\n  \"b\"\t\\\n" (by decide) (fun _ => haligned) [';']
  exact ⟨haligned, hread.2.2 (by decide)⟩

theorem space_before_break_lost :
    ¬ ∀ (tab : Nat) (layout : Layout) (level : Nat) (keyword argument : String) (rest : List Char),
      '\r' ∉ argument.toList →
      ¬ (Keyword.argumentKind keyword = .identifier ∧ Quoting.needed argument = false) →
      read tab (columnAfter tab 0 (layout.indent level ++ keyword).toList)
          ((Layout.argumentText (layout.indent level) keyword argument).toList ++ rest) =
        some (argument.toList, rest) := by
  intro h
  have hread := h 8 {} 0 "description" "a \nb" [] (by decide) (by decide)
  exact absurd hread (by decide)

-- a keyword of two lines: the padding counts both, and reaches past the quote
example : read 8 (columnAfter 8 0 "a\nb".toList) (Layout.argumentText "" "a\nb" "x\ny").toList =
    some ("x\n  y".toList, []) := by decide

end YangDoc.DoubleQuoted
