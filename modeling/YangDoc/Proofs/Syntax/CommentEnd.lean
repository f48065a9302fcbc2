import YangDoc.Proofs.Construction.Materialization
import YangDoc.Proofs.Construction.Preflight
import YangDoc.Proofs.Statement.Print
import YangDoc.Proofs.Syntax.Comments

/-!
# Comments that end too early

A text is silent when the scanner finds nothing in it but blanks and comments. A comment of one
line is silent whatever it says. A comment of several lines is a block, and its lines are printed
as they are, so an end mark in one of them ends the block. Every line that follows starts with a
star, which would be read as a word; so the comment is silent exactly when each line that leaves the
block has returned to it at its end, with nothing but blanks before each new opening.
-/

namespace YangDoc

/-! ### Lines that stay in a block -/

namespace Comment

mutual

/-- A block that is open before these characters is open after them, with nothing but blanks
between its end and the opening of another. -/
def staysOpen : List Char → Bool
  | [] => true
  | '*' :: '/' :: cs => reopens cs
  | _ :: cs => staysOpen cs

/-- After some blanks a block is opened, and one is open at the end. -/
def reopens : List Char → Bool
  | [] => false
  | '/' :: '*' :: cs => staysOpen cs
  | c :: cs => Text.isBlank c && reopens cs

end

theorem staysOpen_of_not_infix {cs : List Char} (hcs : ¬ endMark <:+: cs) :
    staysOpen cs = true := by
  induction cs with
  | nil => rfl
  | cons c cs ih =>
    rw [List.infix_cons_iff, not_or] at hcs
    rw [staysOpen]
    · exact ih hcs.2
    · rintro ds rfl rfl
      exact hcs.1 ⟨ds, rfl⟩

-- the cases are those of the two functions, first those of `staysOpen`
private theorem append_return_and :
    (∀ cs, staysOpen (cs ++ ['\r']) = staysOpen cs) ∧
      ∀ cs, reopens (cs ++ ['\r']) = reopens cs := by
  have hhead : ∀ {d : Char} {cs ds : List Char}, d ≠ '\r' → cs ++ ['\r'] = d :: ds →
      ∃ es, cs = d :: es := by
    intro d cs ds hd heq
    cases cs with
    | nil => exact absurd (List.cons.inj heq).1.symm hd
    | cons e es => exact ⟨es, by rw [(List.cons.inj heq).1]⟩
  refine staysOpen.mutual_induct _ _ rfl (fun cs ih => ih) ?_ rfl (fun cs ih => ih) ?_
  · intro c cs hmark ih
    rw [List.cons_append, staysOpen, staysOpen, ih]
    · exact hmark
    · intro ds hc hds
      obtain ⟨es, hes⟩ := hhead (by decide) hds
      exact hmark es hc hes
  · intro c cs hmark ih
    rw [List.cons_append, reopens, reopens, ih]
    · exact hmark
    · intro ds hc hds
      obtain ⟨es, hes⟩ := hhead (by decide) hds
      exact hmark es hc hes

/-- A line in a block stays open or not whatever the star in front of it and a carriage return at
its end. -/
theorem staysOpen_starred (line : List Char) :
    staysOpen (Text.chomp (starred line)) = staysOpen line := by
  have hstar : staysOpen (starred line) = staysOpen line := rfl
  rw [← hstar]
  rcases Text.chomp_eq_or (starred line) with heq | heq
  · rw [heq]
  · rw [heq, append_return_and.1, ← heq]

end Comment

namespace Syntax

variable {mode next : Mode} {column : Nat} {c : Char} {cs rest : List Char} {out : List Token}

/-- The scanner is in the middle of a token. -/
def Mode.Pending : Mode → Prop
  | .word _ => True
  | .quoted .. => True
  | .escape .. => True
  | _ => False

theorem scan_cons_ne_nil
    (hstep : ∀ next out, step mode column c cs = some (next, out) → out ≠ [] ∨
      scan next (advance column c) cs ≠ some []) :
    scan mode column (c :: cs) ≠ some [] := by
  intro hscan
  rcases hrun : step mode column c cs with _ | ⟨next, out⟩
  · simp [scan, hrun] at hscan
  · rw [scan_cons hrun, Option.map_eq_some_iff] at hscan
    obtain ⟨tokens, htokens, happend⟩ := hscan
    obtain ⟨rfl, rfl⟩ := List.append_eq_nil_iff.1 happend
    exact (hstep next _ hrun).elim (fun h => h rfl) fun h => h htokens

theorem pending_wordStep (read ahead : List Char) :
    (wordStep read ahead).2 ≠ [] ∨ (wordStep read ahead).1.Pending := by
  unfold wordStep
  split
  · exact .inl (by simp)
  · exact .inr trivial

theorem pending_step (hmode : mode.Pending) (hstep : step mode column c cs = some (next, out)) :
    out ≠ [] ∨ next.Pending := by
  cases mode with
  | word read =>
    have hword := pending_wordStep (read ++ [c]) cs
    rw [Option.some.inj hstep] at hword
    exact hword
  | quoted column read margin =>
    have hquoted : quotedStep column read margin c = (next, out) := Option.some.inj hstep
    unfold quotedStep at hquoted
    split_ifs at hquoted <;> obtain ⟨rfl, rfl⟩ := Prod.mk.inj hquoted
    · exact .inr trivial
    · exact .inr trivial
    · exact .inl (List.cons_ne_nil _ _)
    · exact .inr trivial
    · exact .inr trivial
  | escape column read =>
    have hescape : escapeStep column read c = some (next, out) := hstep
    unfold escapeStep at hescape
    split_ifs at hescape <;> obtain ⟨rfl, -⟩ := Prod.mk.inj (Option.some.inj hescape)
    · exact .inr trivial
    · exact .inr trivial
  | gap => exact hmode.elim
  | lineComment => exact hmode.elim
  | blockStart => exact hmode.elim
  | block => exact hmode.elim
  | blockEnd => exact hmode.elim

/-- A token that has begun is found, or the text is not read at all. -/
theorem scan_ne_nil_of_pending (hmode : mode.Pending) : scan mode column cs ≠ some [] := by
  induction cs generalizing mode column with
  | nil =>
    have hend : ¬ (mode = .gap ∨ mode = .lineComment) := by
      rintro (rfl | rfl) <;> exact hmode
    rw [scan, if_neg hend]
    simp
  | cons c cs ih =>
    exact scan_cons_ne_nil fun next out hstep => (pending_step hmode hstep).imp_right ih

theorem scan_gap_ne_nil (hblank : Text.isBlank c = false) (hline : isMark '/' '/' c cs = false)
    (hblock : isMark '/' '*' c cs = false) : scan .gap column (c :: cs) ≠ some [] := by
  refine scan_cons_ne_nil fun next out hstep => ?_
  have hpending : out ≠ [] ∨ next.Pending := by
    have hgap : gapStep column c cs = some (next, out) := hstep
    simp only [gapStep, hblank, hline, hblock, Bool.false_eq_true, if_false] at hgap
    split_ifs at hgap <;> obtain hout := Option.some.inj hgap
    · exact .inl ((Prod.mk.inj hout).2 ▸ List.cons_ne_nil _ _)
    · exact .inl ((Prod.mk.inj hout).2 ▸ List.cons_ne_nil _ _)
    · exact .inl ((Prod.mk.inj hout).2 ▸ List.cons_ne_nil _ _)
    · exact .inr ((Prod.mk.inj hout).1 ▸ trivial)
    · have hword := pending_wordStep [c] cs
      rwa [hout] at hword
  exact hpending.imp_right scan_ne_nil_of_pending

/-! ### Lines of a block -/

theorem isMark_eq_false {first second : Char}
    (hmark : ∀ ds, c = first → cs = second :: ds → False) : isMark first second c cs = false := by
  rw [← Bool.not_eq_true, isMark, Bool.and_eq_true, beq_iff_eq, beq_iff_eq]
  intro h
  obtain ⟨ds, hds⟩ := List.head?_eq_some_iff.1 h.2
  exact hmark ds h.1 hds

theorem isMark_append_lineBreak {first second : Char} (hsecond : second ≠ '\n') :
    isMark first second c (cs ++ '\n' :: rest) = isMark first second c cs := by
  cases cs with
  | nil => simp [isMark, Ne.symm hsecond]
  | cons d cs => rfl

-- once the line has ended outside the block, the rest is read in a gap, and that finds a token
private theorem scan_line_and (hrest : scan .gap 0 rest ≠ some []) :
    (∀ cs, '\n' ∉ cs → ∀ column, scan .block column (cs ++ '\n' :: rest) = some [] ↔
      Comment.staysOpen cs = true ∧ scan .block 0 rest = some []) ∧
    ∀ cs, '\n' ∉ cs → ∀ column, scan .gap column (cs ++ '\n' :: rest) = some [] ↔
      Comment.reopens cs = true ∧ scan .block 0 rest = some [] := by
  refine Comment.staysOpen.mutual_induct _ _ ?_ ?_ ?_ ?_ ?_ ?_
  · intro _ column
    rw [List.nil_append, scan_blockChar rfl, Comment.staysOpen]
    simp [advance]
  · intro cs ih hcs column
    simp only [List.mem_cons, not_or] at hcs
    have hfirst : step .block column '*' ('/' :: (cs ++ '\n' :: rest)) = some (.blockEnd, []) := rfl
    have hsecond : step .blockEnd (advance column '*') '/' (cs ++ '\n' :: rest) =
        some (.gap, []) := rfl
    rw [List.cons_append, List.cons_append, scan_cons_silent hfirst, scan_cons_silent hsecond,
      ih hcs.2.2, Comment.staysOpen]
  · intro c cs hmark ih hcs column
    rw [List.mem_cons, not_or] at hcs
    have hinside : isMark '*' '/' c (cs ++ '\n' :: rest) = false := by
      rw [isMark_append_lineBreak (by decide)]
      exact isMark_eq_false hmark
    rw [List.cons_append, scan_blockChar hinside, ih hcs.2, Comment.staysOpen]
    exact hmark
  · intro _ column
    rw [List.nil_append, scan_blank (by decide), Comment.reopens]
    simpa [advance] using hrest
  · intro cs ih hcs column
    simp only [List.mem_cons, not_or] at hcs
    rw [List.cons_append, List.cons_append, scan_blockStart, ih hcs.2.2, Comment.reopens]
  · intro c cs hmark ih hcs column
    rw [List.mem_cons, not_or] at hcs
    have hblock : isMark '/' '*' c (cs ++ '\n' :: rest) = false := by
      rw [isMark_append_lineBreak (by decide)]
      exact isMark_eq_false hmark
    rw [Comment.reopens]
    · cases hblank : Text.isBlank c with
      | true =>
        rw [List.cons_append, scan_blank hblank, ih hcs.2, Bool.true_and]
      | false =>
        rw [Bool.false_and]
        refine iff_of_false ?_ (by simp)
        by_cases hline : ∃ ds, c = '/' ∧ cs = '/' :: ds
        · obtain ⟨ds, rfl, rfl⟩ := hline
          rw [scan_lineComment (by simpa using hcs.2)]
          exact hrest
        · have hline' : isMark '/' '/' c (cs ++ '\n' :: rest) = false := by
            rw [isMark_append_lineBreak (by decide)]
            exact isMark_eq_false fun ds hc hds => hline ⟨ds, hc, hds⟩
          exact scan_gap_ne_nil hblank hline' hblock
    · exact hmark

/-- The text goes on with a star, on its own line or in the margin of it. -/
def Starred (rest : List Char) : Prop :=
  ∃ pad cs, (∀ c ∈ pad, c = ' ' ∨ c = '\t') ∧ rest = pad ++ '*' :: cs

theorem Starred.scan_ne_nil (h : Starred rest) : scan .gap 0 rest ≠ some [] := by
  obtain ⟨pad, cs, hpad, rfl⟩ := h
  rw [scan_indent hpad]
  exact scan_gap_ne_nil (by decide) rfl rfl

variable {indent : String} {lines : List (List Char)}

theorem starred_commentLine (hindent : ∀ c ∈ indent.toList, c = ' ' ∨ c = '\t')
    (line rest : List Char) :
    Starred ((Layout.commentLine indent ('*' :: line)).toList ++ rest) := by
  obtain ⟨pad, hpad, htext⟩ := toList_commentLine hindent ('*' :: line)
  exact ⟨pad, line ++ '\n' :: rest, hpad, by simp [htext]⟩

theorem chomp_starred (line : List Char) :
    Text.chomp (Comment.starred line) = '*' :: ' ' :: Text.chomp line := by
  rw [Comment.starred, Text.chomp, Text.chomp]
  · simp
  · simp

theorem scan_starredLine_iff (hindent : ∀ c ∈ indent.toList, c = ' ' ∨ c = '\t') {line : List Char}
    (hline : '\n' ∉ line) (hrest : Starred rest) :
    scan .block 0 ((Layout.commentLine indent (Text.chomp (Comment.starred line))).toList ++ rest) =
        some [] ↔
      Comment.staysOpen line = true ∧ scan .block 0 rest = some [] := by
  obtain ⟨pad, hpad, htext⟩ := toList_commentLine hindent (Text.chomp (Comment.starred line))
  have hbreak : '\n' ∉ Text.chomp (Comment.starred line) := by
    intro hmem
    have hmem' := (Text.prefix_chomp (Comment.starred line)).subset hmem
    simp [Comment.starred, hline] at hmem'
  rw [htext, List.append_assoc, List.append_assoc, scan_blockIndent hpad, List.singleton_append,
    (scan_line_and hrest.scan_ne_nil).1 _ hbreak, Comment.staysOpen_starred]

theorem scan_blockLines_iff (hindent : ∀ c ∈ indent.toList, c = ' ' ∨ c = '\t')
    (hlines : ∀ l ∈ lines, '\n' ∉ l) (hrest : Starred rest) :
    scan .block 0 ((lines.map fun l => Text.chomp (Comment.starred l)).flatMap
        (fun l => (Layout.commentLine indent l).toList) ++ rest) = some [] ↔
      (∀ l ∈ lines, Comment.staysOpen l = true) ∧ scan .block 0 rest = some [] := by
  induction lines with
  | nil => simp
  | cons l lines ih =>
    rw [List.forall_mem_cons] at hlines
    have hnext : Starred ((lines.map fun l => Text.chomp (Comment.starred l)).flatMap
        (fun l => (Layout.commentLine indent l).toList) ++ rest) := by
      cases lines with
      | nil => exact hrest
      | cons m lines =>
        rw [List.map_cons, List.flatMap_cons, List.append_assoc, chomp_starred]
        exact starred_commentLine hindent _ _
    rw [List.map_cons, List.flatMap_cons, List.append_assoc,
      scan_starredLine_iff hindent hlines.1 hnext, ih hlines.2, List.forall_mem_cons, and_assoc]

/-- The text holds nothing but blanks and comments. -/
def Silent (text : String) : Prop :=
  scan .gap 0 text.toList = some []

instance (text : String) : Decidable (Silent text) :=
  inferInstanceAs (Decidable (scan .gap 0 text.toList = some []))

theorem silent_commentText_iff (hindent : ∀ c ∈ indent.toList, c = ' ' ∨ c = '\t')
    (text : String) :
    Silent (Layout.commentText indent (Comment.ofText text)) ↔
      (Text.lines (Text.trim text.toList)).length = 1 ∨
        ∀ line ∈ Text.lines (Text.trim text.toList), Comment.staysOpen line = true := by
  have hlines : ∀ l ∈ Text.lines (Text.trim text.toList), '\n' ∉ l := fun l hl =>
    (Text.infix_of_mem_lines hl).2
  rw [Silent, Layout.commentText, if_neg (Comment.trim_ofText text), String.toList_join,
    List.flatMap_map, Comment.lines_ofText_eq]
  split
  · next line hline =>
    have hbreak : '\n' ∉ ' ' :: line := by simpa using hlines line (by simp [hline])
    obtain ⟨pad, hpad, htext⟩ := toList_commentLine hindent ('/' :: '/' :: ' ' :: line)
    rw [List.flatMap_singleton, htext, scan_indent hpad, scan_lineComment hbreak, hline]
    exact iff_of_true rfl (.inl rfl)
  · next hmany =>
    have hlength : (Text.lines (Text.trim text.toList)).length ≠ 1 := by
      intro hone
      obtain ⟨line, hline⟩ := List.length_eq_one_iff.1 hone
      exact hmany line hline
    generalize Text.lines (Text.trim text.toList) = ls at hlines hlength
    have hclosing := starred_commentLine hindent ['/'] []
    have hend : scan .block 0 ((Layout.commentLine indent ['*', '/']).toList ++ []) = some [] :=
      scan_closingLine hindent
    rw [List.append_nil] at hclosing hend
    rw [List.flatMap_cons, scan_openingLine hindent, List.flatMap_append, List.flatMap_singleton,
      or_iff_right hlength, Comment.blockLines]
    split
    · next hempty =>
      have hblank : ∀ l ∈ [([] : List Char)], ¬ Comment.endMark <:+: l := by
        simp [Comment.endMark]
      rw [scan_blockLines hindent hblank, hempty]
      exact iff_of_true hend (by simp)
    · rw [scan_blockLines_iff hindent hlines hclosing]
      exact and_iff_left hend

end Syntax

/-! ### Comment nodes -/

theorem Document.comment_ok {w : Workspace} {d : Document} (hw : w.Sound) (hd : w.Has d)
    (text : String) :
    ∃ n w', (d.comment text).outcome w = (.ok n, w') ∧ (n.tree w').Forest ∧
      n.statement w' = ⟨Keyword.comment, some (Comment.ofText text), []⟩ := by
  have hlive : ∀ n ∈ Expr.nodesAll [], n.Live w := by simp [Expr.nodesAll]
  have hchecked := build_checked hw hd Keyword.comment (some (Comment.ofText text)) none hlive
  have hnot : ¬ d.Refuses w Keyword.comment none [] := by
    simp [Refuses, Keyword.comment]
  obtain ⟨n, w', hok⟩ := hchecked.returns hnot (by simp)
  have hsafe : (d.build Keyword.comment { argument := some (Comment.ofText text) }).Safe w _ :=
    build_safe hw hd hlive
  have hbuilt := build_built hw hd hlive (by simp) (by simp [Expr.Separate, Expr.nodesAll]) hok
  have hedits := (hsafe.of_ok hok).1
  refine ⟨n, w', hok, ?_, hbuilt.statement_eq⟩
  rw [Node.tree, hbuilt.document_eq]
  exact hedits.sound hw d (hedits.has_iff.2 hd)

theorem Node.silent_comment_iff {n : Node} {w : Workspace} {text : String}
    (hforest : (n.tree w).Forest)
    (hn : n.statement w = ⟨Keyword.comment, some (Comment.ofText text), []⟩) (layout : Layout) :
    Syntax.Silent (n.print w layout) ↔
      (Text.lines (Text.trim text.toList)).length = 1 ∨
        ∀ line ∈ Text.lines (Text.trim text.toList), Comment.staysOpen line = true := by
  have hsnapshot : (n.tree w).snapshot n.id = _ := hn
  have hcomment : Keyword.isComment Keyword.comment = true := by decide
  rw [Node.print, hforest.print_eq, hsnapshot, Statement.print, if_pos hcomment, Option.getD_some]
  exact Syntax.silent_commentText_iff (Syntax.indent_blank layout layout.startLevel) text

namespace Workspace

/-- In any layout, the text of a comment node holds nothing but blanks and comments exactly when
its text has one line, or when no line leaves the block without returning to it. In particular it
does when the text does not hold the end mark. -/
theorem comment_silent_iff {w : Workspace} (hw : w.Reachable) {d : Document} (hd : w.Has d)
    (text : String) :
    ∃ n w', (d.comment text).outcome w = (.ok n, w') ∧
      (∀ layout, Syntax.Silent (n.print w' layout) ↔
        (Text.lines (Text.trim text.toList)).length = 1 ∨
          ∀ line ∈ Text.lines (Text.trim text.toList), Comment.staysOpen line = true) ∧
      (¬ Comment.endMark <:+: text.toList → ∀ layout, Syntax.Silent (n.print w' layout)) := by
  obtain ⟨n, w', hok, hforest, hn⟩ := Document.comment_ok hw.sound hd text
  refine ⟨n, w', hok, Node.silent_comment_iff hforest hn, fun hmark layout => ?_⟩
  rw [Node.silent_comment_iff hforest hn]
  refine .inr fun line hline => Comment.staysOpen_of_not_infix fun hinfix => hmark ?_
  exact hinfix.trans ((Text.infix_of_mem_lines hline).1.trans (Text.infix_trim _))

/-- Two lines, the first of which leaves the block and returns to it. -/
theorem comment_silent_iff_sample :
    sample.Reachable ∧ ∃ n w', ((⟨0⟩ : Document).comment "a */ /* b\n/* c").outcome sample =
      (.ok n, w') ∧ Syntax.Silent (n.print w' {}) := by
  have hd : sample.Has ⟨0⟩ := by decide
  obtain ⟨n, w', hok, hiff, -⟩ := comment_silent_iff reachable_sample hd "a */ /* b\n/* c"
  exact ⟨reachable_sample, n, w', hok, (hiff {}).2 (.inr (by decide))⟩

/-- An end mark in the first of two lines. -/
theorem comment_ended_early :
    ¬ ∀ w, Reachable w → ∀ (d : Document) (text : String), w.Has d → ∀ n w',
      (d.comment text).outcome w = (.ok n, w') → ∀ layout, Syntax.Silent (n.print w' layout) := by
  intro h
  have hd : sample.Has ⟨0⟩ := by decide
  obtain ⟨n, w', hok, hforest, hn⟩ := Document.comment_ok reachable_sample.sound hd
    "a */ leaf x;\nb"
  have hsilent := h sample reachable_sample ⟨0⟩ _ hd n w' hok {}
  rw [Node.silent_comment_iff hforest hn] at hsilent
  exact absurd hsilent (by decide)

end Workspace

end YangDoc
