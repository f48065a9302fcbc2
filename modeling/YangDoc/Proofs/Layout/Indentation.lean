import YangDoc.Proofs.Section.Order
import YangDoc.Proofs.Syntax.RoundTrip
import YangDoc.Proofs.Tree.Preorder

/-!
# Indentation

The level of a statement enters its text in many places: before the keyword, before the closing
brace, in the padding of a quoted argument and before the lines of a comment. All of them come to
the same: at a deeper level the text has a margin before every line that is not empty. So a block
is its heading, the texts of its substatements moved right by one level, and its closing brace.

The text of a statement is made of whole lines, which are moved one by one. The only lines that the
printer does not indent are those that a keyword or the text of a comment brings along, so these
two are restricted.
-/

namespace YangDoc

namespace Text

variable {margin xs ys cs line : List Char}

/-- A line behind a margin. An empty line stays empty. -/
def margined (margin line : List Char) : List Char :=
  if line = [] then [] else margin ++ line

/-- The text with a margin before each of its lines. -/
def shift (margin cs : List Char) : List Char :=
  ['\n'].intercalate ((cs.splitOn '\n').map (margined margin))

theorem margined_nil (margin : List Char) : margined margin [] = [] :=
  if_pos rfl

theorem margined_of_ne (hline : line ≠ []) : margined margin line = margin ++ line :=
  if_neg hline

theorem shift_line (hline : '\n' ∉ line) : shift margin line = margined margin line := by
  rw [shift, List.splitOn_eq_singleton hline, List.map_singleton, List.intercalate_singleton]

theorem shift_nil (margin : List Char) : shift margin [] = [] :=
  (shift_line List.not_mem_nil).trans (margined_nil margin)

theorem shift_lineBreak (margin xs ys : List Char) :
    shift margin (xs ++ '\n' :: ys) = shift margin xs ++ '\n' :: shift margin ys := by
  have hsplit : ∀ (ls ls' : List (List Char)), ls ≠ [] → ls' ≠ [] →
      ['\n'].intercalate (ls ++ ls') = ['\n'].intercalate ls ++ '\n' :: ['\n'].intercalate ls' := by
    intro ls ls' hls hls'
    induction ls with
    | nil => exact absurd rfl hls
    | cons l ls ih =>
      by_cases hempty : ls = []
      · rw [hempty, List.singleton_append, List.intercalate_cons_of_ne_nil hls',
          List.intercalate_singleton, List.append_assoc, List.singleton_append]
      · rw [List.cons_append, List.intercalate_cons_of_ne_nil (by simp [hempty]),
          List.intercalate_cons_of_ne_nil hempty, ih hempty]
        simp only [List.append_assoc]
  rw [shift, List.splitOn_append_cons_self, List.map_append]
  apply hsplit
  · simp [List.splitOn_ne_nil]
  · simp [List.splitOn_ne_nil]

/-- The text is empty or ends with a line break. -/
def Whole (cs : List Char) : Prop :=
  ∀ c ∈ cs.getLast?, c = '\n'

theorem Whole.append (hxs : Whole xs) (hys : Whole ys) : Whole (xs ++ ys) := by
  intro c hc
  rw [List.getLast?_append, Option.mem_def, Option.or_eq_some_iff] at hc
  rcases hc with hc | ⟨-, hc⟩
  · exact hys c hc
  · exact hxs c hc

theorem Whole.flatMap {α : Type} {f : α → List Char} {items : List α}
    (hf : ∀ x ∈ items, Whole (f x)) : Whole (items.flatMap f) := by
  induction items with
  | nil => simp [Whole]
  | cons x items ih =>
    rw [List.forall_mem_cons] at hf
    rw [List.flatMap_cons]
    exact hf.1.append (ih hf.2)

theorem whole_append (hys : Whole ys) (hne : ys ≠ []) : Whole (xs ++ ys) := by
  intro c hc
  rw [List.getLast?_append_of_ne_nil _ hne] at hc
  exact hys c hc

theorem whole_lineBreak (cs : List Char) : Whole (cs ++ ['\n']) := by
  intro c hc
  simpa [eq_comm] using hc

theorem shift_append (hxs : Whole xs) (margin ys : List Char) :
    shift margin (xs ++ ys) = shift margin xs ++ shift margin ys := by
  rcases List.eq_nil_or_concat xs with rfl | ⟨init, c, rfl⟩
  · rw [shift_nil, List.nil_append, List.nil_append]
  · have hc : c = '\n' := hxs c (by simp)
    rw [hc, List.concat_eq_append, List.append_assoc, List.singleton_append, shift_lineBreak,
      shift_lineBreak, shift_nil, List.append_assoc, List.singleton_append]

theorem shift_flatMap {α : Type} {f : α → List Char} {items : List α}
    (hf : ∀ x ∈ items, Whole (f x)) (margin : List Char) :
    shift margin (items.flatMap f) = items.flatMap fun x => shift margin (f x) := by
  induction items with
  | nil => exact shift_nil margin
  | cons x items ih =>
    rw [List.forall_mem_cons] at hf
    rw [List.flatMap_cons, List.flatMap_cons, shift_append hf.1, ih hf.2]

end Text

namespace Layout

open Text

variable {layout : Layout} {margin pad cs : List Char}

theorem indent_add (layout : Layout) (level k : Nat) :
    (layout.indent (level + k)).toList =
      (layout.indent k).toList ++ (layout.indent level).toList := by
  unfold indent
  split
  · simp only [toList_repeated, List.replicate_append_replicate]
    congr 1
    rw [Nat.mul_add, Nat.add_comm]
  · simp only [toList_repeated, List.replicate_append_replicate, Nat.add_comm]

theorem not_mem_indent (layout : Layout) (level : Nat) : '\n' ∉ (layout.indent level).toList := by
  intro hmem
  rcases Syntax.indent_blank layout level _ hmem with h | h <;> exact absurd h (by decide)

def shifted (layout : Layout) (levels : Nat) (text : String) : String :=
  String.ofList (shift (layout.indent levels).toList text.toList)

/-! ### Arguments -/

/-- The padding of a quoted argument takes part in every move. What stands before the argument on
its line may be missing only where the argument goes on with a line break. -/
theorem shift_quotedBody (margin : List Char) (hpad : '\n' ∉ pad) (cs before : List Char)
    (hbefore : '\n' ∉ before) (hstart : before ≠ [] ∨ cs.head? = some '\n') {after : List Char}
    (hafter : '\n' ∉ after) (hne : after ≠ []) :
    shift margin (before ++ (quotedBody pad cs ++ after)) =
      margined margin before ++ (quotedBody (margin ++ pad) cs ++ after) := by
  induction cs using lines_induction generalizing before with
  | nil =>
    have hstart : before ≠ [] := by simpa using hstart
    rw [quotedBody, quotedBody, List.nil_append, shift_line (by simp [hbefore, hafter]),
      margined_of_ne (by simp [hne]), margined_of_ne hstart, List.append_assoc]
  | last =>
    rw [quotedBody, quotedBody, List.cons_append, shift_lineBreak, shift_line hbefore,
      shift_line (by simp [hpad, hafter]),
      margined_of_ne (List.append_ne_nil_of_right_ne_nil pad hne), List.cons_append,
      List.append_assoc]
  | empty cs ih =>
    have hempty := ih [] List.not_mem_nil (.inr rfl)
    rw [List.nil_append, margined_nil, List.nil_append] at hempty
    rw [quotedBody, quotedBody, List.cons_append, shift_lineBreak, shift_line hbefore, hempty,
      List.cons_append]
  | line c cs hc ih =>
    have hline := ih (pad ++ [' ']) (by simp [hpad]) (.inl (by simp))
    rw [margined_of_ne (by simp)] at hline
    rw [quotedBody_break hc, quotedBody_break hc, List.append_assoc, List.cons_append,
      shift_lineBreak, shift_line hbefore, hline]
    simp
  | char c cs hc ih =>
    have hstart : before ≠ [] := by simpa [hc] using hstart
    have hchar := ih (before ++ Quoting.escapeChar c)
      (by simp [hbefore, not_mem_escapeChar hc]) (.inl (by simp [hstart]))
    rw [margined_of_ne (by simp [hstart])] at hchar
    rw [quotedBody_cons hc, quotedBody_cons hc, List.append_assoc, ← List.append_assoc before,
      hchar, margined_of_ne hstart]
    simp

def heading (layout : Layout) (level : Nat) (keyword : String) (argument : Option String) :
    String :=
  layout.indent level ++ keyword ++
    (argument.map (argumentText (layout.indent level) keyword)).getD ""

theorem statementText_none (layout : Layout) (level : Nat) (keyword : String)
    (argument : Option String) :
    layout.statementText level keyword argument none =
      layout.heading level keyword argument ++ ";\n" :=
  rfl

theorem statementText_some (layout : Layout) (level : Nat) (keyword : String)
    (argument : Option String) (text : String) :
    layout.statementText level keyword argument (some text) =
      layout.heading level keyword argument ++ " \x7b\n" ++ text ++ layout.indent level ++
        "\x7d\n" :=
  rfl

theorem shift_heading (level k : Nat) {keyword : String} (hkeyword : '\n' ∉ keyword.toList)
    (argument : Option String) {after : List Char} (hafter : '\n' ∉ after) (hne : after ≠ []) :
    shift (layout.indent k).toList ((layout.heading level keyword argument).toList ++ after) =
      (layout.heading (level + k) keyword argument).toList ++ after := by
  have hindent := layout.not_mem_indent level
  have hplain : ∀ rest : List Char, '\n' ∉ rest → rest ≠ [] →
      shift (layout.indent k).toList ((layout.indent level).toList ++ (keyword.toList ++ rest)) =
        (layout.indent (level + k)).toList ++ (keyword.toList ++ rest) := by
    intro rest hrest hrestne
    rw [shift_line (by simp [hindent, hkeyword, hrest]), margined_of_ne (by simp [hrestne]),
      layout.indent_add, List.append_assoc]
  simp only [heading, String.toList_append, List.append_assoc]
  cases argument with
  | none => exact hplain after hafter hne
  | some argument =>
    rw [Option.map_some, Option.getD_some, Option.map_some, Option.getD_some, argumentText,
      argumentText]
    split_ifs with hbare
    · have hargument := (Syntax.plain_of_not_needed hbare.2).1.not_mem_lineBreak
      rw [String.toList_append, List.append_assoc]
      exact hplain _ (by simp [hargument, hafter]) (by simp)
    · -- the padding is that of the level with the width of the keyword
      have hpad : '\n' ∉ (layout.indent level).toList ++
          List.replicate (keyword.length + 1) ' ' := by
        simp [hindent, List.mem_replicate]
      have hopened : '\n' ∉ (layout.indent level).toList ++ (keyword.toList ++ [' ', '"']) := by
        simp [hindent, hkeyword]
      have hclosed : '\n' ∉ '"' :: after := by simp [hafter]
      have hbody := shift_quotedBody (layout.indent k).toList hpad argument.toList _ hopened
        (.inl (by simp)) hclosed (List.cons_ne_nil _ _)
      rw [margined_of_ne (by simp)] at hbody
      simp only [quoted, String.toList_append, String.toList_ofList, layout.indent_add,
        List.append_assoc] at hbody ⊢
      exact hbody

/-! ### Comments -/

/-- The text is blank, or each of its lines has something on it. -/
def Filled (text : List Char) : Prop :=
  (∀ c ∈ text, isBlank c = true) ∨ [] ∉ lines text

theorem commentLine_eq (indent : String) (line : List Char) :
    (commentLine indent line).toList =
      indent.toList ++ ((if line.head? = some '*' then [' '] else []) ++ line) ++ ['\n'] := by
  unfold commentLine
  split
  · simp
  · simp

theorem whole_commentText (indent text : String) : Whole (commentText indent text).toList := by
  unfold commentText
  split
  · exact whole_lineBreak []
  · rw [String.toList_join, List.flatMap_map]
    apply Whole.flatMap
    intro line _
    rw [commentLine_eq]
    exact whole_lineBreak _

theorem shift_commentText (level k : Nat) {text : String} (htext : Filled text.toList) :
    shift (layout.indent k).toList (commentText (layout.indent level) text).toList =
      (commentText (layout.indent (level + k)) text).toList := by
  unfold commentText
  split
  · exact shift_lineBreak _ [] []
  · rename_i htrim
    have hfilled : [] ∉ lines text.toList := by
      refine htext.resolve_left fun hblank => htrim ?_
      rw [trim, List.dropWhile_eq_nil_iff.2 hblank]
      rfl
    rw [String.toList_join, String.toList_join, List.flatMap_map, List.flatMap_map, shift_flatMap]
    · apply List.flatMap_congr
      intro line hline
      have hne : line ≠ [] := fun h => hfilled (h ▸ hline)
      have hstar : ∀ star : List Char, '\n' ∉ star →
          shift (layout.indent k).toList
              ((layout.indent level).toList ++ (star ++ line) ++ ['\n']) =
            (layout.indent (level + k)).toList ++ (star ++ line) ++ ['\n'] := by
        intro star hstar
        rw [shift_lineBreak, shift_line (by simp [layout.not_mem_indent level, hstar,
          (infix_of_mem_lines hline).2]), margined_of_ne (by simp [hne]),
          shift_nil, layout.indent_add]
        simp
      rw [commentLine_eq, commentLine_eq]
      apply hstar
      split <;> simp
    · intro line _
      rw [commentLine_eq]
      exact whole_lineBreak _

/-! ### Statements -/

theorem shifted_commentText (layout : Layout) (level k : Nat) {text : String}
    (htext : Filled text.toList) :
    layout.shifted k (commentText (layout.indent level) text) =
      commentText (layout.indent (level + k)) text := by
  rw [shifted, shift_commentText level k htext, String.ofList_toList]

theorem whole_statementText (layout : Layout) (level : Nat) (keyword : String)
    (argument body : Option String) :
    Whole (layout.statementText level keyword argument body).toList := by
  cases body with
  | none =>
    rw [statementText_none, String.toList_append]
    exact whole_append (whole_lineBreak [';']) (by decide)
  | some text =>
    rw [statementText_some, String.toList_append]
    exact whole_append (whole_lineBreak ['\x7d']) (by decide)

theorem shifted_statementText (layout : Layout) (level k : Nat) {keyword : String}
    (hkeyword : '\n' ∉ keyword.toList) (argument : Option String) {body : Option String}
    (hbody : ∀ text ∈ body, Whole text.toList) :
    layout.shifted k (layout.statementText level keyword argument body) =
      layout.statementText (level + k) keyword argument (body.map (layout.shifted k)) := by
  rw [← String.toList_inj, shifted, String.toList_ofList]
  cases body with
  | none =>
    have htext : ∀ level, (layout.statementText level keyword argument none).toList =
        ((layout.heading level keyword argument).toList ++ [';']) ++ '\n' :: [] := by
      intro level
      rw [statementText_none, String.toList_append, List.append_assoc]
      rfl
    rw [Option.map_none, htext, htext, shift_lineBreak,
      shift_heading level k hkeyword argument (by decide) (by decide), shift_nil]
  | some text =>
    have htext : ∀ level text, (layout.statementText level keyword argument (some text)).toList =
        ((layout.heading level keyword argument).toList ++ [' ', '\x7b']) ++ '\n' ::
          (text.toList ++ (((layout.indent level).toList ++ ['\x7d']) ++ '\n' :: [])) := by
      intro level text
      simp only [statementText_some, String.toList_append, List.append_assoc]
      rfl
    have hclosing : shift (layout.indent k).toList ((layout.indent level).toList ++ ['\x7d']) =
        (layout.indent (level + k)).toList ++ ['\x7d'] := by
      rw [shift_line (by simp [layout.not_mem_indent level]), margined_of_ne (by simp),
        layout.indent_add, List.append_assoc]
    rw [Option.map_some, htext, htext, shift_lineBreak,
      shift_heading level k hkeyword argument (by decide) (by decide),
      shift_append (hbody text rfl), shift_lineBreak, hclosing, shift_nil, shifted,
      String.toList_ofList]

theorem shifted_join (layout : Layout) (k : Nat) {texts : List String}
    (htexts : ∀ text ∈ texts, Whole text.toList) :
    layout.shifted k (String.join texts) = String.join (texts.map (layout.shifted k)) := by
  rw [← String.toList_inj, shifted, String.toList_ofList, String.toList_join, String.toList_join,
    shift_flatMap htexts, List.flatMap_map]
  simp only [shifted, String.toList_ofList]

instance (text : List Char) : Decidable (Filled text) :=
  decidable_of_iff (text.all isBlank = true ∨ [] ∉ lines text) (or_congr_left List.all_eq_true)

/-- Nothing in a header keeps a line of its text where it is: the keyword stands on one line, and
the text of a comment is blank or has something on each line. -/
def Steady (header : String × Option String) : Prop :=
  '\n' ∉ header.1.toList ∧
    (Keyword.isComment header.1 = true → Filled (header.2.getD "").toList)

instance (header : String × Option String) : Decidable (Steady header) :=
  inferInstanceAs (Decidable (_ ∧ _))

end Layout

namespace Statement

open Layout Text

variable {layout : Layout}

theorem whole_print (layout : Layout) (level : Nat) (s : Statement) :
    Whole (s.print layout level).toList := by
  obtain ⟨keyword, argument, children⟩ := s
  rw [print]
  split
  · exact whole_commentText _ _
  · exact whole_statementText layout level keyword argument _

theorem arranged_map (layout : Layout) (keyword : String) (f : String → String)
    (texts : List (String × String)) :
    arranged layout keyword (texts.map (Prod.map id f)) =
      (arranged layout keyword texts).map (Prod.map id f) := by
  rw [arranged, arranged]
  split
  · exact Section.canonical_map (Prod.map id f) Prod.fst texts
  · rfl

theorem mem_arranged {layout : Layout} {keyword : String} {texts : List (String × String)}
    {item : String × String} : item ∈ arranged layout keyword texts ↔ item ∈ texts := by
  rw [arranged]
  split
  · exact (Section.canonical_perm Prod.fst texts).mem_iff
  · rfl

mutual

theorem shifted_print (k : Nat) : ∀ (s : Statement) (level : Nat),
    (∀ header ∈ s.headers .all, Steady header) →
    layout.shifted k (s.print layout level) = s.print layout (level + k)
  | ⟨keyword, argument, children⟩, level, hs => by
    rw [headers, List.forall_mem_cons] at hs
    obtain ⟨⟨hkeyword, hcomment⟩, hbelow⟩ := hs
    rw [print, print]
    split_ifs with hkind hchildren
    · exact layout.shifted_commentText level k (hcomment hkind)
    · exact layout.shifted_statementText level k hkeyword argument (by simp)
    · have hwhole : ∀ text ∈ (arranged layout keyword (printAll layout (level + 1) children)).map
          Prod.snd, Whole text.toList := by
        intro text htext
        obtain ⟨item, hitem, rfl⟩ := List.mem_map.1 htext
        rw [mem_arranged, printAll_eq_map] at hitem
        obtain ⟨s, -, rfl⟩ := List.mem_map.1 hitem
        exact whole_print layout (level + 1) s
      have htexts : (arranged layout keyword (printAll layout (level + k + 1) children)).map
          Prod.snd = ((arranged layout keyword (printAll layout (level + 1) children)).map
            Prod.snd).map (layout.shifted k) := by
        rw [Nat.add_right_comm, ← shifted_printAll k children (level + 1) hbelow, arranged_map,
          List.map_map, List.map_map]
        rfl
      dsimp only
      rw [htexts, ← layout.shifted_join k hwhole]
      apply layout.shifted_statementText level k hkeyword argument
      rintro text ⟨⟩
      rw [String.toList_join]
      exact Whole.flatMap hwhole

theorem shifted_printAll (k : Nat) : ∀ (ss : List Statement) (level : Nat),
    (∀ header ∈ headersAll .all ss, Steady header) →
    (printAll layout level ss).map (Prod.map id (layout.shifted k)) =
      printAll layout (level + k) ss
  | [], _, _ => rfl
  | s :: rest, level, hss => by
    rw [headersAll, List.forall_mem_append] at hss
    rw [printAll, printAll, List.map_cons, shifted_printAll k rest level hss.2, Prod.map_apply,
      shifted_print k s level hss.1]
    rfl

end

end Statement

namespace Tree

variable {t : Tree} {n : NodeId}

theorem printAt_startLevel (t : Tree) (layout : Layout) (start depth : Nat) :
    ∀ level id, t.printAt { layout with startLevel := start } depth level id =
      t.printAt layout depth level id := by
  induction depth with
  | zero =>
    intro level id
    rfl
  | succ depth ih =>
    intro level id
    have hbelow : t.printAt { layout with startLevel := start } depth (level + 1) =
        t.printAt layout depth (level + 1) := funext (ih (level + 1))
    rw [printAt, printAt, hbelow]
    rfl

theorem Forest.print_startLevel (h : t.Forest) (layout : Layout) (level : Nat) (n : NodeId) :
    t.print { layout with startLevel := level } n = (t.snapshot n).print layout level := by
  obtain ⟨height, hlt, hle⟩ := h.exists_height
  rw [print, printAt_startLevel]
  exact printAt_eq_print_unfold hlt t.size n level (hle n)

/-- At a deeper level a statement is printed with a margin before every line that is not empty,
where no keyword at or below it is broken over lines and no comment has an empty line between
others. So a block is its heading, the texts of its substatements moved right by one level, and its
closing brace. -/
theorem print_shifted (ht : t.Reachable)
    (hsteady : ∀ x ∈ t.preorder .all n, Layout.Steady (t.header x)) (layout : Layout) (b : Nat) :
    (∀ k, t.print { layout with startLevel := b + k } n =
      layout.shifted k (t.print { layout with startLevel := b } n)) ∧
    (Keyword.isComment (t.keyword n) = false → t.children n ≠ [] →
      t.print { layout with startLevel := b } n =
        layout.heading b (t.keyword n) (t.argument n) ++ " \x7b\n" ++
          String.join ((t.printOrder layout n).map fun c =>
            layout.shifted 1 (t.print { layout with startLevel := b } c)) ++
          layout.indent b ++ "\x7d\n") := by
  have h := ht.forest
  have hmoved : ∀ x, t.Above n x → ∀ level k, t.print { layout with startLevel := level + k } x =
      layout.shifted k (t.print { layout with startLevel := level } x) := by
    intro x hx level k
    rw [h.print_startLevel, h.print_startLevel]
    refine (Statement.shifted_print k _ level ?_).symm
    intro header hheader
    rw [← h.map_header_preorder] at hheader
    obtain ⟨y, hy, rfl⟩ := List.mem_map.1 hheader
    exact hsteady y (h.mem_preorder_iff.2 (hx.trans (h.mem_preorder_iff.1 hy)))
  refine ⟨hmoved n .refl b, fun hcomment hchildren => ?_⟩
  have hbelow : (t.printOrder layout n).map (fun c =>
      layout.shifted 1 (t.print { layout with startLevel := b } c)) =
      (Statement.arranged layout (t.keyword n) (Statement.printAll layout (b + 1)
        ((t.children n).map t.snapshot))).map Prod.snd := by
    rw [map_printOrder, Statement.printAll_eq_map, List.map_map]
    congr 2
    apply List.map_congr_left
    intro c hc
    rw [← hmoved c (.single hc), h.print_startLevel, Function.comp_apply, h.snapshot_eq c]
  rw [hbelow, h.print_startLevel, h.snapshot_eq n, Statement.print, hcomment,
    if_neg Bool.false_ne_true, if_neg (by simpa using hchildren), Layout.statementText_some]

/-- A container with a block comment, an empty line and a description of several lines, the last of
which is empty. -/
def withDescription : Tree :=
  ofStatement ⟨"module", some "m", [⟨"container", some "c",
    [⟨Keyword.comment, some "/*\n* a\n*/", []⟩, ⟨Keyword.comment, some Comment.blank, []⟩,
      ⟨"description", some "x\n\n y\n", []⟩]⟩]⟩

theorem print_shifted_description :
    withDescription.Reachable ∧
      (∀ x ∈ withDescription.preorder .all 1, Layout.Steady (withDescription.header x)) ∧
      withDescription.print { width := 3, startLevel := 1 + 2 } 1 =
        Layout.shifted { width := 3 } 2 (withDescription.print { width := 3, startLevel := 1 } 1) ∧
      withDescription.print { width := 3, startLevel := 1 } 1 =
        "   container c \x7b\n      /*\n       * a\n       */\n\n      description \"x\n\n" ++
          "                    y\n                  \";\n   \x7d\n" := by
  have ht : withDescription.Reachable := .ofStatement _
  have hsteady : ∀ x ∈ withDescription.preorder .all 1,
      Layout.Steady (withDescription.header x) := by decide
  obtain ⟨hmoved, -⟩ := print_shifted ht hsteady { width := 3 } 1
  exact ⟨ht, hsteady, hmoved 2, by decide⟩

end Tree

end YangDoc
