import Mathlib.Data.List.DropRight
import Mathlib.Tactic.Common
import YangDoc.Text.Blank
import YangDoc.Text.Lines

/-!
# Lines of a text

A line holds no line feed and is a stretch of the text that it was cut from, so a mark that does
not occur in the text does not occur in a line. Ending a line and starting another cuts the text
there, apart from a carriage return that may be lost. What stands before the first cut of a text
belongs to its first piece.
-/

namespace YangDoc.Text

variable {cs l rest : List Char} {c : Char}

theorem lines_cons (hc : c ≠ '\n') (hreturn : c = '\r' → cs.head? ≠ some '\n') :
    lines (c :: cs) = (c :: (lines cs).headD []) :: (lines cs).tail := by
  rw [lines]
  · cases lines cs <;> rfl
  · exact hc
  · rintro ds rfl rfl
    exact hreturn rfl rfl

/-- The text without a carriage return at its end. -/
def chomp : List Char → List Char
  | [] => []
  | ['\r'] => []
  | c :: cs => c :: chomp cs

theorem prefix_chomp (cs : List Char) : chomp cs <+: cs := by
  induction cs using chomp.induct with
  | case1 => exact List.prefix_rfl
  | case2 => exact List.nil_prefix
  | case3 c cs hreturn ih =>
    rw [chomp]
    · exact List.cons_prefix_cons.2 ⟨rfl, ih⟩
    · exact hreturn

theorem chomp_eq_or (cs : List Char) : chomp cs = cs ∨ cs = chomp cs ++ ['\r'] := by
  induction cs using chomp.induct with
  | case1 => exact .inl rfl
  | case2 => exact .inr rfl
  | case3 c cs hreturn ih =>
    rw [chomp]
    · exact ih.imp (congrArg (c :: ·)) (congrArg (c :: ·))
    · exact hreturn

theorem lines_append_lineBreak (hcs : '\n' ∉ cs) (rest : List Char) :
    lines (cs ++ '\n' :: rest) = chomp cs :: lines rest := by
  induction cs using chomp.induct with
  | case1 => rfl
  | case2 => rfl
  | case3 c cs hreturn ih =>
    rw [List.mem_cons, not_or] at hcs
    have hhead : c = '\r' → (cs ++ '\n' :: rest).head? ≠ some '\n' := by
      rintro rfl
      cases cs with
      | nil => exact absurd rfl (hreturn rfl)
      | cons d ds =>
        rintro hd
        exact hcs.2 (List.mem_cons.2 (.inl (Option.some.inj hd).symm))
    rw [List.cons_append, lines_cons (Ne.symm hcs.1) hhead, ih hcs.2, chomp]
    · rfl
    · exact hreturn

theorem lines_of_not_mem (hcs : '\n' ∉ cs) (hne : cs ≠ []) : lines cs = [cs] := by
  induction cs with
  | nil => exact absurd rfl hne
  | cons c cs ih =>
    rw [List.mem_cons, not_or] at hcs
    have hhead : c = '\r' → cs.head? ≠ some '\n' :=
      fun _ hd => hcs.2 (List.mem_of_head? hd)
    rw [lines_cons (Ne.symm hcs.1) hhead]
    by_cases hempty : cs = []
    · rw [hempty]
      rfl
    · rw [ih hcs.2 hempty]
      rfl

theorem prefix_head_lines (cs : List Char) :
    (lines cs).headD [] <+: cs ∧ '\n' ∉ (lines cs).headD [] := by
  induction cs with
  | nil => simp [lines]
  | cons c cs ih =>
    by_cases hc : c = '\n'
    · subst hc
      rw [lines]
      simp
    · by_cases hreturn : c = '\r' ∧ cs.head? = some '\n'
      · obtain ⟨ds, rfl⟩ := List.head?_eq_some_iff.1 hreturn.2
        rw [hreturn.1, lines]
        simp
      · rw [lines_cons hc fun h h' => hreturn ⟨h, h'⟩, List.headD_cons, List.mem_cons, not_or]
        exact ⟨List.cons_prefix_cons.2 ⟨rfl, ih.1⟩, Ne.symm hc, ih.2⟩

theorem infix_of_mem_lines (hl : l ∈ lines cs) : l <:+: cs ∧ '\n' ∉ l := by
  induction cs with
  | nil => simp [lines] at hl
  | cons c cs ih =>
    have hlater : l ∈ lines cs → l <:+: c :: cs ∧ '\n' ∉ l :=
      fun h => ⟨(ih h).1.trans (List.suffix_cons c cs).isInfix, (ih h).2⟩
    by_cases hc : c = '\n'
    · subst hc
      rw [lines] at hl
      rcases List.mem_cons.1 hl with rfl | hl
      · exact ⟨List.nil_infix, by simp⟩
      · exact hlater hl
    · by_cases hreturn : c = '\r' ∧ cs.head? = some '\n'
      · obtain ⟨ds, rfl⟩ := List.head?_eq_some_iff.1 hreturn.2
        rw [hreturn.1, lines] at hl
        apply hlater
        rw [lines]
        exact hl
      · have hhead := prefix_head_lines (c :: cs)
        rw [lines_cons hc fun h h' => hreturn ⟨h, h'⟩] at hl hhead
        rcases List.mem_cons.1 hl with rfl | hl
        · exact ⟨hhead.1.isInfix, hhead.2⟩
        · exact hlater (List.mem_of_mem_tail hl)

/-! ### Pieces -/

theorem pieces_append {cut : Char → Bool} (hcs : ∀ c ∈ cs, cut c = false) (rest : List Char) :
    pieces cut (cs ++ rest) = (cs ++ (pieces cut rest).headD []) :: (pieces cut rest).tail := by
  induction cs with
  | nil =>
    cases rest with
    | nil => rfl
    | cons c rest =>
      rw [List.nil_append, pieces]
      split
      · rfl
      · cases pieces cut rest <;> rfl
  | cons c cs ih =>
    rw [List.forall_mem_cons] at hcs
    rw [List.cons_append, pieces, hcs.1, if_neg Bool.false_ne_true, ih hcs.2]
    rfl

/-! ### Trimming -/

theorem infix_trim (cs : List Char) : trim cs <:+: cs :=
  (List.rdropWhile_prefix isBlank _).isInfix.trans (List.dropWhile_suffix isBlank).isInfix

theorem trim_ne_nil (hc : c ∈ cs) (hblank : isBlank c = false) : trim cs ≠ [] := by
  intro htrim
  have hall : ∀ d ∈ cs.dropWhile isBlank, isBlank d = true := List.rdropWhile_eq_nil_iff.1 htrim
  have hempty : cs.dropWhile isBlank = [] := by
    by_contra hne
    have hhead := List.head_dropWhile_not isBlank hne
    rw [hall _ (List.head_mem hne)] at hhead
    simp at hhead
  have := List.dropWhile_eq_nil_iff.1 hempty c hc
  simp [hblank] at this

end YangDoc.Text
