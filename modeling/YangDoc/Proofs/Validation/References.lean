import Mathlib.Data.List.TakeDrop
import Mathlib.Data.List.TakeWhile
import Mathlib.Tactic.Common
import YangDoc.Validation.Structural

/-!
# Prefixes in keywords and arguments

The structural checks look for prefixes in two ways. The prefix of a keyword is what stands before
its first colon. An argument is cut into tokens at blanks and at a few characters of path
expressions, and of each token only what stands before its first colon counts as a prefix, unless
it is empty. Both are stated here by where the text is divided, without saying how that is found.
-/

namespace YangDoc

namespace Text

variable {cut : Char → Bool} {cs piece : List Char}

/-- A stretch of the text without a cut, which begins and ends at a cut or at an end of the text. -/
structure IsPiece (cut : Char → Bool) (cs piece : List Char) : Prop where
  uncut : ∀ c ∈ piece, cut c = false
  bounded : ∃ before after, cs = before ++ (piece ++ after) ∧
    (∀ c ∈ before.getLast?, cut c = true) ∧ ∀ c ∈ after.head?, cut c = true

theorem pieces_eq_splitOnP (cut : Char → Bool) (cs : List Char) :
    pieces cut cs = cs.splitOnP cut := by
  induction cs with
  | nil => rfl
  | cons c cs ih =>
    rw [pieces, ih, List.splitOnP_cons_eq_if_modifyHead]
    split
    · rfl
    · obtain ⟨p, ps, hsplit⟩ := List.exists_cons_of_ne_nil (List.splitOnP_ne_nil cut cs)
      rw [hsplit]
      rfl

-- the characters read since the last cut are kept in front of the text that is left
private theorem isPiece_of_mem_splitOnP (cs : List Char) :
    ∀ read : List Char, (∀ c ∈ read, cut c = false) → piece ∈ (read ++ cs).splitOnP cut →
      IsPiece cut (read ++ cs) piece := by
  induction cs with
  | nil =>
    intro read hread hpiece
    rw [List.append_nil, List.splitOnP_eq_singleton hread, List.mem_singleton] at hpiece
    exact ⟨by rwa [hpiece], [], [], by simp [hpiece], by simp, by simp⟩
  | cons c cs ih =>
    intro read hread hpiece
    by_cases hc : cut c = true
    · rw [List.splitOnP_append_cons_of_forall_mem hread c hc, List.mem_cons] at hpiece
      rcases hpiece with rfl | hlater
      · exact ⟨hread, [], c :: cs, rfl, by simp, by simpa using hc⟩
      · obtain ⟨huncut, before, after, heq, hbefore, hafter⟩ := ih [] (by simp) hlater
        refine ⟨huncut, read ++ c :: before, after, ?_, ?_, hafter⟩
        · rw [List.nil_append] at heq
          rw [List.append_assoc, List.cons_append, ← heq]
        · intro d hd
          rw [List.getLast?_append, List.getLast?_cons, Option.some_or, Option.mem_def,
            Option.some.injEq] at hd
          cases hlast : before.getLast? with
          | none =>
            rw [hlast, Option.getD_none] at hd
            exact hd ▸ hc
          | some e =>
            rw [hlast, Option.getD_some] at hd
            exact hd ▸ hbefore e hlast
    · have hread' : ∀ d ∈ read ++ [c], cut d = false := by
        simpa [or_imp, forall_and] using And.intro hread hc
      rw [List.append_cons] at hpiece ⊢
      exact ih (read ++ [c]) hread' hpiece

theorem mem_pieces_iff : piece ∈ pieces cut cs ↔ IsPiece cut cs piece := by
  rw [pieces_eq_splitOnP]
  constructor
  · exact isPiece_of_mem_splitOnP cs [] (by simp)
  · rintro ⟨huncut, before, after, rfl, hbefore, hafter⟩
    have hfirst : piece ∈ (piece ++ after).splitOnP cut := by
      cases after with
      | nil => rw [List.append_nil, List.splitOnP_eq_singleton huncut, List.mem_singleton]
      | cons c after =>
        rw [List.splitOnP_append_cons_of_forall_mem huncut c (hafter c rfl)]
        exact List.mem_cons_self
    rcases List.eq_nil_or_concat before with rfl | ⟨init, c, rfl⟩
    · exact hfirst
    · rw [List.concat_eq_append, List.append_assoc, List.singleton_append,
        List.splitOnP_append_cons _ _ (hbefore c (by simp))]
      exact List.mem_append_right _ hfirst

/-- A stretch without a cut that begins at a cut, or at the start of the text, begins a piece. -/
theorem exists_isPiece {before stretch : List Char} (hbefore : ∀ c ∈ before.getLast?, cut c = true)
    (hstretch : ∀ c ∈ stretch, cut c = false) (after : List Char) :
    ∃ rest, IsPiece cut (before ++ (stretch ++ after)) (stretch ++ rest) := by
  refine ⟨after.takeWhile (!cut ·), ?_, before, after.dropWhile (!cut ·), ?_, hbefore, ?_⟩
  · intro c hc
    rcases List.mem_append.1 hc with hc | hc
    · exact hstretch c hc
    · simpa using List.mem_takeWhile_imp hc
  · rw [List.append_assoc, List.takeWhile_append_dropWhile]
  · intro c hc
    have hhead := List.head?_dropWhile_not (!cut ·) after
    rw [hc] at hhead
    simpa using hhead

end Text

namespace Keyword

variable {q value : String}

theorem split_qualified (hq : ':' ∉ q.toList) (name : String) :
    split (q ++ ":" ++ name) = (some q, name) := by
  have hplain : ∀ c ∈ q.toList, (c != ':') = true := by
    intro c hc
    rw [bne_iff_ne]
    exact fun h => hq (h ▸ hc)
  rw [split, List.span_eq_takeWhile_dropWhile]
  simp [List.takeWhile_append_of_pos hplain, List.dropWhile_append_of_pos hplain]

theorem split_of_not_mem (hvalue : ':' ∉ value.toList) : split value = (none, value) := by
  have hplain : ∀ c ∈ value.toList, (c != ':') = true := by
    intro c hc
    rw [bne_iff_ne]
    exact fun h => hvalue (h ▸ hc)
  rw [split, List.span_eq_takeWhile_dropWhile, List.dropWhile_eq_nil_iff.2 hplain]

/-- The text before the first colon of `value` is `q`. -/
def Qualifies (q value : String) : Prop :=
  ':' ∉ q.toList ∧ ∃ name, value = q ++ ":" ++ name

theorem qualifier?_eq_some_iff : qualifier? value = some q ↔ Qualifies q value := by
  have hspan : value.toList.span (· != ':') =
      (value.toList.takeWhile (· != ':'), value.toList.dropWhile (· != ':')) :=
    List.span_eq_takeWhile_dropWhile ..
  constructor
  · intro hq
    rw [qualifier?, split, hspan] at hq
    cases hdrop : value.toList.dropWhile (· != ':') with
    | nil => simp [hdrop] at hq
    | cons c name =>
      have hc : c = ':' := by
        have hhead := List.head_dropWhile_not (· != ':') (l := value.toList) (by simp [hdrop])
        simpa [hdrop] using hhead
      have hq : String.ofList (value.toList.takeWhile (· != ':')) = q := by simpa [hdrop] using hq
      subst hq
      refine ⟨?_, String.ofList name, ?_⟩
      · rw [String.toList_ofList]
        exact fun hmem => by simpa using List.mem_takeWhile_imp hmem
      · have happend : value.toList.takeWhile (· != ':') ++ ':' :: name = value.toList := by
          rw [hc] at hdrop
          rw [← hdrop, List.takeWhile_append_dropWhile]
        rw [← String.toList_inj]
        simpa using happend.symm
  · rintro ⟨hq, name, rfl⟩
    rw [qualifier?, split_qualified hq]

theorem Qualifies.unique {q' : String} (h : Qualifies q value) (h' : Qualifies q' value) :
    q = q' := by
  rw [← qualifier?_eq_some_iff] at h h'
  exact Option.some.inj (h.symm.trans h')

end Keyword

namespace Structural

variable {argument q : String}

/-- One of the tokens of the argument is a name with the prefix `q`. -/
def Refers (argument q : String) : Prop :=
  q ≠ "" ∧ ∃ token, Text.IsPiece isSeparator argument.toList token.toList ∧
    Keyword.Qualifies q token

theorem mem_referenced_iff : q ∈ referenced argument ↔ Refers argument q := by
  simp only [referenced, List.mem_filterMap, Text.mem_pieces_iff, Option.filter_eq_some_iff,
    Keyword.qualifier?_eq_some_iff, bne_iff_ne]
  constructor
  · rintro ⟨token, hpiece, hq, hne⟩
    exact ⟨hne, String.ofList token, by rwa [String.toList_ofList], hq⟩
  · rintro ⟨hne, token, hpiece, hq⟩
    exact ⟨token.toList, hpiece, by rwa [String.ofList_toList], hne⟩

end Structural

end YangDoc
