import Mathlib.Data.List.SplitBy
import YangDoc.Keyword.Method
import YangDoc.Proofs.Validation.References

/-!
# Keywords and their spellings

A method name is read pair by pair from the left, and what it spells can be told run by run: of a
maximal run of underscores half as many colons are left and, if one underscore remains, a hyphen
behind them. Runs do not reach across other characters, so each is read by itself. The same comes
out when first all pairs are replaced by colons and then all single underscores by hyphens.

A keyword is spelled by writing two underscores for a colon and one for a hyphen. Colons and hyphens
next to each other become a single run, which is read back with its colons first and at most one
hyphen. So exactly those keywords come back in which a hyphen stands neither before a colon nor
before another hyphen.
-/

namespace YangDoc.Keyword

/-! ### Runs of underscores -/

/-- What a run of so many underscores stands for. -/
def runText (n : Nat) : List Char :=
  List.replicate (n / 2) ':' ++ List.replicate (n % 2) '-'

/-- The text as maximal stretches of underscores and of other characters, by turns. -/
def stretches (cs : List Char) : List (List Char) :=
  cs.splitBy fun a b => (a == '_') == (b == '_')

/-- Runs of underscores are respelled, other stretches stay as they are. -/
def stretchText (stretch : List Char) : List Char :=
  if '_' ∈ stretch then runText stretch.length else stretch

variable {c : Char} {cs ds stretch : List Char}

theorem respell_cons (hc : c ≠ '_') (cs : List Char) : respell (c :: cs) = c :: respell cs := by
  rw [respell]
  · exact fun _ h => absurd h hc
  · exact hc

theorem respell_pair (cs : List Char) : respell ('_' :: '_' :: cs) = ':' :: respell cs := by
  rw [respell]

theorem respell_single (hcs : '_' ∉ cs.head?) : respell ('_' :: cs) = '-' :: respell cs := by
  cases cs with
  | nil => rfl
  | cons c cs =>
    rw [respell]
    intro ds heq
    exact hcs (by rw [(List.cons.inj heq).1]; rfl)

theorem mem_getLast?_cons (hc : c ∈ cs.getLast?) (d : Char) : c ∈ (d :: cs).getLast? := by
  rw [Option.mem_def] at hc
  rw [List.getLast?_cons, hc]
  rfl

/-- Where no run of underscores is cut, the two parts are read by themselves. -/
theorem respell_append (hcut : '_' ∈ cs.getLast? → '_' ∉ ds.head?) :
    respell (cs ++ ds) = respell cs ++ respell ds := by
  fun_induction respell cs with
  | case1 => rfl
  | case2 cs ih =>
    rw [List.cons_append, List.cons_append, respell_pair, List.cons_append, ih]
    intro hlast
    exact hcut (mem_getLast?_cons (mem_getLast?_cons hlast '_') '_')
  | case3 cs hcs ih =>
    have hhead : '_' ∉ (cs ++ ds).head? := by
      cases cs with
      | nil => exact hcut rfl
      | cons c cs =>
        intro heq
        exact hcs cs (by rw [Option.some.inj heq])
    rw [List.cons_append, respell_single hhead, List.cons_append, ih]
    intro hlast
    exact hcut (mem_getLast?_cons hlast '_')
  | case4 c cs _ hc ih =>
    rw [List.cons_append, respell_cons hc, List.cons_append, ih]
    intro hlast
    exact hcut (mem_getLast?_cons hlast c)

theorem respell_of_not_mem (hcs : '_' ∉ cs) : respell cs = cs := by
  induction cs with
  | nil => rfl
  | cons c cs ih =>
    rw [List.mem_cons, not_or] at hcs
    rw [respell_cons (Ne.symm hcs.1), ih hcs.2]

theorem respell_replicate (n : Nat) : respell (List.replicate n '_') = runText n := by
  induction n using Nat.twoStepInduction with
  | zero => rfl
  | one => rfl
  | more n ih _ =>
    have hhalf : (n + 2) / 2 = n / 2 + 1 := by omega
    have hrest : (n + 2) % 2 = n % 2 := by omega
    rw [List.replicate_succ, List.replicate_succ, respell_pair, ih, runText, runText, hhalf, hrest,
      List.replicate_succ, List.cons_append]

theorem stretch_uniform (hchain : stretch.IsChain fun a b => ((a == '_') == (b == '_')) = true) :
    (∀ c ∈ stretch, c = '_') ∨ '_' ∉ stretch := by
  induction stretch with
  | nil => exact .inr List.not_mem_nil
  | cons c stretch ih =>
    cases stretch with
    | nil =>
      by_cases hc : c = '_'
      · exact .inl (by simpa using hc)
      · exact .inr (by simpa using Ne.symm hc)
    | cons d stretch =>
      obtain ⟨hstep, hrest⟩ := List.isChain_cons_cons.1 hchain
      have hsame : c = '_' ↔ d = '_' := by
        rwa [beq_iff_eq, Bool.eq_iff_iff, beq_iff_eq, beq_iff_eq] at hstep
      rcases ih hrest with hall | hnone
      · left
        rw [List.forall_mem_cons]
        exact ⟨hsame.2 (hall d List.mem_cons_self), hall⟩
      · right
        rw [List.mem_cons, not_or]
        refine ⟨fun heq => hnone ?_, hnone⟩
        rw [hsame.1 heq.symm]
        exact List.mem_cons_self

theorem respell_stretch (hchain : stretch.IsChain fun a b => ((a == '_') == (b == '_')) = true) :
    respell stretch = stretchText stretch := by
  rw [stretchText]
  split
  · rename_i hmem
    rcases stretch_uniform hchain with hall | hnone
    · rw [← respell_replicate, ← List.eq_replicate_of_mem hall]
    · exact absurd hmem hnone
  · rename_i hnone
    exact respell_of_not_mem hnone

theorem respell_flatten {runs : List (List Char)}
    (hchain : ∀ r ∈ runs, r.IsChain fun a b => ((a == '_') == (b == '_')) = true)
    (hturns : runs.IsChain fun r s =>
      ∃ hr hs, ((r.getLast hr == '_') == (s.head hs == '_')) = false) :
    respell runs.flatten = runs.flatMap stretchText := by
  induction runs with
  | nil => rfl
  | cons r runs ih =>
    rw [List.forall_mem_cons] at hchain
    rw [List.flatten_cons, List.flatMap_cons, ← respell_stretch hchain.1,
      ← ih hchain.2 hturns.tail]
    apply respell_append
    intro hlast hhead
    cases runs with
    | nil => cases hhead
    | cons s runs =>
      obtain ⟨⟨hr, hs, hturn⟩, -⟩ := List.isChain_cons_cons.1 hturns
      rw [List.flatten_cons, List.head?_append_of_ne_nil _ hs, List.head?_eq_some_head hs,
        Option.mem_some] at hhead
      rw [List.getLast?_eq_some_getLast hr, Option.mem_some] at hlast
      rw [hlast, hhead] at hturn
      cases hturn

theorem respell_eq (cs : List Char) : respell cs = (stretches cs).flatMap stretchText := by
  have hturns := List.isChain_getLast_head_splitBy (fun a b : Char => (a == '_') == (b == '_')) cs
  rw [stretches, ← respell_flatten (fun r hr => List.isChain_of_mem_splitBy hr) hturns,
    List.flatten_splitBy]

/-! ### Two replacements -/

/-- The text with the occurrences of a pattern replaced, which are found from the left and do not
overlap. -/
def replaced (pattern new : List Char) : List Char → List Char
  | [] => []
  | c :: cs =>
    if pattern <+: c :: cs then new ++ replaced pattern new (cs.drop (pattern.length - 1))
    else c :: replaced pattern new cs
termination_by cs => cs.length
decreasing_by all_goals simp only [List.length_drop, List.length_cons]; omega

theorem respell_eq_replaced (cs : List Char) :
    respell cs = replaced ['_'] ['-'] (replaced ['_', '_'] [':'] cs) := by
  fun_induction respell cs with
  | case1 => simp [replaced]
  | case2 cs ih =>
    -- the colon is not touched by the second replacement
    rw [replaced, if_pos (by simp), List.singleton_append, replaced, if_neg (by simp), ih]
    rfl
  | case3 cs hcs ih =>
    have hsingle : ¬ ['_', '_'] <+: '_' :: cs := by
      rintro ⟨ds, heq⟩
      exact hcs ds (List.cons.inj heq).2.symm
    rw [replaced, if_neg hsingle, replaced, if_pos (by simp), ih]
    rfl
  | case4 c cs _ hc ih =>
    rw [replaced, if_neg (by simp [Ne.symm hc]), replaced, if_neg (by simp [Ne.symm hc]), ih]

/-! ### Spelling a keyword -/

def spellChar (c : Char) : List Char :=
  if c = ':' then ['_', '_'] else if c = '-' then ['_'] else [c]

def spell (cs : List Char) : List Char :=
  cs.flatMap spellChar

def toMethod (keyword : String) : String :=
  String.ofList (spell keyword.toList)

theorem spell_colon (cs : List Char) : spell (':' :: cs) = '_' :: '_' :: spell cs :=
  rfl

theorem spell_hyphen (cs : List Char) : spell ('-' :: cs) = '_' :: spell cs :=
  rfl

theorem spell_cons (hcolon : c ≠ ':') (hhyphen : c ≠ '-') (cs : List Char) :
    spell (c :: cs) = c :: spell cs := by
  rw [spell, List.flatMap_cons, spellChar, if_neg hcolon, if_neg hhyphen]
  rfl

/-- Behind a hyphen the spelling goes on with an underscore if a hyphen or a colon follows. -/
theorem head?_spell (hcs : '_' ∉ cs) :
    '_' ∈ (spell cs).head? ↔ ['-', '-'] <+: '-' :: cs ∨ ['-', ':'] <+: '-' :: cs := by
  cases cs with
  | nil => simp [spell]
  | cons c cs =>
    rw [List.mem_cons, not_or] at hcs
    simp only [List.cons_prefix_cons, true_and, List.nil_prefix, and_true]
    by_cases hcolon : c = ':'
    · simp [hcolon, spell_colon]
    · by_cases hhyphen : c = '-'
      · simp [hhyphen, spell_hyphen]
      · simp [spell_cons hcolon hhyphen, Ne.symm hcs.1, Ne.symm hcolon, Ne.symm hhyphen]

theorem respell_spell_iff (hcs : '_' ∉ cs) :
    respell (spell cs) = cs ↔ ¬ ['-', '-'] <:+: cs ∧ ¬ ['-', ':'] <:+: cs := by
  induction cs with
  | nil => simp [spell, respell]
  | cons c cs ih =>
    rw [List.mem_cons, not_or] at hcs
    have hrest := ih hcs.2
    rw [List.infix_cons_iff, List.infix_cons_iff]
    by_cases hcolon : c = ':'
    · subst hcolon
      rw [spell_colon, respell_pair, List.cons.injEq, hrest]
      simp
    · by_cases hhyphen : c = '-'
      · subst hhyphen
        rw [spell_hyphen]
        by_cases hrun : '_' ∈ (spell cs).head?
        · -- the run is read as a colon first
          obtain ⟨ds, hds⟩ := List.head?_eq_some_iff.1 hrun
          rw [hds, respell_pair]
          rw [head?_spell hcs.2] at hrun
          simp only [List.cons.injEq]
          exact ⟨fun heq => absurd heq.1 (by decide), fun hfree => by tauto⟩
        · rw [respell_single hrun, List.cons.injEq, hrest]
          rw [head?_spell hcs.2] at hrun
          tauto
      · rw [spell_cons hcolon hhyphen, respell_cons (Ne.symm hcs.1), List.cons.injEq, hrest]
        simp [Ne.symm hhyphen]

/-! ### Whole names -/

theorem unmarked_of_not_prefix (hcs : ¬ ['r', '#'] <+: cs) : unmarked cs = cs := by
  unfold unmarked
  split
  · exact absurd (List.prefix_append ['r', '#'] _) hcs
  · rfl

theorem mem_head?_of_spell (hc : c ≠ '_') (hspell : c ∈ (spell cs).head?) : c ∈ cs.head? := by
  cases cs with
  | nil => exact hspell
  | cons d cs =>
    by_cases hcolon : d = ':'
    · rw [hcolon, spell_colon] at hspell
      exact absurd (Option.some.inj hspell).symm hc
    · by_cases hhyphen : d = '-'
      · rw [hhyphen, spell_hyphen] at hspell
        exact absurd (Option.some.inj hspell).symm hc
      · rw [spell_cons hcolon hhyphen] at hspell
        exact hspell

theorem not_marked_spell (hcs : ¬ ['r', '#'] <+: cs) : ¬ ['r', '#'] <+: spell cs := by
  intro hmarked
  obtain ⟨ds, hds⟩ := hmarked
  have hfirst : 'r' ∈ cs.head? := mem_head?_of_spell (by decide) (by rw [← hds]; rfl)
  obtain ⟨es, rfl⟩ := List.head?_eq_some_iff.1 hfirst
  rw [spell_cons (by decide) (by decide), List.cons_append, List.cons.injEq] at hds
  have hsecond : '#' ∈ es.head? := mem_head?_of_spell (by decide) (by rw [← hds.2]; rfl)
  obtain ⟨fs, rfl⟩ := List.head?_eq_some_iff.1 hsecond
  exact hcs (List.prefix_append ['r', '#'] fs)

theorem ofMethod_toMethod (k : String) (hk : ¬ ['r', '#'] <+: k.toList) :
    ofMethod (toMethod k) none = String.ofList (respell (spell k.toList)) := by
  rw [ofMethod, toMethod, String.toList_ofList, unmarked_of_not_prefix (not_marked_spell hk)]

/-- A method name without its mark spells the keyword in which each maximal run of underscores has
become half as many colons, and a hyphen if one underscore was left over. A given qualifier takes
the place of all before the first colon. So a keyword without underscores and mark that is spelled
as a method name is spelled by it exactly if no hyphen in it stands before a hyphen or a colon. -/
theorem ofMethod_exact {method body : String}
    (hbody : method = "r#" ++ body ∨ method = body ∧ ¬ ['r', '#'] <+: body.toList) :
    ofMethod method none = String.ofList ((stretches body.toList).flatMap stretchText) ∧
    (∀ q : String, ':' ∉ (ofMethod method none).toList →
      ofMethod method (some q) = q ++ ":" ++ ofMethod method none) ∧
    (∀ q before after : String, ':' ∉ before.toList →
      ofMethod method none = before ++ ":" ++ after →
        ofMethod method (some q) = q ++ ":" ++ after) ∧
    ∀ k : String, '_' ∉ k.toList → ¬ ['r', '#'] <+: k.toList →
      (ofMethod (toMethod k) none = k ↔
        ¬ ['-', '-'] <:+: k.toList ∧ ¬ ['-', ':'] <:+: k.toList) := by
  have hunmarked : unmarked method.toList = body.toList := by
    rcases hbody with rfl | ⟨rfl, hplain⟩
    · rw [String.toList_append]
      rfl
    · exact unmarked_of_not_prefix hplain
  have hqualified : ∀ q, ofMethod method (some q) = q ++ ":" ++ localName (ofMethod method none) :=
    fun _ => rfl
  refine ⟨?_, ?_, ?_, ?_⟩
  · rw [ofMethod, hunmarked, respell_eq]
  · intro q hnone
    rw [hqualified, localName, split_of_not_mem hnone]
  · intro q before after hbefore heq
    rw [hqualified, heq, localName, split_qualified hbefore]
  · intro k hk hplain
    rw [ofMethod_toMethod k hplain, ← respell_spell_iff hk, ← String.toList_inj,
      String.toList_ofList]

/-- An odd run is read as colons and a hyphen, and only the first colon ends the qualifier. -/
theorem ofMethod_exact_odd_run :
    ofMethod "r#a_____b" none = "a::-b" ∧ ofMethod "r#a_____b" (some "x") = "x::-b" ∧
      ofMethod (toMethod "ext:c-define") none = "ext:c-define" ∧
      ofMethod (toMethod "a-:b") none ≠ "a-:b" := by
  obtain ⟨hnone, -, hqualified, hback⟩ :=
    @ofMethod_exact "r#a_____b" "a_____b" (.inl (by decide +kernel))
  have hname : ofMethod "r#a_____b" none = "a" ++ ":" ++ ":-b" := hnone.trans (by decide +kernel)
  have hext := hback "ext:c-define" (by decide +kernel) (by decide +kernel)
  have hlost := hback "a-:b" (by decide +kernel) (by decide +kernel)
  refine ⟨hname, hqualified "x" "a" ":-b" (by decide +kernel) hname, ?_, ?_⟩
  · exact hext.2 (by decide +kernel)
  · intro heq
    exact (hlost.1 heq).2 (by decide +kernel)

end YangDoc.Keyword
