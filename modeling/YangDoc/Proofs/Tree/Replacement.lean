import YangDoc.Proofs.Tree.Below

/-!
# Replacing substatements

The list of a statement is emptied and then filled again, one move after the other. Each move is
judged in the table that the moves before it have left, yet the outcome can be told from the table
at the start: emptying the list takes nothing away from above the statement, and neither does a move
that is allowed. So the replacement succeeds exactly if it names neither the root nor the statement
itself nor anything above it. Otherwise it stops at the first such name and leaves what replacing by
the names before would have made.
-/

namespace YangDoc.Tree

open Relation

variable {t t' : Tree} {p c x a : Nat} {cs ids : List Nat}

/-! ### Moves in turn -/

theorem attachAll_eq_error {e : Error} (herror : t.attachAll p cs = (.error e, t')) :
    ∃ before c after, cs = before ++ c :: after ∧ t.attachAll p before = (.ok (), t') ∧
      t'.refusal? (some p) c = some e := by
  induction cs generalizing t with
  | nil => simp [attachAll] at herror
  | cons c cs ih =>
    rw [attachAll] at herror
    cases hc : t.attach p c with
    | error e' =>
      rw [hc] at herror
      obtain ⟨he, rfl⟩ := Prod.mk.inj herror
      refine ⟨[], c, cs, rfl, rfl, ?_⟩
      unfold attach at hc
      split at hc
      · rename_i hrefusal
        rw [hrefusal, Except.error.inj hc, Except.error.inj he]
      · simp at hc
    | ok t₁ =>
      rw [hc] at herror
      obtain ⟨before, b, after, rfl, hbefore, hrefusal⟩ := ih herror
      refine ⟨c :: before, b, after, rfl, ?_, hrefusal⟩
      rw [attachAll, hc]
      exact hbefore

namespace Forest

theorem above_attachAll (h : t.Forest) (hp : p < t.size) (hcs : ∀ c ∈ cs, c < t.size)
    (hok : t.attachAll p cs = (.ok (), t')) : t'.Above a p ↔ t.Above a p := by
  induction cs generalizing t with
  | nil =>
    obtain rfl : t = t' := congrArg Prod.snd hok
    exact .rfl
  | cons c cs ih =>
    rw [List.forall_mem_cons] at hcs
    obtain ⟨t₁, hc, hrest⟩ := attachAll_cons_eq_ok hok
    have hsize := size_attach hc
    rw [ih (h.attach hp hcs.1 hc) (hsize ▸ hp) (fun y hy => hsize ▸ hcs.2 y hy) hrest,
      h.above_attach hp hc]

/-- Whether several moves are all made can be told before the first of them. -/
theorem attachAll_eq_ok_iff (h : t.Forest) (hp : p < t.size) (hcs : ∀ c ∈ cs, c < t.size) :
    (t.attachAll p cs).1 = .ok () ↔ ∀ c ∈ cs, c ≠ root ∧ ¬ t.Above c p := by
  constructor
  · intro hok
    induction cs generalizing t with
    | nil => simp
    | cons c cs ih =>
      rw [List.forall_mem_cons] at hcs ⊢
      have hall : t.attachAll p (c :: cs) = (.ok (), (t.attachAll p (c :: cs)).2) :=
        Prod.ext hok rfl
      obtain ⟨t₁, hc, hrest⟩ := attachAll_cons_eq_ok hall
      have hsize := size_attach hc
      obtain ⟨hroot, hbelow⟩ := h.refusal?_eq_none_iff.1 (attach_eq_ok hc).1
      refine ⟨⟨hroot, hbelow p rfl⟩, fun y hy => ?_⟩
      have hlater := ih (h.attach hp hcs.1 hc) (hsize ▸ hp) (fun y hy => hsize ▸ hcs.2 y hy)
        (congrArg Prod.fst hrest) y hy
      rwa [h.above_attach hp hc] at hlater
  · intro hallowed
    obtain ⟨t', hok, -⟩ := h.attachAll_ok hp cs fun c hc => ⟨hcs c hc, hallowed c hc⟩
    rw [hok]

/-- What is on the list of a statement does not lie above it, so emptying the list takes nothing
away from above. -/
theorem above_dropChildren (h : t.Forest) : (t.dropChildren p).Above a p ↔ t.Above a p := by
  apply above_congr
  intro y hy q
  rw [lists_dropChildren, and_iff_left_iff_imp]
  intro hlist heq
  exact h.not_lists_of_above hy (heq ▸ hlist)

end Forest

/-! ### The table after a replacement -/

/-- What a table has become when `ids` are the substatements of `p` in place of those it had. Of a
statement that is named more than once the last mention counts. -/
structure Replaced (t : Tree) (p : Nat) (ids : List Nat) (t' : Tree) : Prop where
  source_eq : t'.source = t.source
  size_eq : t'.size = t.size
  header_eq : ∀ x, t'.header x = t.header x
  children_eq : t'.children p = ids.dedup
  children_of_ne : ∀ x, x ≠ p → t'.children x = (t.children x).filter (· ∉ ids)
  recorded_eq : ∀ x, t'.recorded x =
    if x ∈ ids then some p else if x ∈ t.children p then none else t.recorded x

theorem Replaced.parent?_eq_none (h : t.Replaced p ids t') (hc : c ∈ t.children p)
    (hids : c ∉ ids) : t'.parent? c = none := by
  rw [Option.eq_none_iff_forall_ne_some]
  intro q hparent
  have hrecorded := (parent?_eq_some_iff.1 hparent).1
  rw [h.recorded_eq, if_neg hids, if_pos hc] at hrecorded
  cases hrecorded

namespace Forest

theorem replaced (h : t.Forest) (hp : p < t.size) (hids : ∀ c ∈ ids, c < t.size)
    (hok : t.replaceChildren p ids = (.ok (), t')) : t.Replaced p ids t' := by
  rw [replaceChildren] at hok
  have hlt : ∀ c ∈ ids, c < (t.dropChildren p).size := by simpa using hids
  have hchildren := (h.dropChildren p).children_attachAll (by simpa using hp) hlt hok
  have htable : t' = ((t.dropChildren p).attachAll p ids).2 := (congrArg Prod.snd hok).symm
  refine ⟨?_, ?_, ?_, ?_, ?_, ?_⟩
  · rw [htable, source_attachAll, source_dropChildren]
  · rw [htable, size_attachAll, size_dropChildren]
  · intro x
    rw [htable, header_attachAll, header_dropChildren]
  · rw [hchildren, children_dropChildren, if_pos rfl, if_pos rfl, List.filter_nil, List.nil_append]
  · intro x hx
    rw [hchildren, children_dropChildren, if_neg hx, if_neg hx, List.append_nil]
  · intro x
    rw [recorded_attachAll hlt hok, recorded_dropChildren]

theorem replaceChildren_eq_ok_iff (h : t.Forest) (hp : p < t.size) (hids : ∀ c ∈ ids, c < t.size) :
    (t.replaceChildren p ids).1 = .ok () ↔ ∀ c ∈ ids, c ≠ root ∧ ¬ t.Above c p := by
  rw [replaceChildren, (h.dropChildren p).attachAll_eq_ok_iff (by simpa using hp)
    (by simpa using hids)]
  simp only [h.above_dropChildren]

theorem replaceChildren_ok (h : t.Forest) (hp : p < t.size)
    (hids : ∀ c ∈ ids, c < t.size ∧ c ≠ root ∧ ¬ t.Above c p) :
    ∃ t', t.replaceChildren p ids = (.ok (), t') ∧ t'.Forest := by
  have hlt : ∀ c ∈ ids, c < t.size := fun c hc => (hids c hc).1
  have hok := (h.replaceChildren_eq_ok_iff hp hlt).2 fun c hc => (hids c hc).2
  exact ⟨_, Prod.ext hok rfl, (h.replaceChildren_edits hp ids hlt).forest h⟩

/-- A replacement that is refused has put in place the names before the first that is refused. -/
theorem replaceChildren_eq_error {e : Error} (h : t.Forest) (hp : p < t.size)
    (hids : ∀ c ∈ ids, c < t.size) (herror : t.replaceChildren p ids = (.error e, t')) :
    ∃ before c after, ids = before ++ c :: after ∧ (c = root ∨ t.Above c p) ∧
      t.replaceChildren p before = (.ok (), t') := by
  obtain ⟨before, c, after, rfl, hbefore, hrefusal⟩ := attachAll_eq_error herror
  refine ⟨before, c, after, rfl, ?_, hbefore⟩
  have hlt : ∀ c ∈ before, c < (t.dropChildren p).size := by
    intro c hc
    rw [size_dropChildren]
    exact hids c (List.mem_append_left _ hc)
  have hdropped := h.dropChildren p
  have hforest : t'.Forest := by
    have hedits := hdropped.attachAll_edits (by simpa using hp) before hlt
    rw [hbefore] at hedits
    exact hedits.forest hdropped
  by_contra hallowed
  rw [not_or] at hallowed
  have hnone : t'.refusal? (some p) c = none := by
    refine hforest.refusal?_eq_none_iff.2 ⟨hallowed.1, fun q hq => ?_⟩
    rw [← Option.some.inj hq, hdropped.above_attachAll (by simpa using hp) hlt hbefore,
      h.above_dropChildren]
    exact hallowed.2
  rw [hnone] at hrefusal
  cases hrefusal

end Forest

/-- The substatements of a statement can be replaced by any statements but the root, the statement
itself and those above it. They are then its substatements, in the order of their last mention, and
have left the lists they were on; what was there and is not named has no parent; and nothing else
changes. Otherwise the names before the first that is refused have been put in place. Either way the
table is one that can be reached, so nothing is on two lists. -/
theorem replaceChildren_exact {outcome : Except Error Unit} (ht : t.Reachable) (hp : p < t.size)
    (hids : ∀ c ∈ ids, c < t.size) (hrun : t.replaceChildren p ids = (outcome, t')) :
    (outcome = .ok () ↔ ∀ c ∈ ids, c ≠ root ∧ ¬ t.Above c p) ∧
    (outcome = .ok () →
      t.Replaced p ids t' ∧ ∀ c ∈ t.children p, c ∉ ids → t'.parent? c = none) ∧
    (outcome ≠ .ok () → ∃ before c after, ids = before ++ c :: after ∧ (c = root ∨ t.Above c p) ∧
      t.Replaced p before t') ∧
    t'.Reachable ∧ t'.Forest ∧ ∀ c q q', t'.Lists q c → t'.Lists q' c → q = q' := by
  have h := ht.forest
  have hreachable : t'.Reachable := by
    have hedits := h.replaceChildren_edits hp ids hids
    rw [hrun] at hedits
    exact ht.edits hedits
  refine ⟨?_, ?_, ?_, hreachable, hreachable.forest, fun c q q' =>
    hreachable.forest.lists_unique⟩
  · rw [← h.replaceChildren_eq_ok_iff hp hids, hrun]
  · intro hok
    have hreplaced := h.replaced hp hids (hok ▸ hrun)
    exact ⟨hreplaced, fun c => hreplaced.parent?_eq_none⟩
  · intro hrefused
    cases outcome with
    | ok => exact absurd rfl hrefused
    | error e =>
      obtain ⟨before, c, after, rfl, hc, hbefore⟩ := h.replaceChildren_eq_error hp hids hrun
      refine ⟨before, c, after, rfl, hc, h.replaced hp (fun b hb => ?_) hbefore⟩
      exact hids b (List.mem_append_left _ hb)

/-- A container with a leaf, and a leaf beside it. -/
def withTwoLeaves : Tree :=
  ofStatement ⟨"module", some "m",
    [⟨"container", some "c", [⟨"leaf", some "x", []⟩]⟩, ⟨"leaf", some "y", []⟩]⟩

/-- The root takes the leaf of its container and, twice, the container; its own leaf has no place
then. The container takes that leaf, but not the root. -/
theorem replaceChildren_exact_leaves :
    withTwoLeaves.Reachable ∧
      (∃ t', withTwoLeaves.replaceChildren 0 [1, 2, 1] = (.ok (), t') ∧
        t'.children 0 = [2, 1] ∧ t'.children 1 = [] ∧ t'.parent? 3 = none ∧ t'.Forest) ∧
      ∃ e t', withTwoLeaves.replaceChildren 1 [3, 0, 2] = (.error e, t') ∧
        t'.children 1 = [3] ∧ t'.parent? 2 = none ∧ t'.Forest := by
  have ht : withTwoLeaves.Reachable := .ofStatement _
  have hids : (∀ c ∈ [1, 2, 1], c < withTwoLeaves.size) ∧
      ∀ c ∈ [3, 0, 2], c < withTwoLeaves.size := by decide
  have hroot := replaceChildren_exact (p := 0) ht (by decide) hids.1 rfl
  have hcontainer := replaceChildren_exact (p := 1) ht (by decide) hids.2 rfl
  refine ⟨ht, ⟨_, rfl, by decide, by decide, ?_, ?_⟩, _, _, rfl, by decide, by decide, ?_⟩
  · exact (hroot.2.1 rfl).2 3 (by decide) (by decide)
  · exact hroot.2.2.2.2.1
  · exact hcontainer.2.2.2.2.1

end YangDoc.Tree
