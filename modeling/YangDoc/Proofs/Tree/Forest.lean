import Mathlib.Data.Finset.Card
import Mathlib.Logic.Relation
import YangDoc.Proofs.Tree.Rows

/-!
# Tables that are forests

The rows of a document form a forest: whatever is listed is in the table and records the parent
that lists it, no list repeats a statement, the root has no parent, and no chain of lists comes
back to where it started. A recorded parent need not list the statement, so the forest is that of
the lists; under these conditions the parent that counts is the one that lists.

Every operation keeps the forest. Most only shorten lists. The one that lengthens a list is
`link`, and it keeps the forest exactly because a move beneath itself is refused beforehand.
-/

namespace YangDoc.Tree

open Relation

/-- `c` is a substatement of `p`. -/
def Lists (t : Tree) (p c : Nat) : Prop :=
  c ∈ t.children p

/-- `a` is `x` itself or one of its ancestors. -/
def Above (t : Tree) (a x : Nat) : Prop :=
  ReflTransGen t.Lists a x

structure Forest (t : Tree) : Prop where
  /-- The root is in the table. -/
  root_lt : root < t.size
  /-- What is listed is in the table. -/
  listed_lt : ∀ {p c : Nat}, t.Lists p c → c < t.size
  /-- What is listed records the parent that lists it. -/
  recorded_eq : ∀ {p c : Nat}, t.Lists p c → t.recorded c = some p
  /-- No list repeats a statement. -/
  nodup : ∀ p : Nat, (t.children p).Nodup
  /-- The root records no parent. -/
  root_recorded : t.recorded root = none
  /-- Nothing lies beneath itself. -/
  acyclic : ∀ x : Nat, ¬ TransGen t.Lists x x

variable {t t' : Tree} {p q c x a : Nat}

theorem Lists.lt_size (h : t.Lists p c) : p < t.size :=
  lt_size_of_mem_children h

theorem filter_of_not_lists (hx : ¬ t.Lists x c) :
    (t.children x).filter (· != c) = t.children x := by
  rw [List.filter_eq_self]
  intro y hy
  rw [bne_iff_ne]
  intro heq
  exact hx (heq ▸ hy)

namespace Forest

/-! ### What a forest says about parents -/

theorem not_lists_root (h : t.Forest) (p : Nat) : ¬ t.Lists p root := by
  intro hlist
  have hrecorded := h.recorded_eq hlist
  rw [h.root_recorded] at hrecorded
  simp at hrecorded

theorem lists_unique (h : t.Forest) (hp : t.Lists p c) (hq : t.Lists q c) : p = q :=
  Option.some.inj ((h.recorded_eq hp).symm.trans (h.recorded_eq hq))

theorem parent?_eq_some (h : t.Forest) : t.parent? c = some p ↔ t.Lists p c := by
  rw [parent?_eq_some_iff]
  exact ⟨fun hc => hc.2, fun hc => ⟨h.recorded_eq hc, hc⟩⟩

theorem parent?_eq_none (h : t.Forest) : t.parent? c = none ↔ ∀ p, ¬ t.Lists p c := by
  rw [Option.eq_none_iff_forall_ne_some]
  exact forall_congr' fun p => not_congr h.parent?_eq_some

end Forest

/-! ### Ranks

Without cycles the statements above a statement can be counted, and the count grows from parent to
child. It is at most the size of the table, which is why that many steps upward are enough. Counting
the statements below instead does the same for the way down. -/

/-- A relation without cycles among finitely many numbers is ranked by counting what lies before. -/
theorem exists_rank {n : Nat} {r : Nat → Nat → Prop} (hbound : ∀ {a b}, r a b → a < n)
    (hacyclic : ∀ x, ¬ TransGen r x x) :
    ∃ rank : Nat → Nat, (∀ {a b}, r a b → rank a < rank b) ∧ ∀ x, rank x ≤ n := by
  classical
  let before : Nat → Finset Nat := fun x => (Finset.range n).filter fun a => TransGen r a x
  refine ⟨fun x => (before x).card, ?_, ?_⟩
  · intro a b hab
    apply Finset.card_lt_card
    refine Finset.ssubset_iff_subset_ne.2 ⟨?_, fun heq => ?_⟩
    · intro y hy
      simp only [before, Finset.mem_filter] at hy ⊢
      exact ⟨hy.1, hy.2.tail hab⟩
    · have ha : a ∈ before b := by
        simp only [before, Finset.mem_filter, Finset.mem_range]
        exact ⟨hbound hab, .single hab⟩
      rw [← heq] at ha
      exact hacyclic a (Finset.mem_filter.1 ha).2
  · intro x
    exact (Finset.card_filter_le _ _).trans (Finset.card_range n).le

theorem Forest.exists_depth (h : t.Forest) :
    ∃ depth : Nat → Nat, (∀ {p c}, t.Lists p c → depth p < depth c) ∧ ∀ x, depth x ≤ t.size :=
  exists_rank Lists.lt_size h.acyclic

/-- Height above the lowest descendant, bounded by the size of the table. -/
theorem Forest.exists_height (h : t.Forest) :
    ∃ height : Nat → Nat, (∀ {p c}, t.Lists p c → height c < height p) ∧
      ∀ x, height x ≤ t.size := by
  have hacyclic : ∀ x, ¬ TransGen (Function.swap t.Lists) x x := fun x hx =>
    h.acyclic x (transGen_swap.1 hx)
  obtain ⟨height, hlt, hle⟩ := exists_rank (r := Function.swap t.Lists) h.listed_lt hacyclic
  exact ⟨height, fun hlist => hlt hlist, hle⟩

/-- What holds of a statement if it holds of all its substatements holds of every statement. -/
@[elab_as_elim]
theorem Forest.induction_below (h : t.Forest) {motive : Nat → Prop}
    (step : ∀ x, (∀ c, t.Lists x c → motive c) → motive x) (x : Nat) : motive x := by
  obtain ⟨height, hlt, -⟩ := h.exists_height
  induction hheight : height x using Nat.strong_induction_on generalizing x with
  | _ n ih =>
    apply step
    intro c hlist
    exact ih (height c) (hheight ▸ hlt hlist) c rfl

/-! ### Looking upward -/

theorem above_cases (hx : t.Above a x) : x = a ∨ ∃ p, t.Lists p x ∧ t.Above a p := by
  rcases ReflTransGen.cases_tail hx with heq | ⟨p, hap, hpx⟩
  · exact .inl heq
  · exact .inr ⟨p, hpx, hap⟩

/-- The upward search is exact once it has as many steps as the statement is deep. -/
theorem isAncestorWithin_iff (h : t.Forest) {depth : Nat → Nat}
    (hdepth : ∀ {p c}, t.Lists p c → depth p < depth c) (fuel : Nat) :
    ∀ x, depth x ≤ fuel → (t.isAncestorWithin a fuel x = true ↔ t.Above a x) := by
  induction fuel with
  | zero =>
    intro x hx
    rw [isAncestorWithin, beq_iff_eq]
    refine ⟨fun heq => heq ▸ .refl, fun habove => ?_⟩
    rcases above_cases habove with heq | ⟨p, hpx, -⟩
    · exact heq
    · have := hdepth hpx
      omega
  | succ fuel ih =>
    intro x hx
    rw [isAncestorWithin, Bool.or_eq_true, beq_iff_eq]
    cases hparent : t.parent? x with
    | none =>
      rw [h.parent?_eq_none] at hparent
      simp only [Bool.false_eq_true, or_false]
      refine ⟨fun heq => heq ▸ .refl, fun habove => ?_⟩
      rcases above_cases habove with heq | ⟨p, hpx, -⟩
      · exact heq
      · exact absurd hpx (hparent p)
    | some p =>
      rw [h.parent?_eq_some] at hparent
      have hp := hdepth hparent
      dsimp only
      rw [ih p (by omega)]
      constructor
      · rintro (rfl | habove)
        · exact .refl
        · exact habove.tail hparent
      · intro habove
        rcases above_cases habove with heq | ⟨q, hqx, haq⟩
        · exact .inl heq
        · exact .inr (h.lists_unique hqx hparent ▸ haq)

theorem Forest.isAncestor_iff (h : t.Forest) : t.isAncestor a x = true ↔ t.Above a x := by
  obtain ⟨depth, hlt, hle⟩ := h.exists_depth
  exact isAncestorWithin_iff h hlt t.size x (hle x)

theorem Forest.refusal?_eq_none_iff (h : t.Forest) {parent : Option Nat} :
    t.refusal? parent c = none ↔ c ≠ root ∧ ∀ p, parent = some p → ¬ t.Above c p := by
  unfold refusal?
  by_cases hroot : c = root
  · simp [hroot]
  · rw [if_neg hroot]
    cases parent with
    | none => simp [hroot]
    | some p =>
      have hiff := h.isAncestor_iff (a := c) (x := p)
      by_cases habove : t.Above c p
      · simp [hiff.2 habove, habove]
      · have hfalse : t.isAncestor c p = false := by
          rw [← Bool.not_eq_true, hiff]
          exact habove
        simp [hfalse, hroot, habove]

/-- Ancestors stay what they are when everything above the statement stays on its list. -/
theorem above_congr
    (hsame : ∀ y, t.Above y x → ∀ q, t'.Lists q y ↔ t.Lists q y) :
    t'.Above a x ↔ t.Above a x := by
  constructor
  · intro habove
    induction habove using ReflTransGen.head_induction_on with
    | refl => exact .refl
    | head hstep _ ih => exact ih.head ((hsame _ ih _).1 hstep)
  · intro habove
    induction habove using ReflTransGen.head_induction_on with
    | refl => exact .refl
    | head hstep hrest ih => exact ih.head ((hsame _ hrest _).2 hstep)

theorem above_of_not_lists (hx : ∀ q, ¬ t.Lists q x) : t.Above a x ↔ a = x := by
  refine ⟨fun habove => ?_, fun heq => heq ▸ .refl⟩
  rcases above_cases habove with heq | ⟨q, hqx, -⟩
  · exact heq.symm
  · exact absurd hqx (hx q)

/-! ### Operations that only shorten lists -/

namespace Forest

theorem of_sublist (h : t.Forest) (hsize : t.size ≤ t'.size)
    (hsub : ∀ p : Nat, (t'.children p).Sublist (t.children p))
    (hrecorded : ∀ {p c : Nat}, t'.Lists p c → t'.recorded c = t.recorded c)
    (hroot : t'.recorded root = none) : t'.Forest := by
  have hlists : ∀ p c, t'.Lists p c → t.Lists p c := fun p c hc => (hsub p).subset hc
  refine ⟨Nat.lt_of_lt_of_le h.root_lt hsize, ?_, ?_, ?_, hroot, ?_⟩
  · intro p c hc
    exact Nat.lt_of_lt_of_le (h.listed_lt (hlists p c hc)) hsize
  · intro p c hc
    rw [hrecorded hc]
    exact h.recorded_eq (hlists p c hc)
  · intro p
    exact (h.nodup p).sublist (hsub p)
  · intro x hx
    exact h.acyclic x (TransGen.mono hlists x x hx)

theorem push (h : t.Forest) (k : String) (a : Option String) : (t.push k a).1.Forest := by
  refine h.of_sublist (by simp) (fun p => ?_) (fun _ => recorded_push ..) ?_
  · rw [children_push]
  · rw [recorded_push]
    exact h.root_recorded

theorem rename (h : t.Forest) (id : Nat) (k : String) (a : Option String) :
    (t.rename id k a).Forest := by
  refine h.of_sublist (by simp) (fun p => ?_) (fun _ => recorded_rename ..) ?_
  · rw [children_rename]
  · rw [recorded_rename]
    exact h.root_recorded

theorem setParent (h : t.Forest) (hx : ∀ q, ¬ t.Lists q x) (parent : Option Nat) :
    (t.setParent x parent).Forest := by
  refine h.of_sublist (by simp) (fun p => ?_) (fun {p c} hc => ?_) ?_
  · rw [children_setParent]
  · have hlist : t.Lists p c := by
      rwa [Lists, children_setParent] at hc
    exact recorded_setParent_of_ne t x parent c fun heq => hx p (heq ▸ hlist)
  · rw [recorded_setParent_root]
    exact h.root_recorded

theorem children_detach (h : t.Forest) (c x : Nat) :
    (t.detach c).children x = (t.children x).filter (· != c) := by
  rw [Tree.children_detach]
  split
  · rfl
  · rename_i hne
    exact (filter_of_not_lists fun hlist => hne (h.recorded_eq hlist)).symm

theorem lists_detach (h : t.Forest) : (t.detach c).Lists q x ↔ t.Lists q x ∧ x ≠ c := by
  rw [Lists, h.children_detach, List.mem_filter, bne_iff_ne]
  rfl

theorem detach (h : t.Forest) (c : Nat) : (t.detach c).Forest := by
  refine h.of_sublist (by simp) (fun p => ?_) (fun {p x} hx => ?_) ?_
  · rw [h.children_detach]
    exact List.filter_sublist
  · rw [recorded_detach, if_neg (h.lists_detach.1 hx).2]
  · rw [recorded_detach, h.root_recorded, ite_self]

theorem lists_dropChildren : (t.dropChildren p).Lists q x ↔ t.Lists q x ∧ q ≠ p := by
  rw [Lists, children_dropChildren]
  by_cases hq : q = p
  · simp [hq]
  · simp [hq, Lists]

theorem dropChildren (h : t.Forest) (p : Nat) : (t.dropChildren p).Forest := by
  refine h.of_sublist (by simp) (fun q => ?_) (fun {q x} hx => ?_) ?_
  · rw [children_dropChildren]
    split
    · exact List.nil_sublist _
    · exact List.Sublist.refl _
  · obtain ⟨hlist, hq⟩ := lists_dropChildren.1 hx
    have hnot : x ∉ t.children p := fun hp => hq (h.lists_unique hlist hp)
    rw [recorded_dropChildren, if_neg hnot]
  · rw [recorded_dropChildren, h.root_recorded, ite_self]

/-! ### Joining a list -/

/-- A chain after a new edge is a chain before it, or goes through the edge. -/
private theorem transGen_of_new_edge {r r' : Nat → Nat → Prop}
    (hedge : ∀ {a b}, r' a b → r a b ∨ (a = p ∧ b = c)) (hx : TransGen r' x a) :
    TransGen r x a ∨ (ReflTransGen r x p ∧ ReflTransGen r c a) := by
  induction hx with
  | single hstep =>
    rcases hedge hstep with hold | ⟨rfl, rfl⟩
    · exact .inl (.single hold)
    · exact .inr ⟨.refl, .refl⟩
  | tail _ hstep ih =>
    rcases hedge hstep with hold | ⟨rfl, rfl⟩
    · rcases ih with ih | ⟨hxp, hcb⟩
      · exact .inl (ih.tail hold)
      · exact .inr ⟨hxp, hcb.tail hold⟩
    · rcases ih with ih | ⟨hxp, -⟩
      · exact .inr ⟨ih.to_reflTransGen, .refl⟩
      · exact .inr ⟨hxp, .refl⟩

theorem lists_link (hp : p < t.size) : (t.link p c).Lists q x ↔ t.Lists q x ∨ (q = p ∧ x = c) := by
  rw [Lists, children_link hp]
  by_cases hq : q = p
  · subst hq
    simp [Lists]
  · simp [hq, Lists]

theorem link (h : t.Forest) (hp : p < t.size) (hc : c < t.size) (hroot : c ≠ root)
    (hfree : ∀ q, ¬ t.Lists q c) (hbelow : ¬ t.Above c p) : (t.link p c).Forest := by
  refine ⟨by simpa using h.root_lt, ?_, ?_, ?_, ?_, ?_⟩
  · intro q x hx
    rw [size_link]
    rcases (lists_link hp).1 hx with hold | ⟨-, rfl⟩
    · exact h.listed_lt hold
    · exact hc
  · intro q x hx
    rw [recorded_link hc]
    rcases (lists_link hp).1 hx with hold | ⟨rfl, rfl⟩
    · have hne : x ≠ c := fun heq => hfree q (heq ▸ hold)
      rw [if_neg hne, h.recorded_eq hold]
    · rw [if_pos rfl]
  · intro q
    rw [children_link hp]
    split
    · refine List.nodup_append.2 ⟨h.nodup p, List.nodup_singleton c, ?_⟩
      intro y hy z hz heq
      rw [List.mem_singleton] at hz
      exact hfree p (hz ▸ heq ▸ hy)
    · exact h.nodup q
  · rw [recorded_link hc, if_neg (Ne.symm hroot)]
    exact h.root_recorded
  · intro x hx
    rcases transGen_of_new_edge (fun hstep => (lists_link hp).1 hstep) hx with hold | ⟨hxp, hcx⟩
    · exact h.acyclic x hold
    · exact hbelow (hcx.trans hxp)

end Forest

/-! ### Moving -/

theorem attach_eq_ok (hok : t.attach p c = .ok t') :
    t.refusal? (some p) c = none ∧ t' = (t.detach c).link p c := by
  unfold attach at hok
  split at hok
  · simp at hok
  · rename_i hnone
    exact ⟨hnone, (Except.ok.inj hok).symm⟩

namespace Forest

theorem lists_attach (h : t.Forest) (hp : p < t.size) (hok : t.attach p c = .ok t') :
    t'.Lists q x ↔ (t.Lists q x ∧ x ≠ c) ∨ (q = p ∧ x = c) := by
  obtain ⟨-, rfl⟩ := attach_eq_ok hok
  rw [lists_link (by simpa using hp), h.lists_detach]

theorem attach (h : t.Forest) (hp : p < t.size) (hc : c < t.size)
    (hok : t.attach p c = .ok t') : t'.Forest := by
  obtain ⟨hallowed, rfl⟩ := attach_eq_ok hok
  obtain ⟨hroot, hbelow⟩ := h.refusal?_eq_none_iff.1 hallowed
  refine (h.detach c).link (by simpa using hp) (by simpa using hc) hroot ?_ ?_
  · intro q hq
    exact (h.lists_detach.1 hq).2 rfl
  · intro habove
    exact hbelow p rfl (ReflTransGen.mono (fun q x hx => (h.lists_detach.1 hx).1) c p habove)

end Forest

theorem size_attach (hok : t.attach p c = .ok t') : t'.size = t.size := by
  obtain ⟨-, rfl⟩ := attach_eq_ok hok
  simp

theorem header_attach (hok : t.attach p c = .ok t') (x : Nat) : t'.header x = t.header x := by
  rw [(attach_eq_ok hok).2, header_link, header_detach]

theorem recorded_attach (hc : c < t.size) (hok : t.attach p c = .ok t') (x : Nat) :
    t'.recorded x = if x = c then some p else t.recorded x := by
  rw [(attach_eq_ok hok).2, recorded_link (by rwa [size_detach]), recorded_detach]
  split
  · rfl
  · rfl

theorem source_attach (hok : t.attach p c = .ok t') : t'.source = t.source := by
  rw [(attach_eq_ok hok).2]
  exact source_detach t c

end YangDoc.Tree
