import Mathlib.Data.List.Dedup
import Mathlib.Data.List.Pairwise
import YangDoc.Proofs.Tree.Moves

/-!
# What lies below a statement

A statement spells out the same value in two tables when every row at and below it has the same
header and the same list in both. Moves change few lists, and they are spelled out here: what moves
leaves the list it was on and joins the end of the new one. So whatever moves keeps all that lies
below it, and so does every statement that nothing has moved out of or into.
-/

namespace YangDoc.Tree

open Relation

variable {t t' : Tree} {p q c x y a b : Nat}

/-! ### Rows below a statement -/

/-- The statement and all below it have the same headers and the same lists in both tables. -/
def SameBelow (t t' : Tree) (a : Nat) : Prop :=
  ∀ x, t.Above a x → t'.header x = t.header x ∧ t'.children x = t.children x

/-- Within a region that is closed under going down, a way down that uses old lists is an old
one. -/
theorem Above.of_closed {S : Nat → Prop} (hx : t'.Above a x)
    (hclosed : ∀ {q c}, S q → t.Lists q c → S c)
    (hsub : ∀ {q c}, S q → t'.Lists q c → t.Lists q c) (ha : S a) : t.Above a x ∧ S x := by
  induction hx with
  | refl => exact ⟨.refl, ha⟩
  | tail _ hstep ih =>
    have hold := hsub ih.2 hstep
    exact ⟨ih.1.tail hold, hclosed ih.2 hold⟩

theorem SameBelow.refl (t : Tree) (a : Nat) : t.SameBelow t a :=
  fun _ _ => ⟨rfl, rfl⟩

theorem SameBelow.above (h : t.SameBelow t' a) (hx : t'.Above a x) : t.Above a x := by
  refine (hx.of_closed (S := t.Above a) (fun hq hlist => hq.tail hlist) ?_ .refl).1
  intro q c hq hlist
  rwa [Lists, (h q hq).2] at hlist

theorem SameBelow.mono (h : t.SameBelow t' a) (hb : t.Above a b) : t.SameBelow t' b :=
  fun x hx => h x (hb.trans hx)

theorem SameBelow.holds {s : Statement} (h : t.SameBelow t' a) (hs : t.Holds a s) :
    t'.Holds a s := by
  refine hs.congr (S := t.Above a) (fun hq hlist => hq.tail hlist) ?_ .refl
  intro x hx
  obtain ⟨hheader, hchildren⟩ := h x hx
  exact ⟨congrArg Prod.fst hheader, congrArg Prod.snd hheader, hchildren⟩

theorem holdsAll_of_sameBelow {ids : List Nat} {ss : List Statement}
    (h : ∀ id ∈ ids, t.SameBelow t' id) (hs : t.HoldsAll ids ss) : t'.HoldsAll ids ss := by
  induction ss generalizing ids with
  | nil => exact hs
  | cons s rest ih =>
    obtain ⟨id, ids, rfl, hid, hrest⟩ := hs
    rw [List.forall_mem_cons] at h
    exact ⟨id, ids, rfl, h.1.holds hid, ih h.2 hrest⟩

namespace Forest

theorem above_lt_size (h : t.Forest) (hx : t.Above a x) (ha : a < t.size) : x < t.size :=
  hx.mem_of_closed (S := (· < t.size)) (fun _ hlist => h.listed_lt hlist) ha

theorem above_total (h : t.Forest) (ha : t.Above a x) (hb : t.Above b x) :
    t.Above a b ∨ t.Above b a := by
  induction ha with
  | refl => exact .inr hb
  | @tail y x hay hyx ih =>
    rcases above_cases hb with rfl | ⟨p, hpx, hbp⟩
    · exact .inl (hay.tail hyx)
    · exact ih (h.lists_unique hpx hyx ▸ hbp)

theorem not_lists_of_above (h : t.Forest) (hx : t.Above a x) : ¬ t.Lists x a := fun hlist =>
  h.acyclic a (TransGen.tail' hx hlist)

end Forest

/-! ### The value of a statement -/

theorem holdsAll_singleton {id : Nat} {s : Statement} : t.HoldsAll [id] [s] ↔ t.Holds id s := by
  constructor
  · rintro ⟨_, _, heq, hs, -⟩
    obtain ⟨rfl, -⟩ := List.cons.inj heq
    exact hs
  · exact fun hs => ⟨id, [], rfl, hs, rfl⟩

mutual

theorem Holds.unique : ∀ {id : Nat} {s s' : Statement}, t.Holds id s → t.Holds id s' → s = s'
  | _, ⟨k, a, cs⟩, ⟨k', a', cs'⟩, hs, hs' => by
    obtain ⟨rfl, rfl, hcs⟩ := hs
    obtain ⟨rfl, rfl, hcs'⟩ := hs'
    rw [HoldsAll.unique hcs hcs']

theorem HoldsAll.unique : ∀ {ids : List Nat} {ss ss' : List Statement}, t.HoldsAll ids ss →
    t.HoldsAll ids ss' → ss = ss'
  | _, [], [], _, _ => rfl
  | _, [], _ :: _, hs, hs' => by
    obtain ⟨id, ids, rfl, -, -⟩ := hs'
    cases hs
  | _, _ :: _, [], hs, hs' => by
    obtain ⟨id, ids, rfl, -, -⟩ := hs
    cases hs'
  | _, s :: rest, s' :: rest', hs, hs' => by
    obtain ⟨id, ids, rfl, hid, hids⟩ := hs
    obtain ⟨id', ids', heq, hid', hids'⟩ := hs'
    obtain ⟨rfl, rfl⟩ := List.cons.inj heq
    rw [hid.unique hid', hids.unique hids']

end

theorem Forest.snapshot_eq_of_holds {s : Statement} (h : t.Forest) (hs : t.Holds x s) :
    t.snapshot x = s :=
  (h.holds_snapshot x).unique hs

theorem Forest.snapshot_eq (h : t.Forest) (x : Nat) :
    t.snapshot x = ⟨t.keyword x, t.argument x, (t.children x).map t.snapshot⟩ :=
  h.snapshot_eq_of_holds ⟨rfl, rfl, holdsAll_map fun c _ => h.holds_snapshot c⟩

theorem SameBelow.snapshot_eq (hsame : t.SameBelow t' a) (h : t.Forest) (h' : t'.Forest) :
    t'.snapshot a = t.snapshot a :=
  h'.snapshot_eq_of_holds (hsame.holds (h.holds_snapshot a))

/-! ### Lists of another length -/

theorem Forest.children_eq_of_snapshot_eq (h : t.Forest) (h' : t'.Forest)
    (hlength : (t'.children x).length = (t.children x).length → t'.children x = t.children x)
    (heq : t'.snapshot x = t.snapshot x) :
    t'.children x = t.children x ∧ ∀ c ∈ t.children x, t'.snapshot c = t.snapshot c := by
  rw [h'.snapshot_eq x, h.snapshot_eq x, Statement.mk.injEq] at heq
  have hmap := heq.2.2
  have hsame := hlength (by simpa using congrArg List.length hmap)
  rw [hsame] at hmap
  exact ⟨hsame, List.map_inj_left.1 hmap⟩

/-- Where a list that has changed has another length, a statement keeps its value only if no list at
or below it has changed. -/
theorem Forest.snapshot_eq_iff_sameBelow (h : t.Forest) (h' : t'.Forest) (ha : a < t.size)
    (hlength : ∀ x, x < t.size → (t'.children x).length = (t.children x).length →
      t'.children x = t.children x) :
    t'.snapshot a = t.snapshot a ↔ t.SameBelow t' a := by
  constructor
  · intro heq
    have hbelow : ∀ x, t.Above a x → t'.snapshot x = t.snapshot x := by
      intro x hx
      induction hx with
      | refl => exact heq
      | tail hb hlist ih =>
        exact (h.children_eq_of_snapshot_eq h' (hlength _ hlist.lt_size) ih).2 _ hlist
    intro x hx
    have hsame := hbelow x hx
    have hlt := h.above_lt_size hx ha
    refine ⟨?_, (h.children_eq_of_snapshot_eq h' (hlength x hlt) hsame).1⟩
    rw [h'.snapshot_eq x, h.snapshot_eq x, Statement.mk.injEq] at hsame
    exact Prod.ext hsame.1 hsame.2.1
  · exact fun hsame => hsame.snapshot_eq h h'

/-! ### Lists after moves -/

namespace Forest

theorem children_attach (h : t.Forest) (hp : p < t.size) (hok : t.attach p c = .ok t') (x : Nat) :
    t'.children x = (t.children x).filter (· != c) ++ if x = p then [c] else [] := by
  obtain ⟨-, rfl⟩ := attach_eq_ok hok
  rw [children_link (by simpa using hp), h.children_detach, h.children_detach]
  by_cases hx : x = p
  · rw [if_pos hx, if_pos hx, hx]
  · rw [if_neg hx, if_neg hx, List.append_nil]

theorem children_attach_of_not_lists (h : t.Forest) (hp : p < t.size)
    (hok : t.attach p c = .ok t') (hx : ¬ t.Lists x c) :
    t'.children x = t.children x ++ if x = p then [c] else [] := by
  rw [h.children_attach hp hok, filter_of_not_lists hx]

/-- Statements that move under `p` leave the lists they were on; of one that is named more than
once the last mention counts. -/
theorem children_attachAll (h : t.Forest) (hp : p < t.size) {cs : List Nat}
    (hcs : ∀ c ∈ cs, c < t.size) (hok : t.attachAll p cs = (.ok (), t')) (x : Nat) :
    t'.children x = (t.children x).filter (· ∉ cs) ++ if x = p then cs.dedup else [] := by
  induction cs generalizing t with
  | nil =>
    obtain rfl : t = t' := congrArg Prod.snd hok
    simp
  | cons c cs ih =>
    rw [List.forall_mem_cons] at hcs
    obtain ⟨t₁, hc, hrest⟩ := attachAll_cons_eq_ok hok
    have hsize := size_attach hc
    have hmem : ∀ y, (y ∉ cs && y != c) = decide (y ∉ c :: cs) := by
      intro y
      by_cases hy : y = c <;> simp [hy]
    rw [ih (h.attach hp hcs.1 hc) (by omega) (fun y hy => hsize ▸ hcs.2 y hy) hrest,
      h.children_attach hp hc, List.filter_append, List.filter_filter, List.append_assoc]
    simp only [hmem]
    congr 1
    by_cases hx : x = p
    · simp only [if_pos hx]
      by_cases hlater : c ∈ cs
      · simp [hlater]
      · simp [hlater]
    · simp [hx]

/-- What is taken out of a list changes nothing below a statement from which that list cannot be
reached. -/
theorem sameBelow_detach (h : t.Forest) (hleft : ∀ q, t.Lists q c → ¬ t.Above x q) :
    t.SameBelow (t.detach c) x := by
  intro y hy
  refine ⟨header_detach t c y, ?_⟩
  rw [h.children_detach, filter_of_not_lists fun hlist => hleft y hlist hy]

/-- A move changes nothing below a statement from which neither the list that is joined nor the one
that is left can be reached. -/
theorem sameBelow_attach_of_not_above (h : t.Forest) (hp : p < t.size)
    (hok : t.attach p c = .ok t') (hjoined : ¬ t.Above x p)
    (hleft : ∀ q, t.Lists q c → ¬ t.Above x q) : t.SameBelow t' x := by
  intro y hy
  have hne : y ≠ p := fun heq => hjoined (heq ▸ hy)
  refine ⟨header_attach hok y, ?_⟩
  rw [h.children_attach_of_not_lists hp hok fun hlist => hleft y hlist hy, if_neg hne,
    List.append_nil]

theorem sameBelow_attach (h : t.Forest) (hp : p < t.size) (hok : t.attach p c = .ok t') :
    t.SameBelow t' c := by
  have hallowed := (h.refusal?_eq_none_iff.1 (attach_eq_ok hok).1).2 p rfl
  refine h.sameBelow_attach_of_not_above hp hok hallowed fun q hlist habove => ?_
  exact h.not_lists_of_above habove hlist

end Forest

/-! ### Assembling a statement -/

/-- Nothing lies below both statements. -/
def Apart (t : Tree) (a b : Nat) : Prop :=
  ∀ x, t.Above a x → ¬ t.Above b x

instance : Std.Symm t.Apart :=
  ⟨fun _ _ h x hb ha => h x ha hb⟩

theorem Apart.ne (h : t.Apart a b) : a ≠ b := by
  rintro rfl
  exact h a .refl .refl

theorem nodup_of_apart {ids : List Nat} (h : ids.Pairwise t.Apart) : ids.Nodup :=
  h.imp Apart.ne

/-- What the table holds once `id`, a statement on no list, has been given a header and the
statements `ids` in place of those it had. -/
structure Assembled (t : Tree) (k : String) (a : Option String) (ids : List Nat) (id : Nat)
    (t' : Tree) : Prop where
  header_eq : t'.header id = (k, a)
  header_of_ne : ∀ x, x < t.size → x ≠ id → t'.header x = t.header x
  children_eq : t'.children id = ids.dedup
  children_of_ne : ∀ x, x ≠ id → t'.children x = (t.children x).filter (· ∉ ids)
  unlisted : ∀ q, ¬ t.Lists q id
  not_mem : id ∉ ids

section Assembled

variable {k : String} {arg : Option String} {parent : Option Nat} {ids : List Nat} {id : Nat}

theorem Forest.assembled_root (h : t.Forest) (hk : Keyword.isRoot k = true)
    (hids : ∀ c ∈ ids, c < t.size) (hok : t.assemble k arg parent ids = (.ok id, t')) :
    id = root ∧ t.Assembled k arg ids id t' := by
  unfold Tree.assemble at hok
  rw [if_pos hk] at hok
  dsimp only [replaceChildren] at hok
  obtain ⟨hmoves, rfl⟩ := map_const_eq_ok (congrArg Prod.fst hok)
  have htable := congrArg Prod.snd hok
  have hforest := (h.rename root k arg).dropChildren root
  have hall : ((t.rename root k arg).dropChildren root).attachAll root ids = (.ok (), t') :=
    Prod.ext hmoves htable
  have hheader := header_attachAll ((t.rename root k arg).dropChildren root) root ids
  rw [hall] at hheader
  have hchildren := hforest.children_attachAll hforest.root_lt (by simpa using hids) hall
  refine ⟨rfl, ⟨?_, ?_, ?_, ?_, h.not_lists_root, ?_⟩⟩
  · rw [hheader, header_dropChildren, header_rename t root k arg h.root_lt]
  · intro x _ hx
    rw [hheader, header_dropChildren, header_rename_of_ne t root k arg x hx]
  · rw [hchildren, if_pos rfl, children_dropChildren, if_pos rfl]
    rfl
  · intro x hx
    rw [hchildren, if_neg hx, children_dropChildren, if_neg hx, children_rename, List.append_nil]
  · exact fun hmem => ne_root_of_attachAll hmoves root hmem rfl

theorem Forest.assembled_new (h : t.Forest) (hk : Keyword.isRoot k = false)
    (hids : ∀ c ∈ ids, c < t.size) (hok : t.assemble k arg parent ids = (.ok id, t')) :
    id = t.size ∧ t.Assembled k arg ids id t' := by
  unfold Tree.assemble at hok
  rw [hk, if_neg Bool.false_ne_true] at hok
  dsimp only [push_snd] at hok
  obtain ⟨hmoves, rfl⟩ := map_const_eq_ok (congrArg Prod.fst hok)
  have htable := congrArg Prod.snd hok
  have hfree : ∀ q, ¬ (t.push k arg).1.Lists q t.size := by
    intro q hq
    rw [Lists, children_push] at hq
    exact h.not_lists_size q hq
  have hforest := (h.push k arg).setParent hfree parent
  have hsize : ((t.push k arg).1.setParent t.size parent).size = t.size + 1 := by simp
  have hall : ((t.push k arg).1.setParent t.size parent).attachAll t.size ids = (.ok (), t') :=
    Prod.ext hmoves htable
  have hheader := header_attachAll ((t.push k arg).1.setParent t.size parent) t.size ids
  rw [hall] at hheader
  have hchildren := hforest.children_attachAll (p := t.size) (by omega) (fun c hc => by
    have := hids c hc
    omega) hall
  refine ⟨rfl, ⟨?_, ?_, ?_, ?_, h.not_lists_size, ?_⟩⟩
  · rw [hheader, header_setParent, header_push, if_pos rfl]
  · intro x hx hne
    rw [hheader, header_setParent, header_push, if_neg hne]
  · rw [hchildren, if_pos rfl, children_setParent, children_push, children_of_size_le le_rfl]
    rfl
  · intro x hx
    rw [hchildren, if_neg hx, children_setParent, children_push, List.append_nil]
  · exact fun hmem => Nat.lt_irrefl _ (hids t.size hmem)

namespace Assembled

theorem not_above (h : t.Assembled k arg ids id t') (hc : c ∈ ids) : ¬ t.Above c id := by
  rw [above_of_not_lists h.unlisted]
  rintro rfl
  exact h.not_mem hc

/-- The statements that were assembled keep all that lies below them, provided that none of them
lies below another. -/
theorem sameBelow (h : t.Assembled k arg ids id t') (ht : t.Forest)
    (hids : ∀ c ∈ ids, c < t.size) (hapart : ids.Pairwise t.Apart) :
    ∀ c ∈ ids, t.SameBelow t' c := by
  intro c hc x hx
  have hne : x ≠ id := fun heq => h.not_above hc (heq ▸ hx)
  refine ⟨h.header_of_ne x (ht.above_lt_size hx (hids c hc)) hne, ?_⟩
  rw [h.children_of_ne x hne, List.filter_eq_self]
  intro y hy
  rw [decide_eq_true_eq]
  intro hmem
  by_cases heq : c = y
  · exact ht.not_lists_of_above hx (heq ▸ hy)
  · exact hapart.forall hc hmem heq y (hx.tail hy) .refl

theorem children_of_apart (h : t.Assembled k arg ids id t') (hapart : ids.Pairwise t.Apart) :
    t'.children id = ids := by
  rw [h.children_eq, (nodup_of_apart hapart).dedup]

theorem holds {ss : List Statement} (h : t.Assembled k arg ids id t') (ht : t.Forest)
    (hids : ∀ c ∈ ids, c < t.size) (hapart : ids.Pairwise t.Apart) (hss : t.HoldsAll ids ss) :
    t'.Holds id ⟨k, arg, ss⟩ := by
  refine ⟨congrArg Prod.fst h.header_eq, congrArg Prod.snd h.header_eq, ?_⟩
  rw [h.children_of_apart hapart]
  exact holdsAll_of_sameBelow (h.sameBelow ht hids hapart) hss

end Assembled

end Assembled

end YangDoc.Tree
