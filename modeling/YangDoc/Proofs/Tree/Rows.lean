import Mathlib.Tactic.Common
import YangDoc.Tree.Move

/-!
# Rows after an operation

An operation on a table changes single rows or adds a row at the end. This module says, operation
by operation, what a row holds afterwards: its keyword and argument, the list of its
substatements and the parent it records. The rest of the theory reaches the table only through
these facts, so nothing elsewhere depends on how rows are stored.
-/

namespace YangDoc.Tree

/-- The parent that a statement records, whether or not that parent lists it. -/
def recorded (t : Tree) (id : NodeId) : Option NodeId :=
  (t.row id).parent

def header (t : Tree) (id : NodeId) : String × Option String :=
  (t.keyword id, t.argument id)

theorem row_of_size_le {t : Tree} {x : Nat} (hx : t.size ≤ x) : t.row x = default := by
  have hnone : t.rows[x]? = none := Array.getElem?_eq_none hx
  rw [row, hnone, Option.getD_none]

theorem children_of_size_le {t : Tree} {x : Nat} (hx : t.size ≤ x) : t.children x = [] := by
  rw [children, row_of_size_le hx]
  rfl

theorem recorded_of_size_le {t : Tree} {x : Nat} (hx : t.size ≤ x) : t.recorded x = none := by
  rw [recorded, row_of_size_le hx]
  rfl

theorem lt_size_of_mem_children {t : Tree} {p c : Nat} (hc : c ∈ t.children p) : p < t.size := by
  by_contra hp
  rw [children_of_size_le (by omega)] at hc
  simp at hc

theorem parent?_eq_some_iff {t : Tree} {p c : Nat} :
    t.parent? c = some p ↔ t.recorded c = some p ∧ c ∈ t.children p := by
  simp [parent?, recorded, Option.filter_eq_some_iff]

/-! ### Changing one row -/

section Modify

variable (t : Tree) (id : Nat) (f : Row → Row) (x : Nat)

@[simp] theorem size_modify : (t.modify id f).size = t.size := by
  simp [modify, size]

theorem row_modify :
    (t.modify id f).row x = if id = x ∧ x < t.size then f (t.row x) else t.row x := by
  by_cases hx : x < t.rows.size
  · by_cases hid : id = x
    · simp [modify, row, size, hid, hx, Array.getElem_modify]
    · simp [modify, row, size, Array.getElem?_modify, hid]
  · have hnone : t.rows[x]? = none := Array.getElem?_eq_none (by omega)
    simp [modify, row, size, hx]

/-- A change that leaves a part of every row alone leaves it alone in the table. -/
theorem row_modify_of_eq {α : Type} (part : Row → α) (hf : ∀ r, part (f r) = part r) :
    part ((t.modify id f).row x) = part (t.row x) := by
  rw [row_modify]
  split
  · exact hf _
  · rfl

theorem header_modify (hf : ∀ r : Row, (f r).keyword = r.keyword ∧ (f r).argument = r.argument) :
    (t.modify id f).header x = t.header x :=
  row_modify_of_eq t id f x (fun r => (r.keyword, r.argument)) fun r => by rw [(hf r).1, (hf r).2]

/-- A change that does nothing to a part of the empty row reaches that part also where the table
has no row. -/
theorem row_modify_of_default {α : Type} (part : Row → α) (hf : part (f default) = part default) :
    part ((t.modify id f).row x) = if x = id then part (f (t.row x)) else part (t.row x) := by
  rw [row_modify]
  by_cases hx : x = id
  · by_cases hsize : x < t.size
    · rw [if_pos ⟨hx.symm, hsize⟩, if_pos hx]
    · rw [if_neg (fun h => hsize h.2), if_pos hx, row_of_size_le (by omega), hf]
  · rw [if_neg (fun h => hx h.1.symm), if_neg hx]

end Modify

/-! ### A new row -/

section Push

variable (t : Tree) (k : String) (a : Option String) (x : Nat)

@[simp] theorem size_push : (t.push k a).1.size = t.size + 1 := by
  simp [push, size]

@[simp] theorem push_snd : (t.push k a).2 = t.size :=
  rfl

theorem row_push :
    (t.push k a).1.row x = if x = t.size then { keyword := k, argument := a } else t.row x := by
  by_cases hx : x = t.size
  · simp [push, row, size, hx]
  · have hne : ¬ x = t.rows.size := hx
    simp [push, row, size, Array.getElem?_push, hne]

@[simp] theorem children_push : (t.push k a).1.children x = t.children x := by
  by_cases hx : x = t.size
  · rw [children_of_size_le (by omega : t.size ≤ x), children, row_push, if_pos hx]
  · rw [children, children, row_push, if_neg hx]

@[simp] theorem recorded_push : (t.push k a).1.recorded x = t.recorded x := by
  by_cases hx : x = t.size
  · rw [recorded_of_size_le (by omega : t.size ≤ x), recorded, row_push, if_pos hx]
  · rw [recorded, recorded, row_push, if_neg hx]

theorem header_push : (t.push k a).1.header x = if x = t.size then (k, a) else t.header x := by
  rw [header, keyword, argument, row_push]
  split <;> rfl

end Push

/-! ### Overwriting and recording -/

section Rename

variable (t : Tree) (id : Nat) (k : String) (a : Option String) (x : Nat)

@[simp] theorem size_rename : (t.rename id k a).size = t.size := by
  simp [rename]

@[simp] theorem children_rename : (t.rename id k a).children x = t.children x :=
  row_modify_of_eq t id _ x Row.children fun _ => rfl

@[simp] theorem recorded_rename : (t.rename id k a).recorded x = t.recorded x :=
  row_modify_of_eq t id _ x Row.parent fun _ => rfl

theorem header_rename (hid : id < t.size) : (t.rename id k a).header id = (k, a) := by
  rw [header, keyword, argument, rename, row_modify, if_pos ⟨rfl, hid⟩]

theorem header_rename_of_ne (hx : x ≠ id) : (t.rename id k a).header x = t.header x := by
  rw [header, keyword, argument, rename, row_modify, if_neg fun h => hx h.1.symm]
  rfl

end Rename

section SetParent

variable (t : Tree) (id : Nat) (parent : Option NodeId) (x : Nat)

@[simp] theorem size_setParent : (t.setParent id parent).size = t.size := by
  unfold setParent
  split <;> simp

@[simp] theorem children_setParent : (t.setParent id parent).children x = t.children x := by
  unfold setParent
  split
  · rfl
  · exact row_modify_of_eq t id _ x Row.children fun _ => rfl

@[simp] theorem header_setParent : (t.setParent id parent).header x = t.header x := by
  unfold setParent
  split
  · rfl
  · exact header_modify t id _ x fun _ => ⟨rfl, rfl⟩

theorem recorded_setParent_of_ne (hx : x ≠ id) :
    (t.setParent id parent).recorded x = t.recorded x := by
  unfold setParent
  split
  · rfl
  · rw [recorded, recorded, row_modify, if_neg (by tauto)]

theorem recorded_setParent_root :
    (t.setParent id parent).recorded root = t.recorded root := by
  by_cases hid : id = root
  · rw [setParent, if_pos hid]
  · exact recorded_setParent_of_ne t id parent root (Ne.symm hid)

end SetParent

/-! ### Listing and leaving a list -/

section Link

variable {t : Tree} {p c : Nat}

@[simp] theorem size_link : (t.link p c).size = t.size := by
  simp [link]

private theorem part_link {α : Type} (part : Row → α) (x : Nat)
    (hlist : ∀ r : Row, part { r with children := r.children ++ [c] } = part r)
    (hparent : ∀ r : Row, part { r with parent := some p } = part r) :
    part ((t.link p c).row x) = part (t.row x) := by
  rw [link, row_modify_of_eq _ _ _ _ part hparent, row_modify_of_eq _ _ _ _ part hlist]

@[simp] theorem keyword_link (x : Nat) : (t.link p c).keyword x = t.keyword x :=
  part_link Row.keyword x (fun _ => rfl) (fun _ => rfl)

@[simp] theorem argument_link (x : Nat) : (t.link p c).argument x = t.argument x :=
  part_link Row.argument x (fun _ => rfl) (fun _ => rfl)

@[simp] theorem header_link (x : Nat) : (t.link p c).header x = t.header x := by
  rw [header, keyword_link, argument_link, header]

theorem row_link_of_ne {x : Nat} (hp : x ≠ p) (hc : x ≠ c) : (t.link p c).row x = t.row x := by
  rw [link, row_modify, if_neg (fun h => hc h.1.symm), row_modify,
    if_neg (fun h => hp h.1.symm)]

theorem children_link (hp : p < t.size) (x : Nat) :
    (t.link p c).children x = if x = p then t.children p ++ [c] else t.children x := by
  have hchild : (t.link p c).children x =
      ((t.modify p fun r => { r with children := r.children ++ [c] }).row x).children :=
    row_modify_of_eq _ c _ x Row.children fun _ => rfl
  rw [hchild, row_modify]
  by_cases hx : x = p
  · rw [if_pos ⟨hx.symm, by omega⟩, if_pos hx, hx]
    rfl
  · rw [if_neg (fun h => hx h.1.symm), if_neg hx]
    rfl

theorem children_link_of_size_le (hp : t.size ≤ p) (x : Nat) :
    (t.link p c).children x = t.children x := by
  have hchild : (t.link p c).children x =
      ((t.modify p fun r => { r with children := r.children ++ [c] }).row x).children :=
    row_modify_of_eq _ c _ x Row.children fun _ => rfl
  rw [hchild, row_modify, if_neg (by omega)]
  rfl

theorem recorded_link (hc : c < t.size) (x : Nat) :
    (t.link p c).recorded x = if x = c then some p else t.recorded x := by
  have hsame : ((t.modify p fun r => { r with children := r.children ++ [c] }).row x).parent =
      t.recorded x :=
    row_modify_of_eq t p _ x Row.parent fun _ => rfl
  rw [recorded, link, row_modify, size_modify]
  by_cases hx : x = c
  · rw [if_pos ⟨hx.symm, by omega⟩, if_pos hx]
  · rw [if_neg (fun h => hx h.1.symm), if_neg hx, hsame]

end Link

section Detach

variable (t : Tree) (c x : Nat)

@[simp] theorem size_detach : (t.detach c).size = t.size := by
  unfold detach
  dsimp only
  split <;> simp

theorem source_detach : (t.detach c).source = t.source := by
  unfold detach
  dsimp only
  split <;> rfl

theorem children_detach :
    (t.detach c).children x =
      if t.recorded c = some x then (t.children x).filter (· != c) else t.children x := by
  have hforget : ∀ u : Tree,
      ((u.modify c fun r => { r with parent := none }).row x).children = (u.row x).children :=
    fun u => row_modify_of_eq u c _ x Row.children fun _ => rfl
  rw [children, detach, hforget, recorded]
  cases hp : (t.row c).parent with
  | none => rfl
  | some p =>
    refine (row_modify_of_default t p _ x Row.children rfl).trans ?_
    by_cases hx : x = p
    · rw [if_pos hx, if_pos (by rw [hx])]
      rfl
    · rw [if_neg hx, if_neg (fun h => hx (Option.some.inj h).symm)]
      rfl

theorem recorded_detach :
    (t.detach c).recorded x = if x = c then none else t.recorded x := by
  have hkeep : ∀ (u : Tree) (p : Nat), (u.modify p fun r =>
      { r with children := r.children.filter (· != c) }).recorded x = u.recorded x :=
    fun u p => row_modify_of_eq u p _ x Row.parent fun _ => rfl
  have hforget : ∀ u : Tree, u.recorded x = t.recorded x →
      (u.modify c fun r => { r with parent := none }).recorded x =
        if x = c then none else t.recorded x := by
    intro u hu
    rw [← hu]
    exact row_modify_of_default u c _ x Row.parent rfl
  unfold detach
  dsimp only
  split
  · exact hforget t rfl
  · exact hforget _ (hkeep t _)

@[simp] theorem header_detach : (t.detach c).header x = t.header x := by
  have hkeep : ∀ p : Nat, (t.modify p fun r =>
      { r with children := r.children.filter (· != c) }).header x = t.header x :=
    fun p => header_modify t p _ x fun _ => ⟨rfl, rfl⟩
  have hforget : ∀ u : Tree, (u.modify c fun r => { r with parent := none }).header x = u.header x :=
    fun u => header_modify u c _ x fun _ => ⟨rfl, rfl⟩
  unfold detach
  dsimp only
  split
  · exact hforget t
  · exact (hforget _).trans (hkeep _)

end Detach

section DropChildren

variable (t : Tree) (p x : Nat)

private theorem foldl_forget (cs : List Nat) (u : Tree) :
    let v := cs.foldl (fun t c => t.modify c fun r => { r with parent := none }) u
    v.size = u.size ∧ v.header x = u.header x ∧ v.children x = u.children x ∧
      v.recorded x = if x ∈ cs then none else u.recorded x := by
  induction cs generalizing u with
  | nil => simp
  | cons c cs ih =>
    obtain ⟨hsize, hheader, hchildren, hrecorded⟩ :=
      ih (u.modify c fun r => { r with parent := none })
    have hsame : (u.modify c fun r => { r with parent := none }).header x = u.header x :=
      header_modify u c _ x fun _ => ⟨rfl, rfl⟩
    have hlist : (u.modify c fun r => { r with parent := none }).children x = u.children x :=
      row_modify_of_eq u c _ x Row.children fun _ => rfl
    have hforget : (u.modify c fun r => { r with parent := none }).recorded x =
        if x = c then none else u.recorded x :=
      row_modify_of_default u c _ x Row.parent rfl
    refine ⟨hsize.trans (size_modify ..), hheader.trans hsame, hchildren.trans hlist,
      hrecorded.trans ?_⟩
    rw [hforget]
    by_cases hx : x = c
    · simp [hx]
    · simp [hx]

@[simp] theorem size_dropChildren : (t.dropChildren p).size = t.size :=
  (foldl_forget p (t.children p) _).1.trans (size_modify ..)

theorem source_dropChildren : (t.dropChildren p).source = t.source := by
  unfold dropChildren
  apply List.foldlRecOn (motive := fun u : Tree => u.source = t.source)
  · rfl
  · intro u hu c _
    exact hu

@[simp] theorem header_dropChildren : (t.dropChildren p).header x = t.header x :=
  (foldl_forget x (t.children p) _).2.1.trans (header_modify t p _ x fun _ => ⟨rfl, rfl⟩)

theorem children_dropChildren :
    (t.dropChildren p).children x = if x = p then [] else t.children x :=
  (foldl_forget x (t.children p) _).2.2.1.trans (row_modify_of_default t p _ x Row.children rfl)

theorem recorded_dropChildren :
    (t.dropChildren p).recorded x = if x ∈ t.children p then none else t.recorded x := by
  refine (foldl_forget x (t.children p) _).2.2.2.trans ?_
  have hsame : (t.modify p fun r => { r with children := [] }).recorded x = t.recorded x :=
    row_modify_of_eq t p _ x Row.parent fun _ => rfl
  rw [hsame]

end DropChildren

end YangDoc.Tree
