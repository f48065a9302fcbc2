import YangDoc.Proofs.Tree.Plant

/-!
# Edits of a table

The elementary changes that a table undergoes: a new row, a planted statement, a recorded parent,
an overwritten header, a move, a removal, an emptied list. Whatever is built is built by a sequence
of these, so what each of them keeps is kept by all of building. Rows are never removed, and a
forest stays one.
-/

namespace YangDoc.Tree

open Relation

inductive Edit (t : Tree) : Tree → Prop where
  | push (k : String) (a : Option String) : Edit t (t.push k a).1
  | plant (s : Statement) : Edit t (t.plant s).1
  | record (x : Nat) (parent : Option Nat) (hfree : ∀ q, ¬ t.Lists q x) :
      Edit t (t.setParent x parent)
  | rename (x : Nat) (k : String) (a : Option String) : Edit t (t.rename x k a)
  | attach {t' : Tree} (p c : Nat) (hp : p < t.size) (hc : c < t.size)
      (hok : t.attach p c = .ok t') : Edit t t'
  | detach (c : Nat) : Edit t (t.detach c)
  | dropChildren (p : Nat) : Edit t (t.dropChildren p)

def Edits : Tree → Tree → Prop :=
  ReflTransGen Edit

variable {t t' : Tree} {p : Nat}

theorem Edit.forest (hedit : t.Edit t') (h : t.Forest) : t'.Forest := by
  cases hedit with
  | push k a => exact h.push k a
  | plant s => exact (planted t s).forest h
  | record x parent hfree => exact h.setParent hfree parent
  | rename x k a => exact h.rename x k a
  | attach p c hp hc hok => exact h.attach hp hc hok
  | detach c => exact h.detach c
  | dropChildren p => exact h.dropChildren p

theorem Edit.size_le (hedit : t.Edit t') : t.size ≤ t'.size := by
  cases hedit with
  | push k a => simp
  | plant s =>
    have := (planted t s).size_eq
    omega
  | record x parent _ => simp
  | rename x k a => simp
  | attach p c _ _ hok => exact (size_attach hok).ge
  | detach c => simp
  | dropChildren p => simp

theorem Edits.forest (hedits : t.Edits t') (h : t.Forest) : t'.Forest := by
  induction hedits with
  | refl => exact h
  | tail _ hedit ih => exact hedit.forest ih

/-- The tables that come about from a document to start with, by changes in any order. -/
inductive Reachable : Tree → Prop where
  | new (source keyword : String) : Reachable (Tree.new source keyword)
  | ofStatement (top : Statement) : Reachable (Tree.ofStatement top)
  | edit {t t' : Tree} (ht : Reachable t) (hedit : t.Edit t') : Reachable t'

theorem Reachable.forest (ht : t.Reachable) : t.Forest := by
  induction ht with
  | new source keyword => exact forest_new source keyword
  | ofStatement top => exact forest_ofStatement top
  | edit _ hedit ih => exact hedit.forest ih

theorem Reachable.edits (ht : t.Reachable) (hedits : t.Edits t') : t'.Reachable := by
  induction hedits with
  | refl => exact ht
  | tail _ hedit ih => exact ih.edit hedit

theorem size_attachAll (t : Tree) (p : Nat) (cs : List Nat) :
    (t.attachAll p cs).2.size = t.size := by
  induction cs generalizing t with
  | nil => rfl
  | cons c cs ih =>
    rw [attachAll]
    cases hok : t.attach p c with
    | error e => rfl
    | ok t₁ => exact (ih t₁).trans (size_attach hok)

theorem Forest.attachAll_edits (h : t.Forest) (hp : p < t.size) (cs : List Nat)
    (hcs : ∀ c : Nat, c ∈ cs → c < t.size) : t.Edits (t.attachAll p cs).2 := by
  induction cs generalizing t with
  | nil => exact .refl
  | cons c cs ih =>
    rw [attachAll]
    cases hok : t.attach p c with
    | error e => exact .refl
    | ok t₁ =>
      have hc : c < t.size := hcs c List.mem_cons_self
      have hsize := size_attach hok
      have hrest := ih (h.attach hp hc hok) (by omega) fun x hx => by
        have := hcs x (List.mem_cons_of_mem c hx)
        omega
      exact hrest.head (.attach p c hp hc hok)

theorem Forest.replaceChildren_edits (h : t.Forest) (hp : p < t.size) (cs : List Nat)
    (hcs : ∀ c : Nat, c ∈ cs → c < t.size) : t.Edits (t.replaceChildren p cs).2 := by
  have hmoves := (h.dropChildren p).attachAll_edits (by simpa using hp) cs (by simpa using hcs)
  exact hmoves.head (.dropChildren p)

theorem Forest.not_lists_size (h : t.Forest) (q : Nat) : ¬ t.Lists q t.size := fun hlist =>
  Nat.lt_irrefl _ (h.listed_lt hlist)

end YangDoc.Tree
