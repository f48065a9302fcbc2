import YangDoc.Proofs.Tree.Below

/-!
# Recorded parents and moves

A move takes a statement off the list of the parent that it records, and no other list is looked at.
A parent can also be recorded without a move, for any statement. If the statement is on a list and
another parent is recorded for it, the next move does not find that list: the statement then stays
on it and joins another one, or joins the same one a second time.

This is the only way. A statement that is on no list but that of its recorded parent is called
settled here. All operations keep it settled, whatever parents are recorded for other statements,
except for recording for itself a parent other than the one that lists it. And a move of a statement
leaves it on one list only, and there once, exactly if it was settled.

Recorded parents can be made to run in a circle of rows that list each other, and `Worked` contains
the tables where they do. From such a row the way upward has no end, and the search for a statement
above it is left after as many steps as there are rows. This only adds moves: what is said here is
said of every move that is made, and uses nothing of why it was not refused.
-/

namespace YangDoc.Tree

variable {t t' : Tree} {b c p q x : Nat}

/-! ### Operations in any order -/

inductive Operation where
  | push (keyword : String) (argument : Option String)
  | plant (s : Statement)
  | record (x : NodeId) (parent : Option NodeId)
  | attach (parent child : NodeId)
  | detach (child : NodeId)
  | replaceChildren (parent : NodeId) (children : List NodeId)

namespace Operation

/-- The table after the operation. A move that is refused leaves it as it was. -/
def run (t : Tree) : Operation → Tree
  | push keyword argument => (t.push keyword argument).1
  | plant s => (t.plant s).1
  | record x parent => t.setParent x parent
  | attach parent child => (t.attachAll parent [child]).2
  | detach child => t.detach child
  | replaceChildren parent children => (t.replaceChildren parent children).2

def ids : Operation → List NodeId
  | push .. | plant _ => []
  | record x parent => x :: parent.toList
  | attach parent child => [parent, child]
  | detach child => [child]
  | replaceChildren parent children => parent :: children

/-- The operation records for `c` another parent than one that lists it. -/
def Strays (t : Tree) (c : NodeId) : Operation → Prop
  | record x parent => x = c ∧ ∃ q, t.Lists q c ∧ parent ≠ some q
  | _ => False

end Operation

/-- The tables that come about from a document to start with, by operations that a rule allows. -/
inductive Worked (allowed : Tree → Operation → Prop) : Tree → Prop where
  | new (source keyword : String) : Worked allowed (Tree.new source keyword)
  | ofStatement (top : Statement) : Worked allowed (Tree.ofStatement top)
  | step {t : Tree} (ht : Worked allowed t) (op : Operation) (hids : ∀ x ∈ op.ids, x < t.size)
      (hop : allowed t op) : Worked allowed (op.run t)

/-! ### Settled statements -/

/-- The statement is on no list but that of the parent it records. -/
structure Settled (t : Tree) (c : Nat) : Prop where
  /-- What is listed is in the table. -/
  listed_lt : ∀ {q x : Nat}, t.Lists q x → x < t.size
  recorded_eq : ∀ {q : Nat}, t.Lists q c → t.recorded c = some q

theorem Forest.settled (h : t.Forest) (c : Nat) : t.Settled c :=
  ⟨h.listed_lt, h.recorded_eq⟩

theorem lists_detach_of_ne (hx : x ≠ c) : (t.detach c).Lists q x ↔ t.Lists q x := by
  rw [Lists, children_detach]
  split
  · rw [List.mem_filter, bne_iff_ne]
    exact and_iff_left hx
  · rfl

theorem lists_detach_self : (t.detach c).Lists q c ↔ t.Lists q c ∧ t.recorded c ≠ some q := by
  rw [Lists, children_detach]
  split
  · rename_i hrecorded
    simp [hrecorded]
  · rename_i hrecorded
    simp [hrecorded, Lists]

theorem recorded_setParent (hx : x ≠ root) (hlt : x < t.size) (parent : Option Nat) :
    (t.setParent x parent).recorded x = parent := by
  rw [setParent, if_neg hx, recorded, row_modify, if_pos ⟨rfl, hlt⟩]

namespace Settled

theorem push (h : t.Settled c) (k : String) (a : Option String) : (t.push k a).1.Settled c := by
  refine ⟨fun {q x} hlist => ?_, fun {q} hlist => ?_⟩
  · rw [Lists, children_push] at hlist
    rw [size_push]
    exact (h.listed_lt hlist).trans (Nat.lt_succ_self _)
  · rw [Lists, children_push] at hlist
    rw [recorded_push]
    exact h.recorded_eq hlist

/-- Any statement may join a list, but the one in question only if it is on none. -/
theorem link (h : t.Settled c) (hp : p < t.size) (hb : b < t.size)
    (hfree : b = c → ∀ q, ¬ t.Lists q c) : (t.link p b).Settled c := by
  refine ⟨fun {q x} hlist => ?_, fun {q} hlist => ?_⟩
  · rw [size_link]
    rcases (Forest.lists_link hp).1 hlist with hold | ⟨-, rfl⟩
    · exact h.listed_lt hold
    · exact hb
  · rw [recorded_link hb]
    rcases (Forest.lists_link hp).1 hlist with hold | ⟨rfl, rfl⟩
    · rw [if_neg fun heq => hfree heq.symm q hold]
      exact h.recorded_eq hold
    · exact if_pos rfl

mutual

theorem plant : ∀ {t : Tree}, t.Settled c → ∀ s : Statement, (t.plant s).1.Settled c
  | t, h, ⟨k, a, cs⟩ => (h.push k a).plantAll (by simp) cs

theorem plantAll : ∀ {t : Tree}, t.Settled c → ∀ {p : Nat}, p < t.size → ∀ ss : List Statement,
    (t.plantAll p ss).Settled c
  | _, h, _, _, [] => h
  | t, h, p, hp, s :: rest => by
    have hsize := (planted t s).size_eq
    have hpos := s.size_pos
    have hlinked : ((t.plant s).1.link p t.size).Settled c := by
      refine (h.plant s).link (by omega) (by omega) fun heq => ?_
      rw [← heq]
      exact (planted t s).not_lists h.listed_lt
    rw [plantAll_cons]
    exact hlinked.plantAll (by rw [size_link]; omega) rest

end

theorem record (h : t.Settled c) (hx : x < t.size) (parent : Option Nat)
    (hkept : x = c → ∀ q, t.Lists q c → parent = some q) : (t.setParent x parent).Settled c := by
  refine ⟨fun {q y} hlist => ?_, fun {q} hlist => ?_⟩
  · rw [Lists, children_setParent] at hlist
    rw [size_setParent]
    exact h.listed_lt hlist
  · rw [Lists, children_setParent] at hlist
    by_cases hroot : x = root
    · rw [setParent, if_pos hroot]
      exact h.recorded_eq hlist
    · by_cases heq : x = c
      · rw [← heq, recorded_setParent hroot hx]
        exact hkept heq q hlist
      · rw [recorded_setParent_of_ne t x parent c (Ne.symm heq)]
        exact h.recorded_eq hlist

theorem not_lists_detach (h : t.Settled c) (q : Nat) : ¬ (t.detach c).Lists q c := by
  intro hlist
  rw [lists_detach_self] at hlist
  exact hlist.2 (h.recorded_eq hlist.1)

theorem detach (h : t.Settled c) (b : Nat) : (t.detach b).Settled c := by
  have hold : ∀ {q x}, (t.detach b).Lists q x → t.Lists q x := by
    intro q x hlist
    by_cases hx : x = b
    · subst hx
      exact (lists_detach_self.1 hlist).1
    · exact (lists_detach_of_ne hx).1 hlist
  refine ⟨fun {q x} hlist => ?_, fun {q} hlist => ?_⟩
  · rw [size_detach]
    exact h.listed_lt (hold hlist)
  · have hne : c ≠ b := by
      intro heq
      subst heq
      exact h.not_lists_detach q hlist
    rw [recorded_detach, if_neg hne]
    exact h.recorded_eq (hold hlist)

theorem attach (h : t.Settled c) (hp : p < t.size) (hb : b < t.size)
    (hok : t.attach p b = .ok t') : t'.Settled c := by
  obtain ⟨-, rfl⟩ := attach_eq_ok hok
  refine (h.detach b).link (by simpa using hp) (by simpa using hb) fun heq => ?_
  subst heq
  exact h.not_lists_detach

theorem attachAll (h : t.Settled c) (hp : p < t.size) {cs : List Nat}
    (hcs : ∀ b ∈ cs, b < t.size) : (t.attachAll p cs).2.Settled c := by
  induction cs generalizing t with
  | nil => exact h
  | cons b cs ih =>
    rw [List.forall_mem_cons] at hcs
    rw [Tree.attachAll]
    cases hok : t.attach p b with
    | error e => exact h
    | ok t₁ =>
      have hsize := size_attach hok
      exact ih (h.attach hp hcs.1 hok) (hsize ▸ hp) fun y hy => hsize ▸ hcs.2 y hy

theorem dropChildren (h : t.Settled c) (p : Nat) : (t.dropChildren p).Settled c := by
  refine ⟨fun {q x} hlist => ?_, fun {q} hlist => ?_⟩
  · rw [size_dropChildren]
    exact h.listed_lt (Forest.lists_dropChildren.1 hlist).1
  · obtain ⟨hold, hne⟩ := Forest.lists_dropChildren.1 hlist
    have hrecorded := h.recorded_eq hold
    have hnot : c ∉ t.children p := by
      intro hmem
      rw [h.recorded_eq hmem] at hrecorded
      exact hne (Option.some.inj hrecorded).symm
    rw [recorded_dropChildren, if_neg hnot]
    exact hrecorded

/-- One operation, one case for each kind. -/
theorem run (h : t.Settled c) (op : Operation) (hids : ∀ x ∈ op.ids, x < t.size)
    (hop : ¬ op.Strays t c) : (op.run t).Settled c := by
  cases op with
  | push k a => exact h.push k a
  | plant s => exact h.plant s
  | record x parent =>
    refine h.record (hids x List.mem_cons_self) parent fun heq q hlist => ?_
    by_contra hother
    exact hop ⟨heq, q, hlist, hother⟩
  | attach p b =>
    refine h.attachAll (hids p List.mem_cons_self) fun y hy => ?_
    exact hids y (List.mem_cons_of_mem p hy)
  | detach b => exact h.detach b
  | replaceChildren p cs =>
    refine (h.dropChildren p).attachAll ?_ fun y hy => ?_
    · rw [size_dropChildren]
      exact hids p List.mem_cons_self
    · rw [size_dropChildren]
      exact hids y (List.mem_cons_of_mem p hy)

end Settled

/-- A statement for which no other parent was ever recorded while it was on a list is settled. -/
theorem Worked.settled {allowed : Tree → Operation → Prop} (ht : t.Worked allowed)
    (hallowed : ∀ u op, allowed u op → ¬ op.Strays u c) : t.Settled c := by
  induction ht with
  | new source keyword => exact (forest_new source keyword).settled c
  | ofStatement top => exact (forest_ofStatement top).settled c
  | step _ op hids hop ih => exact ih.run op hids (hallowed _ op hop)

/-! ### What a move leaves -/

/-- `c` is on the list of `p` and on no other, and it is there once. -/
structure ListedOnce (t : Tree) (p c : Nat) : Prop where
  eq_of_lists : ∀ q, t.Lists q c → q = p
  count_eq : (t.children p).count c = 1

theorem listedOnce_link_iff (hp : p < t.size) :
    (t.link p c).ListedOnce p c ↔ ∀ q, ¬ t.Lists q c := by
  have hcount : ((t.link p c).children p).count c = (t.children p).count c + 1 := by
    rw [children_link hp, if_pos rfl, List.count_append, List.count_singleton_self]
  constructor
  · intro honce q hlist
    have hjoined : q = p := honce.eq_of_lists q ((Forest.lists_link hp).2 (.inl hlist))
    have hpos : 0 < (t.children p).count c := List.count_pos_iff.2 (hjoined ▸ hlist)
    have hone := honce.count_eq
    omega
  · intro hfree
    refine ⟨fun q hlist => ?_, ?_⟩
    · rcases (Forest.lists_link hp).1 hlist with hold | ⟨hq, -⟩
      · exact absurd hold (hfree q)
      · exact hq
    · rw [hcount, List.count_eq_zero_of_not_mem (hfree p)]

theorem listedOnce_attach_iff (hp : p < t.size) (hok : t.attach p c = .ok t') :
    t'.ListedOnce p c ↔ ∀ q, t.Lists q c → t.recorded c = some q := by
  obtain ⟨-, rfl⟩ := attach_eq_ok hok
  rw [listedOnce_link_iff (by simpa using hp)]
  refine forall_congr' fun q => ?_
  rw [lists_detach_self, not_and, not_not]

/-- Whatever was done to a table before, a move leaves the statement on one list only, and there
once, exactly if the statement was on no list but that of its recorded parent. That is so whenever
none of the operations recorded another parent for it while it was on a list; and after an operation
that does, no move leaves it on one list. -/
theorem attached_once {allowed : Tree → Operation → Prop} (ht : t.Worked allowed)
    (hp : p < t.size) (hc : c < t.size) (hok : t.attach p c = .ok t') :
    (t'.ListedOnce p c ↔ ∀ q, t.Lists q c → t.recorded c = some q) ∧
    ((∀ u op, allowed u op → ¬ op.Strays u c) → t'.ListedOnce p c) ∧
    ∀ (op : Operation) (q : Nat) (u : Tree), op.Strays t c → q < t.size →
      (op.run t).attach q c = .ok u → ¬ u.ListedOnce q c := by
  have hiff := listedOnce_attach_iff hp hok
  refine ⟨hiff, fun hallowed => ?_, ?_⟩
  · exact hiff.2 fun q => (ht.settled hallowed).recorded_eq
  · intro op q u hstrays hq hmoved
    cases op with
    | record x parent =>
      obtain ⟨rfl, r, hlist, hother⟩ := hstrays
      have hsize : q < (t.setParent x parent).size := by rwa [size_setParent]
      rw [listedOnce_attach_iff hsize hmoved]
      intro hsettled
      have hlisted : (t.setParent x parent).Lists r x := by rwa [Lists, children_setParent]
      have hrecorded := hsettled r hlisted
      rw [recorded_setParent (ne_root_of_attach hok) hc] at hrecorded
      exact hother hrecorded
    | _ => exact absurd hstrays id

/-- Two containers, the first with a leaf. -/
def withTwoContainers : Tree :=
  ofStatement ⟨"module", some "m",
    [⟨"container", some "a", [⟨"leaf", some "l", []⟩]⟩, ⟨"container", some "b", []⟩]⟩

/-- That another parent was recorded for the second container does no harm to the leaf that moves
there. -/
theorem attached_once_stray :
    let t := withTwoContainers.setParent 3 (some 1)
    t.Worked (fun u op => ¬ op.Strays u 2) ∧ t.recorded 3 = some 1 ∧ t.children 0 = [1, 3] ∧
      ∃ t', t.attach 3 2 = .ok t' ∧ t'.ListedOnce 3 2 := by
  intro t
  have ht : t.Worked fun u op => ¬ op.Strays u 2 := by
    refine (Worked.ofStatement _).step (.record 3 (some 1)) (by decide) fun hstrays => ?_
    exact absurd hstrays.1 (by decide)
  refine ⟨ht, by decide, by decide, _, rfl, ?_⟩
  exact (attached_once ht (by decide) (by decide) rfl).2.1 fun _ _ hop => hop

/-- The leaf stays in the first container when it moves to the second, which was recorded as its
parent before. -/
theorem listed_on_two_lists :
    let t := withTwoContainers.setParent 2 (some 3)
    t.Worked (fun _ _ => True) ∧ ∃ t', t.attach 3 2 = .ok t' ∧ t'.children 1 = [2] ∧
      t'.children 3 = [2] ∧ ¬ t'.ListedOnce 3 2 := by
  intro t
  refine ⟨(Worked.ofStatement _).step (.record 2 (some 3)) (by decide) trivial, _, rfl, by decide,
    by decide, fun honce => ?_⟩
  have hsame : 1 = 3 := honce.eq_of_lists 1 (by rw [Lists]; decide)
  omega

end YangDoc.Tree
