import YangDoc.Construction
import YangDoc.Proofs.Tree.Edits

/-!
# Moves that succeed

A move is judged by the ancestors of its target, and a move that is allowed changes no ancestor of
its target: what moves does not lie above it. So several moves under one target can all be judged
before the first of them is made.
-/

namespace YangDoc.Tree

open Relation

variable {t t' u : Tree} {p c x : Nat}

/-- The statement is on the same list in both tables, or on none in both. -/
def SamePlace (t t' : Tree) (x : Nat) : Prop :=
  ∀ q, t'.Lists q x ↔ t.Lists q x

theorem SamePlace.trans (h : t.SamePlace t' x) (h' : t'.SamePlace u x) : t.SamePlace u x :=
  fun q => (h' q).trans (h q)

theorem Planted.samePlace {s : Statement} (h : Planted t s t') (hx : x < t.size) :
    t.SamePlace t' x := by
  intro q
  by_cases hq : q < t.size
  · rw [Lists, Lists, children, children, h.row_eq q hq]
  · refine ⟨fun hlist => ?_, fun hlist => absurd hlist.lt_size hq⟩
    have := (h.fresh (by omega) hlist).1
    omega

theorem Above.lt_size {a : Nat} (h : t.Above a x) (hx : x < t.size) : a < t.size := by
  rcases ReflTransGen.cases_head h with rfl | ⟨b, hab, -⟩
  · exact hx
  · exact hab.lt_size

theorem Forest.above_attach {a : Nat} (h : t.Forest) (hp : p < t.size)
    (hok : t.attach p c = .ok t') : t'.Above a p ↔ t.Above a p := by
  have hallowed := (h.refusal?_eq_none_iff.1 (attach_eq_ok hok).1).2 p rfl
  apply above_congr
  intro y hy q
  have hne : y ≠ c := fun heq => hallowed (heq ▸ hy)
  rw [h.lists_attach hp hok]
  simp [hne]

theorem Forest.attachAll_ok (h : t.Forest) (hp : p < t.size) (cs : List Nat)
    (hcs : ∀ c : Nat, c ∈ cs → c < t.size ∧ c ≠ root ∧ ¬ t.Above c p) :
    ∃ t', t.attachAll p cs = (.ok (), t') ∧ ∀ x, x ∉ cs → t.SamePlace t' x := by
  induction cs generalizing t with
  | nil => exact ⟨t, rfl, fun _ _ _ => .rfl⟩
  | cons c cs ih =>
    obtain ⟨hc, hroot, hbelow⟩ := hcs c List.mem_cons_self
    have hallowed : t.refusal? (some p) c = none := by
      refine h.refusal?_eq_none_iff.2 ⟨hroot, fun q hq => ?_⟩
      exact Option.some.inj hq ▸ hbelow
    have hok : t.attach p c = .ok ((t.detach c).link p c) := by
      rw [Tree.attach, hallowed]
    have hsize := size_attach hok
    obtain ⟨t', hrest, hplace⟩ := ih (h.attach hp hc hok) (by omega) fun x hx => by
      obtain ⟨hx, hxroot, hxbelow⟩ := hcs x (List.mem_cons_of_mem c hx)
      rw [h.above_attach hp hok]
      exact ⟨by omega, hxroot, hxbelow⟩
    refine ⟨t', ?_, fun x hx => ?_⟩
    · rw [Tree.attachAll, hok]
      exact hrest
    · rw [List.mem_cons, not_or] at hx
      refine SamePlace.trans (fun q => ?_) (hplace x hx.2)
      rw [h.lists_attach hp hok]
      simp [hx.1]

theorem header_attachAll (t : Tree) (p : Nat) (cs : List Nat) (x : Nat) :
    (t.attachAll p cs).2.header x = t.header x := by
  induction cs generalizing t with
  | nil => rfl
  | cons c cs ih =>
    rw [attachAll]
    cases hok : t.attach p c with
    | error e => rfl
    | ok t₁ => exact (ih t₁).trans (header_attach hok x)

theorem source_attachAll (t : Tree) (p : Nat) (cs : List Nat) :
    (t.attachAll p cs).2.source = t.source := by
  induction cs generalizing t with
  | nil => rfl
  | cons c cs ih =>
    rw [attachAll]
    cases hok : t.attach p c with
    | error e => rfl
    | ok t₁ => exact (ih t₁).trans (source_attach hok)

theorem attachAll_cons_eq_ok {cs : List Nat} (hok : t.attachAll p (c :: cs) = (.ok (), t')) :
    ∃ t₁, t.attach p c = .ok t₁ ∧ t₁.attachAll p cs = (.ok (), t') := by
  rw [attachAll] at hok
  cases hc : t.attach p c with
  | error e =>
    rw [hc] at hok
    simp at hok
  | ok t₁ =>
    rw [hc] at hok
    exact ⟨t₁, rfl, hok⟩

theorem recorded_attachAll {cs : List Nat} (hcs : ∀ c ∈ cs, c < t.size)
    (hok : t.attachAll p cs = (.ok (), t')) (x : Nat) :
    t'.recorded x = if x ∈ cs then some p else t.recorded x := by
  induction cs generalizing t with
  | nil =>
    obtain rfl : t = t' := congrArg Prod.snd hok
    simp
  | cons c cs ih =>
    rw [List.forall_mem_cons] at hcs
    obtain ⟨t₁, hc, hrest⟩ := attachAll_cons_eq_ok hok
    have hsize := size_attach hc
    rw [ih (fun y hy => hsize ▸ hcs.2 y hy) hrest, recorded_attach hcs.1 hc]
    by_cases hlater : x ∈ cs
    · simp [hlater]
    · simp [hlater]

theorem ne_root_of_attach (hok : t.attach p c = .ok t') : c ≠ root := by
  intro hroot
  have hallowed := (attach_eq_ok hok).1
  rw [refusal?, if_pos hroot] at hallowed
  cases hallowed

theorem ne_root_of_attachAll {cs : List Nat} (hok : (t.attachAll p cs).1 = .ok ()) :
    ∀ c ∈ cs, c ≠ root := by
  induction cs generalizing t with
  | nil => simp
  | cons c cs ih =>
    have hall : t.attachAll p (c :: cs) = (.ok (), (t.attachAll p (c :: cs)).2) :=
      Prod.ext hok rfl
    obtain ⟨t₁, hc, hrest⟩ := attachAll_cons_eq_ok hall
    rw [List.forall_mem_cons]
    exact ⟨ne_root_of_attach hc, ih (congrArg Prod.fst hrest)⟩

/-! ### Assembling a statement -/

theorem map_const_eq_ok {r : Except Error Unit} {x id : Nat}
    (h : r.map (fun _ => x) = .ok id) : r = .ok () ∧ x = id := by
  cases r with
  | error e => simp [Except.map] at h
  | ok u => exact ⟨rfl, Except.ok.inj h⟩

variable {k : String} {a : Option String} {parent : Option Nat} {ids : List Nat}

/-- A new statement takes any statements but the root. It is on no list itself, and nothing else
changes its place. -/
theorem Forest.assemble_ok (h : t.Forest) (hk : Keyword.isRoot k = false) (a : Option String)
    (parent : Option Nat) (hids : ∀ c : Nat, c ∈ ids → c < t.size ∧ c ≠ root) :
    ∃ t', t.assemble k a parent ids = (.ok t.size, t') ∧ ∀ x, x ∉ ids → t.SamePlace t' x := by
  have hlists : ∀ q x, ((t.push k a).1.setParent t.size parent).Lists q x ↔ t.Lists q x := by
    intro q x
    rw [Lists, children_setParent, children_push, Lists]
  have hsize : ((t.push k a).1.setParent t.size parent).size = t.size + 1 := by simp
  have hfree : ∀ q, ¬ (t.push k a).1.Lists q t.size := by
    intro q hq
    rw [Lists, children_push] at hq
    exact h.not_lists_size q hq
  have hforest := (h.push k a).setParent hfree parent
  obtain ⟨t', hok, hplace⟩ := hforest.attachAll_ok (p := t.size) (by omega) ids (by
    intro c hc
    obtain ⟨hlt, hroot⟩ := hids c hc
    refine ⟨by omega, hroot, ?_⟩
    rw [above_of_not_lists fun q => (hlists q _).not.2 (h.not_lists_size q)]
    omega)
  refine ⟨t', ?_, fun x hx => ?_⟩
  · unfold Tree.assemble
    rw [hk]
    dsimp only [push_snd]
    rw [if_neg Bool.false_ne_true, hok]
    rfl
  · exact SamePlace.trans (fun q => hlists q x) (hplace x hx)

/-- The root takes any statements but itself in place of those it has, and a new header. -/
theorem Forest.assemble_root_ok (h : t.Forest) (hk : Keyword.isRoot k = true)
    (a : Option String) (parent : Option Nat) (hids : ∀ c : Nat, c ∈ ids → c < t.size ∧ c ≠ root) :
    ∃ t', t.assemble k a parent ids = (.ok root, t') ∧ t'.header root = (k, a) := by
  have hforest := (h.rename root k a).dropChildren root
  obtain ⟨t', hok, -⟩ := hforest.attachAll_ok hforest.root_lt ids (by
    intro c hc
    obtain ⟨hlt, hroot⟩ := hids c hc
    refine ⟨by simpa using hlt, hroot, ?_⟩
    rw [above_of_not_lists hforest.not_lists_root]
    exact hroot)
  refine ⟨t', ?_, ?_⟩
  · unfold Tree.assemble
    rw [hk]
    dsimp only [replaceChildren]
    rw [if_pos rfl, hok]
    rfl
  · have hheader := header_attachAll ((t.rename root k a).dropChildren root) root ids root
    rw [hok, header_dropChildren, header_rename t root k a h.root_lt] at hheader
    exact hheader

theorem Forest.assemble_edits (h : t.Forest) (k : String) (a : Option String)
    (parent : Option Nat) (ids : List Nat) (hids : ∀ c : Nat, c ∈ ids → c < t.size) :
    t.Edits (t.assemble k a parent ids).2 ∧
      ∀ id : Nat, (t.assemble k a parent ids).1 = .ok id → id < (t.assemble k a parent ids).2.size := by
  unfold Tree.assemble
  by_cases hroot : Keyword.isRoot k
  · rw [if_pos hroot]
    dsimp only [replaceChildren]
    have hrename := h.rename root k a
    have hdrop := hrename.dropChildren root
    have hstart : t.Edits ((t.rename root k a).dropChildren root) :=
      (ReflTransGen.single (.rename root k a)).tail (.dropChildren root)
    have hmoves := hdrop.attachAll_edits hdrop.root_lt ids (by simpa using hids)
    refine ⟨hstart.trans hmoves, ?_⟩
    intro id hid
    rw [size_attachAll, ← (map_const_eq_ok hid).2]
    exact hdrop.root_lt
  · rw [if_neg hroot]
    dsimp only [push_snd]
    have hpush := h.push k a
    have hfree : ∀ q, ¬ (t.push k a).1.Lists q t.size := by
      intro q hq
      rw [Lists, children_push] at hq
      exact h.not_lists_size q hq
    have hrecord := hpush.setParent hfree parent
    have hstart : t.Edits ((t.push k a).1.setParent t.size parent) :=
      (ReflTransGen.single (.push k a)).tail (.record t.size parent hfree)
    have hsize : ((t.push k a).1.setParent t.size parent).size = t.size + 1 := by simp
    have hmoves := hrecord.attachAll_edits (p := t.size) (by omega) ids (by
      intro c hc
      have := hids c hc
      omega)
    refine ⟨hstart.trans hmoves, ?_⟩
    intro id hid
    rw [size_attachAll, ← (map_const_eq_ok hid).2]
    omega

theorem ne_root_of_assemble {id : Nat} (hok : (t.assemble k a parent ids).1 = .ok id) :
    ∀ c ∈ ids, c ≠ root := by
  unfold assemble at hok
  split at hok
  · exact ne_root_of_attachAll (map_const_eq_ok hok).1
  · exact ne_root_of_attachAll (map_const_eq_ok hok).1

theorem eq_root_of_assemble {id : Nat} (hk : Keyword.isRoot k = true)
    (hok : (t.assemble k a parent ids).1 = .ok id) : id = root := by
  unfold assemble at hok
  rw [if_pos hk] at hok
  exact (map_const_eq_ok hok).2.symm

end YangDoc.Tree
