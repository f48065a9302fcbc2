import YangDoc.Proofs.Tree.Insertion
import YangDoc.Proofs.Tree.Preorder

/-!
# How new rows are numbered

Planting makes the row of a statement before those of its substatements, and building makes it
after them. So the rows that are new are numbered in pre-order by the one and in post-order by the
other, without gaps from the old end of the table on.

`Numbered` says that a block of rows is one statement in pre-order. It looks at the lists of the
block and at nothing else, so planting makes it true in any table, forest or not. `Raised` collects
what is known of statements that were built from nothing but new rows: it is kept when one more
statement follows, and when all of them are put under a new one.
-/

namespace YangDoc.Tree

open Relation

variable {t t' t₁ : Tree} {scope : Scope} {a c p x : Nat}

/-! ### Post-order -/

/-- The subtree at `id` in post-order, down to `depth` levels below it. -/
def postorderWithin (t : Tree) : (depth : Nat) → NodeId → List NodeId
  | 0, id => [id]
  | depth + 1, id => (t.children id).flatMap (postorderWithin t depth) ++ [id]

def postorder (t : Tree) (id : NodeId) : List NodeId :=
  t.postorderWithin t.size id

-- a depth that reaches the lowest statement gives the same list as any greater one
theorem postorderWithin_eq {height : Nat → Nat}
    (hheight : ∀ {p c}, t.Lists p c → height c < height p) (depth : Nat) :
    ∀ x, height x ≤ depth → ∀ more, t.postorderWithin (depth + more) x =
      t.postorderWithin depth x := by
  induction depth with
  | zero =>
    intro x hx more
    have hnone : t.children x = [] := by
      rw [List.eq_nil_iff_forall_not_mem]
      intro c hc
      have := hheight hc
      omega
    cases more with
    | zero => rfl
    | succ more =>
      rw [Nat.zero_add]
      show (t.children x).flatMap _ ++ [x] = [x]
      rw [hnone, List.flatMap_nil, List.nil_append]
  | succ depth ih =>
    intro x hx more
    rw [Nat.add_right_comm, postorderWithin, postorderWithin]
    congr 1
    refine List.flatMap_congr fun c hc => ih c ?_ more
    have := hheight hc
    omega

theorem Forest.postorder_eq (h : t.Forest) (x : Nat) :
    t.postorder x = (t.children x).flatMap t.postorder ++ [x] := by
  obtain ⟨height, hlt, hle⟩ := h.exists_height
  rw [postorder, ← postorderWithin_eq hlt t.size x (hle x) 1]
  rfl

theorem Forest.mem_postorder_iff (h : t.Forest) : x ∈ t.postorder a ↔ t.Above a x := by
  induction a using h.induction_below with
  | step a ih =>
    rw [h.postorder_eq, List.mem_append, List.mem_flatMap, List.mem_singleton]
    constructor
    · intro hx
      rcases hx with ⟨c, hc, hx⟩ | rfl
      · exact ((ih c hc).1 hx).head hc
      · exact .refl
    · intro hx
      rcases ReflTransGen.cases_head hx with rfl | ⟨c, hc, hcx⟩
      · exact .inr rfl
      · exact .inl ⟨c, hc, (ih c hc).2 hcx⟩

theorem Forest.add_one_of_postorder {first count : Nat} (h : t.Forest)
    (horder : t.postorder x = List.range' first count) : x + 1 = first + count := by
  have hlast := congrArg List.getLast? horder
  rw [h.postorder_eq, List.getLast?_append, List.getLast?_singleton, Option.some_or,
    List.getLast?_range'] at hlast
  split at hlast
  · simp at hlast
  · have heq : x = first + count - 1 := Option.some.inj hlast
    omega

/-! ### Orders of statements that stay as they are -/

theorem SameBelow.postorder_eq (hsame : t.SameBelow t' a) (h : t.Forest) (h' : t'.Forest) :
    t'.postorder a = t.postorder a := by
  induction a using h.induction_below with
  | step a ih =>
    rw [h.postorder_eq, h'.postorder_eq, (hsame a .refl).2]
    congr 1
    exact List.flatMap_congr fun c hc => ih c hc (hsame.mono (.single hc))

theorem SameBelow.preorder_eq (hsame : t.SameBelow t' a) (h : t.Forest) (h' : t'.Forest) :
    t'.preorder scope a = t.preorder scope a := by
  induction a using h.induction_below with
  | step a ih =>
    have hkeyword : ∀ c ∈ t.children a, t'.keyword c = t.keyword c := fun c hc =>
      congrArg Prod.fst (hsame c (.single hc)).1
    have hadmitted : t'.admitted scope a = t.admitted scope a := by
      rw [admitted, admitted, (hsame a .refl).2]
      exact List.filter_congr fun c hc => by rw [hkeyword c hc]
    rw [h.preorder_eq, h'.preorder_eq, hadmitted]
    congr 1
    refine List.flatMap_congr fun c hc => ?_
    have hlist : t.Lists a c := List.mem_of_mem_filter hc
    exact ih c hlist (hsame.mono (.single hlist))

/-- Where old rows are as they were, so is what lies below an old statement. -/
theorem Forest.sameBelow_of_row_eq (h : t.Forest) (hrow : ∀ x, x < t.size → t'.row x = t.row x)
    (ha : a < t.size) : t.SameBelow t' a := by
  intro x hx
  have hx := hrow x (h.above_lt_size hx ha)
  rw [header, header, keyword, keyword, argument, argument, children, children, hx]
  exact ⟨rfl, rfl⟩

/-! ### Planting numbers in pre-order -/

theorem admitted_all (t : Tree) (x : Nat) : t.admitted .all x = t.children x :=
  List.filter_eq_self.2 fun _ _ => rfl

mutual

theorem source_plant : ∀ (t : Tree) (s : Statement), (t.plant s).1.source = t.source
  | t, ⟨k, a, cs⟩ => source_plantAll (t.push k a).1 t.size cs

theorem source_plantAll : ∀ (t : Tree) (p : Nat) (ss : List Statement),
    (t.plantAll p ss).source = t.source
  | _, _, [] => rfl
  | t, p, s :: rest => by
    rw [plantAll_cons, source_plantAll _ p rest]
    exact source_plant t s

end

/-- Where statements begin that follow each other without gaps. -/
def starts (first : Nat) : List Statement → List Nat
  | [] => []
  | s :: rest => first :: starts (first + s.size) rest

mutual

/-- The rows from `first` on list each other as the parts of a statement do, in pre-order. -/
def Numbered (t : Tree) (first : Nat) : Statement → Prop
  | ⟨_, _, children⟩ =>
    t.children first = starts (first + 1) children ∧ NumberedAll t (first + 1) children

/-- The same for several statements, one block of rows after the other. -/
def NumberedAll (t : Tree) (first : Nat) : List Statement → Prop
  | [] => True
  | s :: rest => Numbered t first s ∧ NumberedAll t (first + s.size) rest

end

mutual

theorem Numbered.congr : ∀ {first : Nat} {s : Statement}, t.Numbered first s →
    (∀ x, first ≤ x → x < first + s.size → t'.children x = t.children x) → t'.Numbered first s
  | first, ⟨k, a, cs⟩, hs, hsame => by
    rw [Statement.size] at hsame
    refine ⟨(hsame first le_rfl (by omega)).trans hs.1, hs.2.congr ?_⟩
    intro x hle hlt
    exact hsame x (by omega) (by omega)

theorem NumberedAll.congr : ∀ {first : Nat} {ss : List Statement}, t.NumberedAll first ss →
    (∀ x, first ≤ x → x < first + Statement.sizeAll ss → t'.children x = t.children x) →
    t'.NumberedAll first ss
  | _, [], _, _ => trivial
  | first, s :: rest, hss, hsame => by
    rw [Statement.sizeAll] at hsame
    refine ⟨hss.1.congr fun x hle hlt => ?_, hss.2.congr fun x hle hlt => ?_⟩
    · exact hsame x hle (by omega)
    · exact hsame x (by omega) (by omega)

end

mutual

/-- A traversal that comes upon such a block visits it row by row and then goes on. -/
theorem Numbered.visit_eq : ∀ {first : Nat} {s : Statement}, t.Numbered first s →
    ∀ (fuel : Nat) (stack : List Nat), t.visit .all (s.size + fuel) (first :: stack) =
      List.range' first s.size ++ t.visit .all fuel stack
  | first, ⟨k, a, cs⟩, hs, fuel, stack => by
    rw [Statement.size, Nat.add_right_comm, visit, admitted_all, hs.1, hs.2.visit_eq fuel stack,
      List.range'_succ, List.cons_append]

theorem NumberedAll.visit_eq : ∀ {first : Nat} {ss : List Statement}, t.NumberedAll first ss →
    ∀ (fuel : Nat) (stack : List Nat),
      t.visit .all (Statement.sizeAll ss + fuel) (starts first ss ++ stack) =
        List.range' first (Statement.sizeAll ss) ++ t.visit .all fuel stack
  | _, [], _, fuel, stack => by
    rw [Statement.sizeAll, starts, Nat.zero_add]
    rfl
  | first, s :: rest, hss, fuel, stack => by
    rw [Statement.sizeAll, starts, List.cons_append, Nat.add_assoc, hss.1.visit_eq,
      hss.2.visit_eq fuel stack, ← List.append_assoc, List.range'_append_1]

end

mutual

/-- A statement that is planted takes up the rows from the old end of the table on, whatever the
rows before them hold. -/
theorem numbered_plant : ∀ (t : Tree) (s : Statement), (t.plant s).1.Numbered t.size s
  | t, ⟨k, a, cs⟩ => by
    have hsize : (t.push k a).1.size = t.size + 1 := size_push t k a
    obtain ⟨hchildren, hcs⟩ := numbered_plantAll (t.push k a).1 (p := t.size) (by omega) cs
    rw [children_push, children_of_size_le le_rfl, List.nil_append, hsize] at hchildren
    rw [hsize] at hcs
    exact ⟨hchildren, hcs⟩

theorem numbered_plantAll : ∀ (t : Tree) {p : Nat} (_ : p < t.size) (ss : List Statement),
    (t.plantAll p ss).children p = t.children p ++ starts t.size ss ∧
      (t.plantAll p ss).NumberedAll t.size ss
  | t, p, _, [] => ⟨(List.append_nil _).symm, trivial⟩
  | t, p, hp, s :: rest => by
    have hs := t.planted s
    have hsize := hs.size_eq
    have hall := plantedAll ((t.plant s).1.link p t.size) p (by rw [size_link]; omega) rest
    obtain ⟨hchildren, hrest⟩ :=
      numbered_plantAll ((t.plant s).1.link p t.size) (p := p) (by rw [size_link]; omega) rest
    rw [size_link, hsize] at hchildren hrest
    rw [plantAll_cons]
    refine ⟨?_, (numbered_plant t s).congr fun x hle hlt => ?_, hrest⟩
    · have hold : (t.plant s).1.children p = t.children p := by
        rw [children, hs.row_eq p hp, children]
      rw [hchildren, children_link (by omega), if_pos rfl, hold, List.append_assoc,
        List.singleton_append, starts]
    · -- the others touch none of the rows of the first
      exact (hall.row_of_link (by omega) (by omega) (by omega)).2.2

end

theorem preorder_plant (t : Tree) (s : Statement) :
    (t.plant s).1.preorder .all t.size = List.range' t.size s.size := by
  have hvisit := (t.numbered_plant s).visit_eq 0 []
  rw [preorder, snapshot_plant]
  rwa [Nat.add_zero, visit, List.append_nil] at hvisit

/-! ### Building numbers in post-order -/

theorem row_eq_of_parts (hheader : t'.header x = t.header x)
    (hchildren : t'.children x = t.children x) (hrecorded : t'.recorded x = t.recorded x) :
    t'.row x = t.row x := by
  have hkeyword : t'.keyword x = t.keyword x := congrArg Prod.fst hheader
  have hargument : t'.argument x = t.argument x := congrArg Prod.snd hheader
  show Row.mk (t'.keyword x) (t'.argument x) (t'.children x) (t'.recorded x) = t.row x
  rw [hkeyword, hargument, hchildren, hrecorded]
  rfl

section Assemble

variable {k : String} {arg : Option String} {parent : Option Nat} {ids : List Nat} {id : Nat}

theorem source_setParent (t : Tree) (id : Nat) (parent : Option Nat) :
    (t.setParent id parent).source = t.source := by
  unfold setParent
  split <;> rfl

theorem source_assemble (hk : Keyword.isRoot k = false)
    (hok : t.assemble k arg parent ids = (.ok id, t')) : t'.source = t.source := by
  unfold assemble at hok
  rw [hk, if_neg Bool.false_ne_true] at hok
  dsimp only [push_snd] at hok
  rw [← (Prod.mk.inj hok).2, source_attachAll, source_setParent]
  rfl

theorem setParent_none (hid : t.recorded id = none) : t.setParent id none = t := by
  unfold setParent
  split
  · rfl
  · obtain ⟨source, rows⟩ := t
    have hrows : (rows.modify id fun r => { r with parent := none }) = rows := by
      ext i hi hi'
      · rw [Array.size_modify]
      · rw [Array.getElem_modify]
        split
        · next heq =>
          subst heq
          have hparent : rows[id].parent = none := by
            simpa [recorded, row, hi'] using hid
          exact congrArg (Row.mk rows[id].keyword rows[id].argument rows[id].children) hparent.symm
        · rfl
    rw [modify, hrows]

theorem recorded_assemble (hk : Keyword.isRoot k = false) (hids : ∀ c ∈ ids, c < t.size)
    (hok : t.assemble k arg none ids = (.ok id, t')) (x : Nat) :
    t'.recorded x = if x ∈ ids then some t.size else t.recorded x := by
  unfold assemble at hok
  rw [hk, if_neg Bool.false_ne_true] at hok
  dsimp only [push_snd] at hok
  have hmoves := (map_const_eq_ok (congrArg Prod.fst hok)).1
  have htable := congrArg Prod.snd hok
  have hall : ((t.push k arg).1.setParent t.size none).attachAll t.size ids = (.ok (), t') :=
    Prod.ext hmoves htable
  have hfits : ∀ c ∈ ids, c < ((t.push k arg).1.setParent t.size none).size := by
    intro c hc
    rw [size_setParent, size_push]
    exact Nat.lt_succ_of_lt (hids c hc)
  have hnone : (t.push k arg).1.recorded t.size = none := by
    rw [recorded_push, recorded_of_size_le le_rfl]
  rw [recorded_attachAll hfits hall, setParent_none hnone, recorded_push]

end Assemble

/-- The table has gained statements at `ids` that list nothing but each other and new rows, and
their rows are numbered in post-order. Old rows are as they were. -/
structure Raised (t : Tree) (ss : List Statement) (ids : List Nat) (t' : Tree) : Prop where
  source_eq : t'.source = t.source
  size_eq : t'.size = t.size + Statement.sizeAll ss
  row_eq : ∀ x, x < t.size → t'.row x = t.row x
  recorded_eq : ∀ id ∈ ids, t'.recorded id = none
  holds : t'.HoldsAll ids ss
  postorder_eq : ids.flatMap t'.postorder = List.range' t.size (Statement.sizeAll ss)
  forest : t'.Forest

namespace Raised

variable {s : Statement} {ss rest : List Statement} {id : Nat} {ids : List Nat} {k : String}
  {arg : Option String}

theorem nil (h : t.Forest) : t.Raised [] [] t :=
  ⟨rfl, rfl, fun _ _ => rfl, by simp, rfl, rfl, h⟩

theorem mem_iff (h : t.Raised ss ids t') :
    (∃ id ∈ ids, t'.Above id x) ↔ t.size ≤ x ∧ x < t'.size := by
  have hmem : x ∈ ids.flatMap t'.postorder ↔ ∃ id ∈ ids, t'.Above id x := by
    simp only [List.mem_flatMap, h.forest.mem_postorder_iff]
  rw [← hmem, h.postorder_eq, List.mem_range'_1, h.size_eq]

theorem bounds (h : t.Raised ss ids t') (hid : id ∈ ids) : t.size ≤ id ∧ id < t'.size :=
  h.mem_iff.1 ⟨id, hid, .refl⟩

theorem not_lists (h : t.Raised ss ids t') (hid : id ∈ ids) (q : Nat) : ¬ t'.Lists q id := by
  intro hlist
  have hrecorded := h.forest.recorded_eq hlist
  rw [h.recorded_eq id hid] at hrecorded
  simp at hrecorded

theorem apart (h : t.Raised ss ids t') : ids.Pairwise t'.Apart := by
  have hnodup : (ids.flatMap t'.postorder).Nodup := by
    rw [h.postorder_eq]
    exact List.nodup_range'
  refine (List.nodup_flatMap.1 hnodup).2.imp fun hdisjoint x ha hb => ?_
  exact hdisjoint (h.forest.mem_postorder_iff.2 ha) (h.forest.mem_postorder_iff.2 hb)

theorem cons (h : t.Raised [s] [id] t₁) (hrest : t₁.Raised rest ids t') :
    t.Raised (s :: rest) (id :: ids) t' := by
  have hid := (h.bounds (List.mem_singleton_self id)).2
  have hsize : t₁.size = t.size + s.size := h.size_eq
  have hsame : t₁.SameBelow t' id := h.forest.sameBelow_of_row_eq hrest.row_eq hid
  have hfirst : t₁.postorder id = List.range' t.size s.size := by
    simpa [Statement.sizeAll] using h.postorder_eq
  refine ⟨hrest.source_eq.trans h.source_eq, ?_, ?_, ?_, ?_, ?_, hrest.forest⟩
  · rw [hrest.size_eq, hsize, Statement.sizeAll, Nat.add_assoc]
  · intro x hx
    rw [hrest.row_eq x (by omega), h.row_eq x hx]
  · rw [List.forall_mem_cons]
    refine ⟨?_, hrest.recorded_eq⟩
    rw [recorded, hrest.row_eq id hid]
    exact h.recorded_eq id (List.mem_singleton_self id)
  · exact ⟨id, ids, rfl, hsame.holds (holdsAll_singleton.1 h.holds), hrest.holds⟩
  · rw [List.flatMap_cons, hsame.postorder_eq h.forest hrest.forest, hfirst, hrest.postorder_eq,
      hsize, Statement.sizeAll, List.range'_append_1]

theorem assemble (h : t.Raised ss ids t₁) (hroot : root < t.size) (hk : Keyword.isRoot k = false)
    (arg : Option String) :
    ∃ t', t₁.assemble k arg none ids = (.ok t₁.size, t') ∧
      t.Raised [⟨k, arg, ss⟩] [t₁.size] t' := by
  have hfits : ∀ c ∈ ids, c < t₁.size := fun c hc => (h.bounds hc).2
  have hnew : ∀ c ∈ ids, t.size ≤ c := fun c hc => (h.bounds hc).1
  have hold := h.size_eq
  obtain ⟨t', hok, -⟩ := h.forest.assemble_ok hk arg none fun c hc =>
    ⟨hfits c hc, Nat.ne_of_gt (Nat.lt_of_lt_of_le hroot (hnew c hc))⟩
  have hassembled := (h.forest.assembled_new hk hfits hok).2
  have hsize := size_assemble hk hok
  have hforest : t'.Forest := by
    have hedits := (h.forest.assemble_edits k arg none ids hfits).1
    rw [hok] at hedits
    exact hedits.forest h.forest
  have hall : Statement.sizeAll [⟨k, arg, ss⟩] = Statement.sizeAll ss + 1 := by
    simp [Statement.sizeAll, Statement.size]
  refine ⟨t', hok, ?_, ?_, ?_, ?_, ?_, ?_, hforest⟩
  · rw [source_assemble hk hok, h.source_eq]
  · rw [hsize, hold, hall, Nat.add_assoc]
  · intro x hx
    have hmem : x ∉ ids := fun hmem => Nat.not_lt.2 (hnew x hmem) hx
    have hrow : t'.row x = t₁.row x := by
      refine row_eq_of_parts (hassembled.header_of_ne x (by omega) (by omega)) ?_ ?_
      · rw [hassembled.children_of_ne x (by omega), List.filter_eq_self]
        intro c hc
        rw [decide_eq_true_eq]
        exact fun hcs => h.not_lists hcs x hc
      · rw [recorded_assemble hk hfits hok, if_neg hmem]
    rw [hrow, h.row_eq x hx]
  · intro id hid
    rw [List.mem_singleton.1 hid, recorded_assemble hk hfits hok, recorded_of_size_le le_rfl,
      if_neg fun hmem => Nat.lt_irrefl _ (hfits _ hmem)]
  · exact holdsAll_singleton.2 (hassembled.holds h.forest hfits h.apart h.holds)
  · have hsame := hassembled.sameBelow h.forest hfits h.apart
    have hkeep : ids.flatMap t'.postorder = ids.flatMap t₁.postorder :=
      List.flatMap_congr fun c hc => (hsame c hc).postorder_eq h.forest hforest
    rw [List.flatMap_singleton, hforest.postorder_eq, hassembled.children_of_apart h.apart, hkeep,
      h.postorder_eq, hall, hold, List.range'_1_concat]

end Raised

end YangDoc.Tree
