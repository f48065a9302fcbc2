import YangDoc.Proofs.Tree.Forest
import YangDoc.Tree.Copy

/-!
# Planting statements and reading them back

A statement is planted into rows that did not exist before: the old rows stay as they are, the new
ones list only each other, and nothing lists the outermost one. `Holds` says that the rows at and
below a position spell out a given statement. Planting makes it true of the statement planted, and
a snapshot reads off the one statement of which it is true.
-/

namespace YangDoc

theorem Statement.size_pos (s : Statement) : 0 < s.size := by
  obtain ⟨k, a, cs⟩ := s
  exact Nat.succ_pos _

namespace Tree

open Relation

mutual

/-- The row at `id`, with the rows below it, spells out a statement. -/
def Holds (t : Tree) (id : Nat) : Statement → Prop
  | ⟨keyword, argument, children⟩ =>
    t.keyword id = keyword ∧ t.argument id = argument ∧ HoldsAll t (t.children id) children

def HoldsAll (t : Tree) (ids : List Nat) : List Statement → Prop
  | [] => ids = []
  | s :: rest => ∃ id ids', ids = id :: ids' ∧ Holds t id s ∧ HoldsAll t ids' rest

end

section Congr

variable {t t' : Tree} {S : Nat → Prop}

mutual

/-- What a row spells out depends only on rows in a region that is closed under going down. -/
theorem Holds.congr (hclosed : ∀ {q c}, S q → t.Lists q c → S c)
    (hsame : ∀ x, S x → t'.keyword x = t.keyword x ∧ t'.argument x = t.argument x ∧
      t'.children x = t.children x) :
    ∀ {id : Nat} {s : Statement}, S id → t.Holds id s → t'.Holds id s
  | id, ⟨k, a, cs⟩, hid, hholds => by
    obtain ⟨hk, ha, hcs⟩ := hholds
    obtain ⟨hk', ha', hcs'⟩ := hsame id hid
    refine ⟨hk'.trans hk, ha'.trans ha, ?_⟩
    rw [hcs']
    exact HoldsAll.congr hclosed hsame (fun c hc => hclosed hid hc) hcs

theorem HoldsAll.congr (hclosed : ∀ {q c}, S q → t.Lists q c → S c)
    (hsame : ∀ x, S x → t'.keyword x = t.keyword x ∧ t'.argument x = t.argument x ∧
      t'.children x = t.children x) :
    ∀ {ids : List Nat} {ss : List Statement}, (∀ id ∈ ids, S id) → t.HoldsAll ids ss →
      t'.HoldsAll ids ss
  | _, [], _, hholds => hholds
  | _, s :: rest, hids, hholds => by
    obtain ⟨id, ids', rfl, hs, hrest⟩ := hholds
    have htail : ∀ i ∈ ids', S i := fun i hi => hids i (List.mem_cons_of_mem id hi)
    exact ⟨id, ids', rfl, Holds.congr hclosed hsame (hids id List.mem_cons_self) hs,
      HoldsAll.congr hclosed hsame htail hrest⟩

end

end Congr

/-- Everything below a region that is closed under going down lies in it. -/
theorem Above.mem_of_closed {t : Tree} {S : Nat → Prop} {a x : Nat} (hx : t.Above a x)
    (hclosed : ∀ {q c}, S q → t.Lists q c → S c) (ha : S a) : S x := by
  induction hx with
  | refl => exact ha
  | tail _ hstep ih => exact hclosed ih hstep

/-! ### Planting -/

@[simp] theorem plant_snd (t : Tree) (s : Statement) : (t.plant s).2 = t.size := by
  obtain ⟨k, a, cs⟩ := s
  rfl

theorem plantAll_cons (t : Tree) (p : Nat) (s : Statement) (rest : List Statement) :
    t.plantAll p (s :: rest) = ((t.plant s).1.link p t.size).plantAll p rest := by
  have hpair : t.plant s = ((t.plant s).1, t.size) := Prod.ext rfl (plant_snd t s)
  rw [plantAll, hpair]

/-- What a table has gained when a statement was planted. -/
structure Planted (t : Tree) (s : Statement) (t' : Tree) : Prop where
  size_eq : t'.size = t.size + s.size
  row_eq : ∀ x, x < t.size → t'.row x = t.row x
  recorded_eq : t'.recorded t.size = none
  /-- New rows list only new rows, and not the outermost one. -/
  fresh : ∀ {q c}, t.size ≤ q → t'.Lists q c → t.size < c ∧ c < t'.size
  holds : t'.Holds t.size s
  forest : t.Forest → t'.Forest

structure PlantedAll (t : Tree) (p : Nat) (ss : List Statement) (t' : Tree) : Prop where
  size_eq : t'.size = t.size + Statement.sizeAll ss
  row_eq : ∀ x, x < t.size → x ≠ p → t'.row x = t.row x
  header_eq : t'.keyword p = t.keyword p ∧ t'.argument p = t.argument p ∧
    t'.recorded p = t.recorded p
  children_eq : ∃ ids : List Nat, t'.children p = t.children p ++ ids ∧ t'.HoldsAll ids ss ∧
    ∀ i : Nat, i ∈ ids → t.size ≤ i ∧ i < t'.size
  fresh : ∀ {q c}, t.size ≤ q → t'.Lists q c → t.size ≤ c ∧ c < t'.size
  forest : t.Forest → t'.Forest

namespace Planted

variable {t t' : Tree} {s : Statement} {p x : Nat}

theorem not_lists (h : Planted t s t') (hlisted : ∀ {p c : Nat}, t.Lists p c → c < t.size)
    (q : Nat) : ¬ t'.Lists q t.size := by
  intro hlist
  by_cases hq : q < t.size
  · rw [Lists, children, h.row_eq q hq] at hlist
    have := hlisted hlist
    omega
  · have := (h.fresh (by omega) hlist).1
    omega

theorem link (h : Planted t s t') (ht : t.Forest) (hp : p < t.size) :
    (t'.link p t.size).Forest := by
  have hsize := h.size_eq
  have hpos := s.size_pos
  have hroot : root < t.size := ht.root_lt
  refine (h.forest ht).link (by omega) (by omega) (by simp only [root] at *; omega)
    (h.not_lists ht.listed_lt) ?_
  intro habove
  have : t.size ≤ p := habove.mem_of_closed (S := fun x => t.size ≤ x)
    (fun hq hlist => (h.fresh hq hlist).1.le) le_rfl
  omega

end Planted

theorem Planted.of_push {t t' : Tree} {k : String} {a : Option String} {cs : List Statement}
    (h : PlantedAll (t.push k a).1 t.size cs t') : Planted t ⟨k, a, cs⟩ t' := by
  obtain ⟨hall, hrow, ⟨hkeyword, hargument, hrecorded⟩, ⟨ids, hids, hholds, hbound⟩, hfresh,
    hforest⟩ := h
  have hsize : (t.push k a).1.size = t.size + 1 := size_push t k a
  have hchildren : t'.children t.size = ids := by
    rw [hids, children_push, children_of_size_le le_rfl, List.nil_append]
  refine ⟨?_, ?_, ?_, ?_, ?_, fun ht => hforest (ht.push k a)⟩
  · rw [Statement.size]
    omega
  · intro x hx
    rw [hrow x (by omega) (by omega), row_push, if_neg (by omega)]
  · rw [hrecorded, recorded_push, recorded_of_size_le le_rfl]
  · intro q c hq hlist
    by_cases hqt : q = t.size
    · subst hqt
      have hc : c ∈ ids := hchildren ▸ hlist
      have := hbound c hc
      exact ⟨by omega, this.2⟩
    · have := hfresh (q := q) (c := c) (by omega) hlist
      exact ⟨by omega, this.2⟩
  · refine ⟨hkeyword.trans ?_, hargument.trans ?_, hchildren ▸ hholds⟩
    · rw [keyword, row_push, if_pos rfl]
    · rw [argument, row_push, if_pos rfl]

namespace PlantedAll

variable {t t₁ t' : Tree} {p c : Nat} {s : Statement} {rest : List Statement}

theorem nil : PlantedAll t p [] t := by
  refine ⟨rfl, fun _ _ _ => rfl, ⟨rfl, rfl, rfl⟩, ⟨[], by simp, rfl, by simp⟩, ?_, id⟩
  intro q c hq hlist
  have := hlist.lt_size
  omega

-- of the rows that exist once a statement is planted and listed, the others touch only that of `p`
theorem row_of_link (h : PlantedAll (t₁.link p c) p rest t') (hp : p < t₁.size) {x : Nat}
    (hx : x < t₁.size) (hne : x ≠ p) :
    t'.keyword x = t₁.keyword x ∧ t'.argument x = t₁.argument x ∧
      t'.children x = t₁.children x := by
  have hrow : t'.row x = (t₁.link p c).row x := h.row_eq x (by rwa [size_link]) hne
  refine ⟨?_, ?_, ?_⟩
  · rw [keyword, hrow]
    exact keyword_link x
  · rw [argument, hrow]
    exact argument_link x
  · rw [children, hrow]
    change (t₁.link p c).children x = _
    rw [children_link hp, if_neg hne]

theorem cons (hp : p < t.size) (hs : Planted t s t₁)
    (hrest : PlantedAll (t₁.link p t.size) p rest t') : PlantedAll t p (s :: rest) t' := by
  have hsize := hs.size_eq
  have hpos := s.size_pos
  have hkeep : ∀ x, x < t₁.size → x ≠ p → t'.keyword x = t₁.keyword x ∧
      t'.argument x = t₁.argument x ∧ t'.children x = t₁.children x :=
    fun x hx hne => hrest.row_of_link (by omega) hx hne
  obtain ⟨hall, hrow, ⟨hkeyword, hargument, hrecorded⟩, ⟨ids, hids, hholds, hbound⟩, hfresh,
    hforest⟩ := hrest
  rw [size_link] at hall hrow hbound hfresh
  refine ⟨?_, ?_, ⟨?_, ?_, ?_⟩, ⟨t.size :: ids, ?_, ⟨t.size, ids, rfl, ?_, hholds⟩, ?_⟩, ?_,
    fun ht => hforest (hs.link ht hp)⟩
  · rw [Statement.sizeAll]
    omega
  · intro x hx hne
    rw [hrow x (by omega) hne, row_link_of_ne hne (by omega), hs.row_eq x hx]
  · rw [hkeyword, keyword_link, keyword, hs.row_eq p hp, keyword]
  · rw [hargument, argument_link, argument, hs.row_eq p hp, argument]
  · rw [hrecorded, recorded_link (by omega), if_neg (by omega), recorded, hs.row_eq p hp, recorded]
  · have hold : t₁.children p = t.children p := by
      rw [children, hs.row_eq p hp, children]
    rw [hids, children_link (by omega), if_pos rfl, hold, List.append_assoc,
      List.singleton_append]
  · refine hs.holds.congr (S := fun x => t.size ≤ x ∧ x < t₁.size) ?_ ?_ ⟨le_rfl, by omega⟩
    · intro q c hq hlist
      have := hs.fresh hq.1 hlist
      omega
    · intro x hx
      exact hkeep x hx.2 (by omega)
  · intro i hi
    rcases List.mem_cons.1 hi with rfl | hi
    · omega
    · have := hbound i hi
      omega
  · intro q c hq hlist
    by_cases hnew : q < t₁.size
    · rw [Lists, (hkeep q hnew (by omega)).2.2] at hlist
      have := hs.fresh hq hlist
      omega
    · have := hfresh (q := q) (c := c) (by omega) hlist
      omega

end PlantedAll

mutual

theorem planted (t : Tree) : (s : Statement) → Planted t s (t.plant s).1
  | ⟨k, a, cs⟩ => by
    have hsize : (t.push k a).1.size = t.size + 1 := size_push t k a
    exact .of_push (plantedAll (t.push k a).1 t.size (by omega) cs)

theorem plantedAll (t : Tree) (p : Nat) (hp : p < t.size) :
    (ss : List Statement) → PlantedAll t p ss (t.plantAll p ss)
  | [] => .nil
  | s :: rest => by
    have hs := planted t s
    have hsize := hs.size_eq
    rw [plantAll_cons]
    exact .cons hp hs (plantedAll _ p (by rw [size_link]; omega) rest)

end

/-! ### Documents to start from -/

theorem forest_new (source k : String) : (new source k).Forest := by
  have hrow : ∀ x, ((new source k).row x).children = [] ∧ ((new source k).row x).parent = none := by
    intro x
    cases x with
    | zero => exact ⟨rfl, rfl⟩
    | succ x => exact ⟨rfl, rfl⟩
  have hlists : ∀ p c, ¬ (new source k).Lists p c := by
    intro p c hlist
    rw [Lists, children, (hrow p).1] at hlist
    simp at hlist
  refine ⟨Nat.zero_lt_one, fun hc => absurd hc (hlists _ _), fun hc => absurd hc (hlists _ _),
    fun p => ?_, (hrow root).2, fun x hx => ?_⟩
  · rw [children, (hrow p).1]
    exact List.nodup_nil
  · obtain ⟨c, hstep, -⟩ := TransGen.head'_iff.1 hx
    exact hlists x c hstep

theorem forest_ofStatement (top : Statement) : (ofStatement top).Forest := by
  have hstart := (forest_new (top.argument.getD defaultSource) top.keyword).rename root
    top.keyword top.argument
  exact (plantedAll _ root hstart.root_lt top.children).forest hstart

/-! ### Snapshots -/

mutual

/-- A snapshot deep enough for a statement finds it where the rows spell it out. -/
theorem unfold_eq_of_holds {t : Tree} :
    ∀ {id : Nat} {s : Statement} (depth : Nat), s.size ≤ depth + 1 → t.Holds id s →
      t.unfold depth id = s
  | id, ⟨k, a, cs⟩, depth, hsize, hholds => by
    obtain ⟨hk, ha, hcs⟩ := hholds
    rw [Statement.size] at hsize
    cases depth with
    | zero =>
      cases cs with
      | nil => rw [unfold, hk, ha]
      | cons s rest =>
        rw [Statement.sizeAll] at hsize
        have := s.size_pos
        omega
    | succ depth => rw [unfold, hk, ha, map_unfold_eq_of_holdsAll depth (by omega) hcs]

theorem map_unfold_eq_of_holdsAll {t : Tree} :
    ∀ {ids : List Nat} {ss : List Statement} (depth : Nat), Statement.sizeAll ss ≤ depth + 1 →
      t.HoldsAll ids ss → ids.map (t.unfold depth) = ss
  | _, [], _, _, hholds => by
    rw [HoldsAll] at hholds
    rw [hholds, List.map_nil]
  | _, s :: rest, depth, hsize, hholds => by
    obtain ⟨id, ids', rfl, hs, hrest⟩ := hholds
    rw [Statement.sizeAll] at hsize
    rw [List.map_cons, unfold_eq_of_holds depth (by omega) hs,
      map_unfold_eq_of_holdsAll depth (by omega) hrest]

end

theorem holdsAll_map {t : Tree} {f : Nat → Statement} {ids : List Nat}
    (hids : ∀ id ∈ ids, t.Holds id (f id)) : t.HoldsAll ids (ids.map f) := by
  induction ids with
  | nil => rfl
  | cons id ids ih =>
    exact ⟨id, ids, rfl, hids id List.mem_cons_self,
      ih fun i hi => hids i (List.mem_cons_of_mem id hi)⟩

-- a snapshot as deep as the statement is high cuts nothing off
theorem holds_unfold {t : Tree} {height : Nat → Nat}
    (hheight : ∀ {p c}, t.Lists p c → height c < height p) (depth : Nat) :
    ∀ id, height id ≤ depth → t.Holds id (t.unfold depth id) := by
  induction depth with
  | zero =>
    intro id hid
    refine ⟨rfl, rfl, ?_⟩
    rw [HoldsAll, List.eq_nil_iff_forall_not_mem]
    intro c hc
    have := hheight hc
    omega
  | succ depth ih =>
    intro id hid
    refine ⟨rfl, rfl, holdsAll_map fun c hc => ih c ?_⟩
    have := hheight hc
    omega

theorem Forest.holds_snapshot {t : Tree} (h : t.Forest) (id : Nat) :
    t.Holds id (t.snapshot id) := by
  obtain ⟨height, hlt, hle⟩ := h.exists_height
  exact holds_unfold hlt t.size id (hle id)

theorem snapshot_plant (t : Tree) (s : Statement) : (t.plant s).1.snapshot t.size = s := by
  have hplanted := planted t s
  have hsize := hplanted.size_eq
  exact unfold_eq_of_holds _ (by omega) hplanted.holds

theorem snapshot_ofStatement (top : Statement) : (ofStatement top).snapshot root = top := by
  obtain ⟨keyword, argument, children⟩ := top
  have hroot : root < (new (argument.getD defaultSource) keyword).size := Nat.zero_lt_one
  have hheader := header_rename _ root keyword argument hroot
  have hplanted := plantedAll ((new (argument.getD defaultSource) keyword).rename root keyword
    argument) root (by rwa [size_rename]) children
  obtain ⟨ids, hids, hholds, -⟩ := hplanted.children_eq
  obtain ⟨hkeyword, hargument, -⟩ := hplanted.header_eq
  have hsize := hplanted.size_eq
  rw [size_rename] at hsize
  refine unfold_eq_of_holds _ ?_ ⟨hkeyword.trans (congrArg Prod.fst hheader),
    hargument.trans (congrArg Prod.snd hheader), ?_⟩
  · rw [Statement.size]
    exact Nat.succ_le_succ (hsize ▸ Nat.le_add_left ..)
  · exact hids ▸ hholds

end Tree

end YangDoc
