import Mathlib.Logic.Equiv.Defs
import YangDoc.Proofs.Tree.Below

/-!
# A row made earlier

Rows are numbered in the order in which they are made. Here two tables are compared that go through
the same steps, except that one of them has a row more, made before all others that are new. This
row has taken statements under it which in the other table are still on the lists they were on. The
same steps keep two tables in this relation. Once the other table makes the row as well, as its last
one, and with the same statements under it, each table is the other one with its new positions
permuted, and so no statement has another value.
-/

namespace YangDoc.Tree

variable {t t' t₁ t₁' : Tree} {gap p c x : Nat} {head : String × Option String}
  {k : String} {a : Option String} {taken ids : List Nat}

/-! ### Renamed tables -/

/-- The second table is the first one with its positions permuted. -/
structure Renamed (f : Equiv.Perm Nat) (t t' : Tree) : Prop where
  header_eq : ∀ x, t'.header (f x) = t.header x
  children_eq : ∀ x, t'.children (f x) = (t.children x).map f

namespace Renamed

variable {f : Equiv.Perm Nat}

mutual

theorem holds (h : t.Renamed f t') : ∀ {x : Nat} {s : Statement}, t.Holds x s → t'.Holds (f x) s
  | x, ⟨k, a, cs⟩, hs => by
    obtain ⟨hk, ha, hcs⟩ := hs
    have hheader := h.header_eq x
    refine ⟨(congrArg Prod.fst hheader).trans hk, (congrArg Prod.snd hheader).trans ha, ?_⟩
    rw [h.children_eq]
    exact holdsAll h hcs

theorem holdsAll (h : t.Renamed f t') : ∀ {xs : List Nat} {ss : List Statement},
    t.HoldsAll xs ss → t'.HoldsAll (xs.map f) ss
  | _, [], hss => by
    obtain rfl : _ = [] := hss
    rfl
  | _, s :: rest, hss => by
    obtain ⟨x, xs, rfl, hs, hrest⟩ := hss
    exact ⟨f x, xs.map f, rfl, holds h hs, holdsAll h hrest⟩

end

/-- Positions do not show in the value of a statement. -/
theorem snapshot_eq (h : t.Renamed f t') (ht : t.Forest) (ht' : t'.Forest) (x : Nat) :
    t'.snapshot (f x) = t.snapshot x :=
  ht'.snapshot_eq_of_holds (h.holds (ht.holds_snapshot x))

end Renamed

/-! ### Room for one more row -/

/-- The position of a statement once a row has been put in at `gap`. -/
def shift (gap x : Nat) : Nat :=
  if x < gap then x else x + 1

theorem shift_of_lt (hx : x < gap) : shift gap x = x :=
  if_pos hx

theorem shift_of_le (hx : gap ≤ x) : shift gap x = x + 1 :=
  if_neg (Nat.not_lt.2 hx)

theorem shift_ne (gap x : Nat) : shift gap x ≠ gap := by
  rcases Nat.lt_or_ge x gap with hx | hx
  · rw [shift_of_lt hx]
    omega
  · rw [shift_of_le hx]
    omega

theorem exists_shift_eq (hx : x ≠ gap) : ∃ y, shift gap y = x := by
  rcases Nat.lt_or_gt_of_ne hx with hlt | hgt
  · exact ⟨x, shift_of_lt hlt⟩
  · refine ⟨x - 1, ?_⟩
    rw [shift_of_le (by omega)]
    omega

theorem shift_injective (gap : Nat) : Function.Injective (shift gap) := by
  intro x y hxy
  unfold shift at hxy
  split at hxy <;> split at hxy <;> omega

theorem filter_map_shift (gap : Nat) (xs ids : List Nat) :
    (xs.map (shift gap)).filter (· ∉ ids.map (shift gap)) =
      (xs.filter (· ∉ ids)).map (shift gap) := by
  rw [List.filter_map]
  simp only [Function.comp_def, List.mem_map_of_injective (shift_injective gap)]

/-- The permutation that moves the last of the new positions ahead of the others. -/
def hoist (gap count : Nat) : Equiv.Perm Nat where
  toFun x := if x = gap + count then gap else if gap ≤ x ∧ x < gap + count then x + 1 else x
  invFun y := if y = gap then gap + count else if gap < y ∧ y ≤ gap + count then y - 1 else y
  left_inv x := by
    dsimp only
    split_ifs <;> omega
  right_inv y := by
    dsimp only
    split_ifs <;> omega

section

variable (gap count : Nat)

theorem hoist_last : hoist gap count (gap + count) = gap :=
  if_pos rfl

theorem hoist_of_lt_last (hx : x < gap + count) : hoist gap count x = shift gap x := by
  change (if x = gap + count then gap else if gap ≤ x ∧ x < gap + count then x + 1 else x) = _
  unfold shift
  split_ifs <;> omega

theorem hoist_of_last_lt (hx : gap + count < x) : hoist gap count x = x := by
  change (if x = gap + count then gap else if gap ≤ x ∧ x < gap + count then x + 1 else x) = _
  split_ifs <;> omega

theorem hoist_of_lt (hx : x < gap) : hoist gap count x = x := by
  rw [hoist_of_lt_last gap count (by omega), shift_of_lt hx]

end

/-! ### One row ahead -/

/-- The second table has a row at `gap` that the first one does not have, with the statements
`taken` under it. Otherwise they have the same rows. What existed before the row was made lists only
what existed. -/
structure Inserted (gap : Nat) (head : String × Option String) (taken : List Nat) (t t' : Tree) :
    Prop where
  gap_le : gap ≤ t.size
  size_eq : t'.size = t.size + 1
  taken_lt : ∀ c ∈ taken, c < t.size
  header_eq : ∀ x, x < t.size → t'.header (shift gap x) = t.header x
  children_eq : ∀ x, t'.children (shift gap x) =
    ((t.children x).filter (· ∉ taken)).map (shift gap)
  header_gap : t'.header gap = head
  children_gap : t'.children gap = taken.map (shift gap)
  closed : ∀ {x c}, x < gap → t.Lists x c → c < gap

theorem size_assemble {parent : Option Nat} {id : Nat} (hk : Keyword.isRoot k = false)
    (hok : t.assemble k a parent ids = (.ok id, t')) : t'.size = t.size + 1 := by
  unfold assemble at hok
  rw [hk, if_neg Bool.false_ne_true] at hok
  dsimp only [push_snd] at hok
  rw [← (Prod.mk.inj hok).2, size_attachAll, size_setParent, size_push]

theorem Assembled.inserted (h : t.Assembled k a [] t.size t') (hsize : t'.size = t.size + 1)
    (ht : t.Forest) : t.Inserted t.size (k, a) [] t' := by
  have hshift : ∀ {x}, x < t.size → shift t.size x = x := shift_of_lt
  refine ⟨le_rfl, hsize, by simp, ?_, ?_, h.header_eq, h.children_eq, fun _ hlist => ?_⟩
  · intro x hx
    rw [hshift hx, h.header_of_ne x hx (by omega)]
  · intro x
    rcases Nat.lt_or_ge x t.size with hx | hx
    · have hsame : ∀ c ∈ t.children x, shift t.size c = c := fun c hc => hshift (ht.listed_lt hc)
      rw [hshift hx, h.children_of_ne x (by omega), List.map_congr_left fun c hc =>
        hsame c (List.mem_of_mem_filter hc), List.map_id']
    · rw [shift_of_le hx, children_of_size_le (by omega), children_of_size_le hx]
      rfl
  · exact ht.listed_lt hlist

namespace Inserted

theorem size_eq_shift (h : t.Inserted gap head taken t') : t'.size = shift gap t.size := by
  rw [shift_of_le h.gap_le, h.size_eq]

theorem not_mem_of_size_le (h : t.Inserted gap head taken t') (hc : t.size ≤ c) : c ∉ taken :=
  fun hmem => Nat.not_lt.2 hc (h.taken_lt c hmem)

theorem not_lists_gap (h : t.Inserted gap head taken t') (q : Nat) : ¬ t'.Lists q gap := by
  intro hlist
  have hshifted : ∀ xs : List Nat, gap ∉ xs.map (shift gap) := by
    intro xs hmem
    obtain ⟨x, -, hx⟩ := List.mem_map.1 hmem
    exact shift_ne gap x hx
  by_cases hq : q = gap
  · rw [hq, Lists, h.children_gap] at hlist
    exact hshifted _ hlist
  · obtain ⟨x, rfl⟩ := exists_shift_eq hq
    rw [Lists, h.children_eq] at hlist
    exact hshifted _ hlist

theorem push (h : t.Inserted gap head taken t') (k : String) (a : Option String) :
    (t.push k a).1.Inserted gap head taken (t'.push k a).1 := by
  have hgap := h.gap_le
  have hsize := h.size_eq
  refine ⟨?_, ?_, ?_, ?_, ?_, ?_, ?_, ?_⟩
  · rw [size_push]
    omega
  · rw [size_push, size_push, hsize]
  · intro c hc
    rw [size_push]
    exact Nat.lt_succ_of_lt (h.taken_lt c hc)
  · intro x hx
    rw [size_push] at hx
    rw [header_push, header_push, h.size_eq_shift]
    by_cases heq : x = t.size
    · rw [if_pos heq, if_pos (by rw [heq])]
    · rw [if_neg heq, if_neg fun hsame => heq (shift_injective gap hsame),
        h.header_eq x (by omega)]
  · intro x
    rw [children_push, children_push, h.children_eq]
  · rw [header_push, if_neg (by omega), h.header_gap]
  · rw [children_push, h.children_gap]
  · intro x c hx hlist
    rw [Lists, children_push] at hlist
    exact h.closed hx hlist

theorem link (h : t.Inserted gap head taken t') (hp : p < t.size) (hnew : gap ≤ p)
    (hc : c ∉ taken) :
    (t.link p c).Inserted gap head taken (t'.link (shift gap p) (shift gap c)) := by
  have hp' : shift gap p < t'.size := by
    rw [shift_of_le hnew, h.size_eq]
    omega
  refine ⟨?_, ?_, ?_, ?_, ?_, ?_, ?_, ?_⟩
  · rw [size_link]
    exact h.gap_le
  · rw [size_link, size_link, h.size_eq]
  · rw [size_link]
    exact h.taken_lt
  · intro x hx
    rw [size_link] at hx
    rw [header_link, header_link, h.header_eq x hx]
  · intro x
    rw [children_link hp', children_link hp]
    by_cases heq : x = p
    · rw [if_pos heq, if_pos (by rw [heq]), h.children_eq, List.filter_append, List.map_append,
        List.filter_singleton, decide_eq_true hc]
      rfl
    · rw [if_neg heq, if_neg fun hsame => heq (shift_injective gap hsame), h.children_eq x]
  · rw [header_link, h.header_gap]
  · rw [children_link hp', if_neg (shift_ne gap p).symm, h.children_gap]
  · intro x y hx hlist
    rcases (Forest.lists_link hp).1 hlist with hold | ⟨rfl, -⟩
    · exact h.closed hx hold
    · omega

mutual

theorem plant : ∀ {t t' : Tree} (s : Statement), t.Inserted gap head taken t' →
    (t.plant s).1.Inserted gap head taken (t'.plant s).1
  | t, t', ⟨k, a, cs⟩, h => by
    have hall := plantAll t.size cs (h.push k a) h.gap_le (by rw [size_push]; omega)
    rwa [← h.size_eq_shift] at hall

theorem plantAll : ∀ {t t' : Tree} (p : Nat) (ss : List Statement),
    t.Inserted gap head taken t' → gap ≤ p → p < t.size →
    (t.plantAll p ss).Inserted gap head taken (t'.plantAll (shift gap p) ss)
  | _, _, _, [], h, _, _ => h
  | t, t', p, s :: rest, h, hnew, hp => by
    have hsize := (t.planted s).size_eq
    have hnext := (plant s h).link (p := p) (by omega) hnew (h.not_mem_of_size_le le_rfl)
    rw [plantAll_cons, plantAll_cons, h.size_eq_shift]
    exact plantAll p rest hnext hnew (by rw [size_link]; omega)

end

theorem assembled (h : t.Inserted gap head taken t') (hnew : t.Assembled k a ids t.size t₁)
    (hnew' : t'.Assembled k a (ids.map (shift gap)) t'.size t₁')
    (hsize : t₁.size = t.size + 1) (hsize' : t₁'.size = t'.size + 1)
    (hfree : ∀ c ∈ ids, c ∉ taken) : t₁.Inserted gap head taken t₁' := by
  have hgap := h.gap_le
  have hold := h.size_eq
  have hshift := h.size_eq_shift
  refine ⟨by omega, by omega, ?_, ?_, ?_, ?_, ?_, ?_⟩
  · intro c hc
    have := h.taken_lt c hc
    omega
  · intro x hx
    by_cases heq : x = t.size
    · rw [heq, ← hshift, hnew'.header_eq, hnew.header_eq]
    · have hlt : shift gap x < t'.size := by
        unfold shift
        split <;> omega
      rw [hnew'.header_of_ne _ hlt (Nat.ne_of_lt hlt), hnew.header_of_ne x (by omega) heq,
        h.header_eq x (by omega)]
  · intro x
    by_cases heq : x = t.size
    · have hkeep : ids.dedup.filter (· ∉ taken) = ids.dedup :=
        List.filter_eq_self.2 fun c hc => decide_eq_true (hfree c (List.mem_dedup.1 hc))
      rw [heq, ← hshift, hnew'.children_eq, hnew.children_eq, hkeep,
        List.dedup_map_of_injective (shift_injective gap)]
    · have hne : shift gap x ≠ t'.size := by
        rw [hshift]
        exact fun hsame => heq (shift_injective gap hsame)
      rw [hnew'.children_of_ne _ hne, h.children_eq, filter_map_shift, hnew.children_of_ne x heq,
        List.filter_filter, List.filter_filter]
      simp only [Bool.and_comm]
  · rw [hnew'.header_of_ne gap (by omega) (by omega), h.header_gap]
  · have hkeep : taken.filter (· ∉ ids) = taken :=
      List.filter_eq_self.2 fun c hc => decide_eq_true fun hmem => hfree c hmem hc
    rw [hnew'.children_of_ne gap (by omega), h.children_gap, filter_map_shift, hkeep]
  · intro x c hx hlist
    rw [Lists, hnew.children_of_ne x (by omega)] at hlist
    exact h.closed hx (List.mem_of_mem_filter hlist)

theorem take (h : t.Inserted gap head taken t') (ht' : t'.Forest) (hc : c < t.size)
    (hfree : c ∉ taken) (hok : t'.attach gap (shift gap c) = .ok t₁') :
    t.Inserted gap head (taken ++ [c]) t₁' := by
  have hgap := h.gap_le
  have hold := h.size_eq
  have hchildren := ht'.children_attach (by omega) hok
  have hbut : ∀ xs : List Nat, (xs.map (shift gap)).filter (· != shift gap c) =
      (xs.filter (· != c)).map (shift gap) := by
    intro xs
    rw [List.filter_map]
    congr 2
    ext x
    rw [Function.comp_apply, Bool.eq_iff_iff, bne_iff_ne, bne_iff_ne, (shift_injective gap).ne_iff]
  refine ⟨hgap, ?_, ?_, ?_, ?_, ?_, ?_, h.closed⟩
  · rw [size_attach hok, hold]
  · intro x hx
    rcases List.mem_append.1 hx with hx | hx
    · exact h.taken_lt x hx
    · rwa [List.mem_singleton.1 hx]
  · intro x hx
    rw [header_attach hok, h.header_eq x hx]
  · intro x
    rw [hchildren, if_neg (shift_ne gap x), List.append_nil, h.children_eq, hbut,
      List.filter_filter]
    congr 2
    ext y
    by_cases hy : y = c <;> simp [hy]
  · rw [header_attach hok, h.header_gap]
  · have hkeep : taken.filter (· != c) = taken := by
      apply List.filter_eq_self.2
      intro x hx
      rw [bne_iff_ne]
      rintro rfl
      exact hfree hx
    rw [hchildren, if_pos rfl, h.children_gap, hbut, hkeep, List.map_append]
    rfl

/-- Once the first table has made the row too, around the same statements, the tables differ in
their positions only. -/
theorem renamed {count : Nat} (h : t.Inserted gap (k, a) ids t') (ht : t.Forest) (ht' : t'.Forest)
    (hnew : t.Assembled k a ids t.size t₁) (hsize : t₁.size = t.size + 1)
    (hcount : t.size = gap + count) : t₁.Renamed (hoist gap count) t' := by
  have hold := h.size_eq
  have hmap : ∀ xs : List Nat, (∀ x ∈ xs, x < t.size) →
      xs.map (hoist gap count) = xs.map (shift gap) := fun xs hxs =>
    List.map_congr_left fun x hx => hoist_of_lt_last gap count (hcount ▸ hxs x hx)
  -- a position is old, or that of the row itself, or past the end of both tables
  refine ⟨fun x => ?_, fun x => ?_⟩
  · rcases Nat.lt_trichotomy x t.size with hx | rfl | hx
    · rw [hoist_of_lt_last gap count (by omega), h.header_eq x hx,
        hnew.header_of_ne x hx (by omega)]
    · rw [hnew.header_eq, hcount, hoist_last, h.header_gap]
    · rw [hoist_of_last_lt gap count (by omega), header, header, keyword, keyword, argument,
        argument, row_of_size_le (by omega), row_of_size_le (by omega)]
  · rcases Nat.lt_trichotomy x t.size with hx | rfl | hx
    · rw [hoist_of_lt_last gap count (by omega), h.children_eq, hnew.children_of_ne x (by omega),
        hmap]
      exact fun c hc => ht.listed_lt (List.mem_of_mem_filter hc)
    · have hnodup : ids.Nodup := by
        have hlisted := ht'.nodup gap
        rw [h.children_gap] at hlisted
        exact hlisted.of_map _
      rw [hnew.children_eq, hnodup.dedup, hmap ids h.taken_lt, hcount, hoist_last, h.children_gap]
    · rw [hoist_of_last_lt gap count (by omega), children_of_size_le (by omega),
        children_of_size_le (by omega)]
      rfl

end Inserted

end YangDoc.Tree
