import Mathlib.Algebra.Group.Nat.Defs
import Mathlib.Data.List.Enum
import YangDoc.NodeList

/-!
# Slices at the limits

The bounds of a slice are words of 64 bits. An excluded start and an included end are moved on by
one position, and the largest word cannot be; a bound may lie past the end of the list, and the end
before the start. None of this shows in the result. Positions in a list do not come near the largest
word, so a bound that stays there admits the same members as if it had been moved on. And as the
length limits the end, and the end limits the start, the cut is always made inside of the list.

So a slice is what the bounds say when they are read as numbers without a limit: the members at the
positions that both of them admit, in order.
-/

namespace YangDoc

theorem toNat_nextPosition (n : UInt64) :
    (nextPosition n).toNat = min (n.toNat + 1) (2 ^ 64 - 1) := by
  have hmax : (0xFFFFFFFFFFFFFFFF : UInt64).toNat = 2 ^ 64 - 1 := by decide
  have hlt := n.toNat_lt
  unfold nextPosition
  split
  · rename_i heq
    rw [heq, hmax]
    omega
  · rename_i hne
    have hsmall : n.toNat ≠ 2 ^ 64 - 1 := by
      rw [← hmax]
      exact fun heq => hne (UInt64.toNat_inj.1 heq)
    rw [UInt64.toNat_add, UInt64.toNat_one, Nat.mod_eq_of_lt (by omega)]
    omega

/-! ### Bounds as numbers and as words -/

namespace Bound

def admitsFrom (i : Nat) : Bound → Bool
  | unbounded => true
  | included n => n.toNat ≤ i
  | excluded n => n.toNat < i

def admitsTo (i : Nat) : Bound → Bool
  | unbounded => true
  | included n => i ≤ n.toNat
  | excluded n => i < n.toNat

/-- Where a range begins that starts with the bound. -/
def first : Bound → UInt64
  | unbounded => 0
  | included n => n
  | excluded n => nextPosition n

/-- The end of a range that ends with the bound, one past its last position. -/
def last (length : UInt64) : Bound → UInt64
  | unbounded => length
  | included n => nextPosition n
  | excluded n => n

variable {i : Nat}

/-- Below the largest word, the word tells the same as the number that it stands for. -/
theorem first_le_iff (start : Bound) (hi : i < 2 ^ 64 - 1) :
    start.first.toNat ≤ i ↔ start.admitsFrom i = true := by
  cases start with
  | unbounded => exact iff_of_true (Nat.zero_le i) rfl
  | included n => exact decide_eq_true_iff.symm
  | excluded n =>
    rw [first, toNat_nextPosition, admitsFrom, decide_eq_true_iff]
    omega

theorem lt_last_iff (stop : Bound) (length : UInt64) (hi : i < 2 ^ 64 - 1)
    (hlength : i < length.toNat) :
    i < (stop.last length).toNat ↔ stop.admitsTo i = true := by
  cases stop with
  | unbounded => exact iff_of_true hlength rfl
  | included n =>
    rw [last, toNat_nextPosition, admitsTo, decide_eq_true_iff]
    omega
  | excluded n => exact decide_eq_true_iff.symm

end Bound

/-- A cut keeps what stands at the positions between its ends. The positions are counted from `k` on,
so that the induction can go along the list. -/
theorem drop_take_eq_filter {α : Type} (xs : List α) (first last k : Nat) :
    (xs.take (last - k)).drop (first - k) =
      ((xs.zipIdx k).filter fun m => first ≤ m.2 && m.2 < last).map Prod.fst := by
  induction xs generalizing k with
  | nil =>
    rw [List.take_nil, List.drop_nil]
    rfl
  | cons x xs ih =>
    rw [List.zipIdx_cons, List.filter_cons]
    rcases Nat.lt_or_ge k last with hlast | hlast
    · have hcount : last - k = last - (k + 1) + 1 := by omega
      rcases Nat.lt_or_ge k first with hfirst | hfirst
      · have hbefore : first - k = first - (k + 1) + 1 := by omega
        rw [if_neg (by simp; omega), ← ih (k + 1), hcount, hbefore]
        rfl
      · have hhere : first - k = 0 ∧ first - (k + 1) = 0 := by omega
        rw [if_pos (by simp; omega), List.map_cons, ← ih (k + 1), hcount, hhere.1, hhere.2]
        rfl
    · have hpast : last - k = 0 ∧ last - (k + 1) = 0 := by omega
      rw [if_neg (by simp; omega), ← ih (k + 1), hpast.1, hpast.2, List.take_zero, List.take_zero,
        List.drop_nil, List.drop_nil]

namespace NodeList

/-! ### Cuts inside of the list -/

/-- The members from one position up to another. It is only defined for positions inside of the list
that come in this order. -/
def between? (nodes : NodeList) (first last : UInt64) : Option NodeList :=
  if first ≤ last ∧ last.toNat ≤ nodes.length then
    some ((nodes.take last.toNat).drop first.toNat)
  else none

/-- A slice worked out in words: the length of the list limits the end, the end limits the start,
and the cut is made between them. -/
def slice? (nodes : NodeList) (start stop : Bound) : Option NodeList :=
  let length := UInt64.ofNat nodes.length
  let last := min (stop.last length) length
  nodes.between? (min start.first last) last

variable {nodes : NodeList}

theorem toNat_length (hlength : nodes.length < 2 ^ 63) :
    (UInt64.ofNat nodes.length).toNat = nodes.length := by
  apply UInt64.toNat_ofNat_of_lt'
  show nodes.length < 2 ^ 64
  omega

theorem slice_eq (start stop : Bound) (hlength : nodes.length < 2 ^ 63) :
    nodes.slice start stop =
      (nodes.take (stop.last (UInt64.ofNat nodes.length)).toNat).drop start.first.toNat := by
  have hstart : nodes.slice start stop =
      (nodes.slice .unbounded stop).drop start.first.toNat := by
    cases start <;> rfl
  have hstop : nodes.slice .unbounded stop =
      nodes.take (stop.last (UInt64.ofNat nodes.length)).toNat := by
    cases stop with
    | unbounded =>
      show (nodes.take nodes.length).drop 0 = nodes.take (UInt64.ofNat nodes.length).toNat
      rw [toNat_length hlength, List.drop_zero]
    | included n => rfl
    | excluded n => rfl
  rw [hstart, hstop]

/-- The cut is made inside of the list, and the limits take nothing away from it. -/
theorem slice?_eq (start stop : Bound) (hlength : nodes.length < 2 ^ 63) :
    nodes.slice? start stop = some (nodes.slice start stop) := by
  unfold slice? between?
  dsimp only
  have hinside : ∀ first last : UInt64, min first last ≤ last := by
    intro first last
    rw [UInt64.le_iff_toNat_le, UInt64.toNat_min]
    exact Nat.min_le_right _ _
  have hwithin : (min (stop.last (UInt64.ofNat nodes.length))
      (UInt64.ofNat nodes.length)).toNat ≤ nodes.length := by
    rw [UInt64.toNat_min, toNat_length hlength]
    exact Nat.min_le_right _ _
  rw [if_pos ⟨hinside _ _, hwithin⟩, slice_eq start stop hlength, UInt64.toNat_min,
    UInt64.toNat_min, toNat_length hlength, ← List.take_eq_take_min, List.drop_eq_drop_iff.2]
  rw [List.length_take]
  omega

theorem slice_eq_filter (start stop : Bound) (hlength : nodes.length < 2 ^ 63) :
    nodes.slice start stop =
      (nodes.zipIdx.filter fun m => start.admitsFrom m.2 && stop.admitsTo m.2).map Prod.fst := by
  have hcut := drop_take_eq_filter nodes start.first.toNat
    (stop.last (UInt64.ofNat nodes.length)).toNat 0
  rw [Nat.sub_zero, Nat.sub_zero] at hcut
  rw [slice_eq start stop hlength, hcut]
  congr 1
  apply List.filter_congr
  intro m hm
  have hlt : m.2 < nodes.length := List.snd_lt_of_mem_zipIdx hm
  have hfirst := start.first_le_iff (i := m.2) (by omega)
  have hlast := stop.lt_last_iff (i := m.2) (UInt64.ofNat nodes.length) (by omega)
    (by rwa [toNat_length hlength])
  rw [Bool.eq_iff_iff, Bool.and_eq_true, Bool.and_eq_true, decide_eq_true_iff, decide_eq_true_iff,
    hfirst, hlast]

/-- A slice is made for all bounds, also the largest ones and those in the wrong order: no bound is
moved on past the largest word, the cut is made inside of the list, and it gives the members at
exactly those positions that both bounds admit, in order. -/
theorem slice_exact (nodes : NodeList) (start stop : Bound) (hlength : nodes.length < 2 ^ 63) :
    (∀ n, (nextPosition n).toNat = min (n.toNat + 1) (2 ^ 64 - 1)) ∧
    nodes.slice? start stop = some (nodes.slice start stop) ∧
    nodes.slice start stop =
      (nodes.zipIdx.filter fun m => start.admitsFrom m.2 && stop.admitsTo m.2).map Prod.fst :=
  ⟨toNat_nextPosition, slice?_eq start stop hlength, slice_eq_filter start stop hlength⟩

/-- Of three members the second and the third come after the first, up to the largest word; none
comes after the largest word, and none lies between bounds in the wrong order. -/
theorem slice_exact_limits :
    let nodes : NodeList := [⟨⟨0⟩, 0⟩, ⟨⟨0⟩, 1⟩, ⟨⟨0⟩, 2⟩]
    nodes.length < 2 ^ 63 ∧
      nodes.slice? (.excluded 0) (.included 0xFFFFFFFFFFFFFFFF) = some [⟨⟨0⟩, 1⟩, ⟨⟨0⟩, 2⟩] ∧
      nodes.slice? (.excluded 0xFFFFFFFFFFFFFFFF) .unbounded = some [] ∧
      nodes.slice? (.included 2) (.excluded 1) = some [] := by
  intro nodes
  have hlength : nodes.length < 2 ^ 63 := by decide
  have hmade : ∀ start stop, nodes.slice? start stop =
      some ((nodes.zipIdx.filter fun m => start.admitsFrom m.2 && stop.admitsTo m.2).map Prod.fst)
      := by
    intro start stop
    obtain ⟨-, hinside, hmembers⟩ := slice_exact nodes start stop hlength
    rw [hinside, hmembers]
  exact ⟨hlength, (hmade _ _).trans (by decide), (hmade _ _).trans (by decide),
    (hmade _ _).trans (by decide)⟩

end NodeList

end YangDoc
