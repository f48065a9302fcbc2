/-!
# Statements

A statement as a value: a keyword, an optional argument and substatements in order. It belongs to
no document; documents copy such values into their tables and give them back as snapshots.
-/

namespace YangDoc

structure Statement where
  keyword : String
  argument : Option String := none
  children : List Statement := []
deriving Repr, Inhabited

namespace Statement

mutual

/-- Equality of statements can be decided, part by part. -/
def decEq : (a b : Statement) → Decidable (a = b)
  | ⟨k, x, cs⟩, ⟨l, y, ds⟩ =>
    if h : k = l ∧ x = y then
      match decEqAll cs ds with
      | isTrue hc => isTrue (by rw [h.1, h.2, hc])
      | isFalse hc => isFalse fun e => hc (by injection e)
    else isFalse fun e => h (by injection e with hk hx; exact ⟨hk, hx⟩)

def decEqAll : (as bs : List Statement) → Decidable (as = bs)
  | [], [] => isTrue rfl
  | [], _ :: _ => isFalse (by simp)
  | _ :: _, [] => isFalse (by simp)
  | a :: as, b :: bs =>
    match decEq a b, decEqAll as bs with
    | isTrue h, isTrue hs => isTrue (by rw [h, hs])
    | isFalse h, _ => isFalse fun e => h (by injection e)
    | _, isFalse hs => isFalse fun e => hs (by injection e)

end

instance : DecidableEq Statement :=
  decEq

mutual

/-- Number of statements in the tree, the outermost one included. -/
def size : Statement → Nat
  | ⟨_, _, children⟩ => sizeAll children + 1

def sizeAll : List Statement → Nat
  | [] => 0
  | s :: rest => size s + sizeAll rest

end

/-- Keyword and argument on one line. -/
def headline (s : Statement) : String :=
  match s.argument with
  | none => s.keyword
  | some argument => s.keyword ++ " " ++ argument

end Statement

end YangDoc
