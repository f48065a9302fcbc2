import Mathlib.Data.List.Forall2
import YangDoc.Proofs.Construction.Outcome
import YangDoc.Proofs.Expr.Nodes

/-!
# The grammar of JSON expressions

An array is an expression if it holds a keyword, then perhaps a scalar, then perhaps an array of
expressions. Here this is said three times. `IsExpression` is the set of these values, `Reads` says
which tuple each of them stands for, and `fault?` looks for what is wrong with a single value, in a
fixed order and without going into its substatements. The reader accepts exactly the set, gives the
tuple, and otherwise reports the first fault that is met when the values in the place of expressions
are taken in pre-order.
-/

namespace YangDoc

namespace Json

/-! ### What is accepted, and what it stands for -/

inductive Scalar : Json → Option String → Prop where
  | null : Scalar .null none
  | bool (value : Bool) : Scalar (.bool value) (some (if value then "true" else "false"))
  | number (value : Number) : Scalar (.number value) (some value.toText)
  | string (value : String) : Scalar (.string value) (some value)

/-- The least set of values that are built like expressions. -/
inductive IsExpression : Json → Prop where
  | keyword (k : String) : IsExpression (.array [.string k])
  | argument (k : String) {a : Json} {text : Option String} (ha : a.Scalar text) :
      IsExpression (.array [.string k, a])
  | children (k : String) {cs : List Json} (hcs : ∀ c ∈ cs, IsExpression c) :
      IsExpression (.array [.string k, .array cs])
  | full (k : String) {a : Json} {text : Option String} {cs : List Json} (ha : a.Scalar text)
      (hcs : ∀ c ∈ cs, IsExpression c) : IsExpression (.array [.string k, a, .array cs])

/-- The tuple that a value stands for. -/
inductive Reads : Json → Expr → Prop where
  | keyword (k : String) : Reads (.array [.string k]) (.tuple k none [])
  | argument (k : String) {a : Json} {text : Option String} (ha : a.Scalar text) :
      Reads (.array [.string k, a]) (.tuple k text [])
  | children (k : String) {cs : List Json} {es : List Expr} (hcs : List.Forall₂ Reads cs es) :
      Reads (.array [.string k, .array cs]) (.tuple k none es)
  | full (k : String) {a : Json} {text : Option String} {cs : List Json} {es : List Expr}
      (ha : a.Scalar text) (hcs : List.Forall₂ Reads cs es) :
      Reads (.array [.string k, a, .array cs]) (.tuple k text es)

/-! ### Faults -/

/-- The first element has to be there, and it has to be a string. -/
def keywordFault? : List Json → Option Fault
  | [] => some .empty
  | .string _ :: _ => none
  | value :: _ => some (.keywordNotString value.kind)

/-- There have to be at most three elements. -/
def arityFault? : List Json → Option Fault
  | .string keyword :: rest =>
    if 3 < rest.length + 1 then some (.tooManyElements keyword (rest.length + 1)) else none
  | _ => none

/-- The last of three elements has to be an array. -/
def childrenFault? : List Json → Option Fault
  | [_, _, .array _] => none
  | [_, _, value] => some (.childrenNotArray value.kind)
  | _ => none

def scalarFault? : Json → Option Fault
  | .array _ => some (.argumentNotScalar .array)
  | .object _ => some (.argumentNotScalar .object)
  | _ => none

/-- The second element has to be a scalar, unless it is the last one and an array. -/
def argumentFault? : List Json → Option Fault
  | [_, .array _] => none
  | [_, value] => scalarFault? value
  | [_, value, _] => scalarFault? value
  | _ => none

def fault? : Json → Option Fault
  | .array items =>
    keywordFault? items <|> arityFault? items <|> childrenFault? items <|> argumentFault? items
  | value => some (.notArray value.kind)

mutual

/-- The value and the values below it that stand in the place of expressions, in pre-order. -/
def places : Json → List Json
  | .array [keyword, .array children] => .array [keyword, .array children] :: placesAll children
  | .array [keyword, argument, .array children] =>
    .array [keyword, argument, .array children] :: placesAll children
  | value => [value]

def placesAll : List Json → List Json
  | [] => []
  | value :: rest => places value ++ placesAll rest

end

def firstFault? (values : List Json) : Option Fault :=
  values.findSome? fault?

variable {v : Json} {rest : List Json} {fault : Fault}

theorem firstFault?_cons_of_none (hv : v.fault? = none) :
    firstFault? (v :: rest) = firstFault? rest := by
  rw [firstFault?, List.findSome?_cons, hv]
  rfl

theorem firstFault?_append (vs : List Json) :
    firstFault? (vs ++ rest) = (firstFault? vs).or (firstFault? rest) :=
  List.findSome?_append

theorem places_eq_cons (v : Json) : ∃ below, v.places = v :: below := by
  unfold places
  split
  · exact ⟨_, rfl⟩
  · exact ⟨_, rfl⟩
  · exact ⟨[], rfl⟩

/-- A value is looked at before the values below it. -/
theorem firstFault?_places (hv : v.fault? = some fault) : firstFault? v.places = some fault := by
  obtain ⟨below, hbelow⟩ := v.places_eq_cons
  rw [hbelow, firstFault?, List.findSome?_cons, hv]

end Json

namespace Expr

open Json

/-! ### Reading -/

theorem argumentOfJson_of_scalar {a : Json} {text : Option String} (ha : a.Scalar text) :
    argumentOfJson a = .ok text := by
  cases ha <;> rfl

theorem argumentOfJson_cases (a : Json) :
    (∃ text, a.Scalar text ∧ scalarFault? a = none) ∨
      ∃ fault, argumentOfJson a = .error fault ∧ scalarFault? a = some fault := by
  cases a with
  | null => exact .inl ⟨_, .null, rfl⟩
  | bool value => exact .inl ⟨_, .bool value, rfl⟩
  | number value => exact .inl ⟨_, .number value, rfl⟩
  | string value => exact .inl ⟨_, .string value, rfl⟩
  | array items => exact .inr ⟨_, rfl, rfl⟩
  | object fields => exact .inr ⟨_, rfl, rfl⟩

mutual

theorem ofJson_of_reads : ∀ {v : Json} {e : Expr}, v.Reads e → ofJson v = .ok e
  | _, _, .keyword _ => rfl
  | _, _, .argument _ ha => by
    cases ha <;> rfl
  | _, _, .children _ hcs => by
    rw [ofJson, ofJsonAll_of_reads hcs]
    rfl
  | _, _, .full _ ha hcs => by
    rw [ofJson, argumentOfJson_of_scalar ha, ofJsonAll_of_reads hcs]
    rfl

theorem ofJsonAll_of_reads : ∀ {vs : List Json} {es : List Expr}, List.Forall₂ Reads vs es →
    ofJsonAll vs = .ok es
  | _, _, .nil => rfl
  | _, _, .cons hv hvs => by
    rw [ofJsonAll, ofJson_of_reads hv, ofJsonAll_of_reads hvs]
    rfl

end

/-- The reader has failed with the fault that was found, or none was found and what it gives is
good. -/
def Agrees {α : Type} (found : Option Fault) (good : α → Prop) : Except Fault α → Prop
  | .error fault => found = some fault
  | .ok a => found = none ∧ good a

theorem Agrees.map {α β : Type} {found : Option Fault} {good : α → Prop} {good' : β → Prop}
    {result : Except Fault α} {f : α → β} (h : Agrees found good result)
    (hf : ∀ a, good a → good' (f a)) : Agrees found good' (do return f (← result)) := by
  cases result with
  | error fault => exact h
  | ok a => exact ⟨h.1, hf a h.2⟩

-- the cases are those of the reader: one for each form of an array, then the elements in turn
theorem agrees_ofJson :
    (∀ v, Agrees (firstFault? v.places) (fun e => v.IsExpression ∧ v.Reads e) (ofJson v)) ∧
      ∀ vs, Agrees (firstFault? (placesAll vs))
        (fun es => (∀ v ∈ vs, v.IsExpression) ∧ List.Forall₂ Reads vs es) (ofJsonAll vs) := by
  refine ofJson.mutual_induct
    (fun v => Agrees (firstFault? v.places) (fun e => v.IsExpression ∧ v.Reads e) (ofJson v))
    (fun vs => Agrees (firstFault? (placesAll vs))
      (fun es => (∀ v ∈ vs, v.IsExpression) ∧ List.Forall₂ Reads vs es) (ofJsonAll vs))
    ?_ ?_ ?_ ?_ ?_ ?_ ?_ ?_ ?_ ?_ ?_
  · exact firstFault?_places rfl
  · intro k
    exact ⟨rfl, .keyword k, .keyword k⟩
  · intro k children ih
    rw [ofJson, places, firstFault?_cons_of_none rfl]
    exact ih.map fun es hes => ⟨.children k hes.1, .children k hes.2⟩
  · intro k argument hargument
    have hfault : fault? (.array [.string k, argument]) = scalarFault? argument := by
      cases argument with
      | array items => exact absurd rfl (hargument items)
      | _ => rfl
    rcases argumentOfJson_cases argument with ⟨text, ha, hnone⟩ | ⟨fault, herr, hsome⟩
    · rw [ofJson_of_reads (.argument k ha)]
      have hplaces : places (.array [.string k, argument]) = [.array [.string k, argument]] := by
        cases ha <;> rfl
      rw [hplaces, firstFault?_cons_of_none (hfault.trans hnone)]
      exact ⟨rfl, .argument k ha, .argument k ha⟩
    · rw [ofJson, herr]
      · exact firstFault?_places (hfault.trans hsome)
      · exact hargument
  · intro k argument children ih
    have hfault :
        fault? (.array [.string k, argument, .array children]) = scalarFault? argument := by
      cases argument <;> rfl
    rcases argumentOfJson_cases argument with ⟨text, ha, hnone⟩ | ⟨fault, herr, hsome⟩
    · rw [ofJson, argumentOfJson_of_scalar ha, places, firstFault?_cons_of_none (hfault.trans hnone)]
      exact ih.map fun es hes => ⟨.full k ha hes.1, .full k ha hes.2⟩
    · rw [ofJson, herr]
      exact firstFault?_places (hfault.trans hsome)
  · intro k argument children hchildren
    rw [ofJson]
    · refine firstFault?_places ?_
      cases children with
      | array items => exact absurd rfl (hchildren items)
      | _ => rfl
    · exact hchildren
  · intro k rest hnone harray hargument hfull hthree
    rw [ofJson]
    · refine firstFault?_places ?_
      obtain _ | ⟨a, _ | ⟨c, _ | ⟨b, more⟩⟩⟩ := rest
      · exact absurd rfl hnone
      · exact absurd rfl (hargument a)
      · exact absurd rfl (hthree a c)
      · rfl
    all_goals assumption
  · intro keyword tail _ _ _ _ _ hkeyword
    rw [ofJson]
    · refine firstFault?_places ?_
      cases keyword with
      | string k => exact absurd rfl (hkeyword k)
      | _ => rfl
    all_goals assumption
  · intro value hempty _ _ _ _ _ _ hitems
    cases value with
    | array items =>
      cases items with
      | nil => exact absurd rfl hempty
      | cons first rest => exact absurd rfl (hitems first rest)
    | _ => exact firstFault?_places rfl
  · exact ⟨rfl, by simp, .nil⟩
  · intro v rest ih ihrest
    rw [ofJsonAll, placesAll, firstFault?_append]
    cases hv : ofJson v with
    | error fault =>
      rw [hv] at ih
      have hfound : firstFault? v.places = some fault := ih
      rw [hfound]
      rfl
    | ok e =>
      rw [hv] at ih
      obtain ⟨hnone, hexpr, hreads⟩ := ih
      rw [hnone, Option.none_or]
      exact ihrest.map fun es hes => ⟨List.forall_mem_cons.2 ⟨hexpr, hes.1⟩, .cons hreads hes.2⟩

/-! ### The reader and the grammar -/

theorem exists_reads {v : Json} (hv : v.IsExpression) : ∃ e, v.Reads e := by
  have hall : ∀ {vs : List Json}, (∀ v ∈ vs, ∃ e, v.Reads e) → ∃ es, List.Forall₂ Reads vs es := by
    intro vs hvs
    choose! f hf using hvs
    exact ⟨vs.map f, List.forall₂_map_right_iff.2 (List.forall₂_same.2 hf)⟩
  induction hv with
  | keyword k => exact ⟨_, .keyword k⟩
  | argument k ha => exact ⟨_, .argument k ha⟩
  | children k _ ih =>
    obtain ⟨es, hes⟩ := hall ih
    exact ⟨_, .children k hes⟩
  | full k ha _ ih =>
    obtain ⟨es, hes⟩ := hall ih
    exact ⟨_, .full k ha hes⟩

theorem ofJson_ok_iff {v : Json} {e : Expr} : ofJson v = .ok e ↔ v.Reads e := by
  refine ⟨fun hok => ?_, ofJson_of_reads⟩
  have h := agrees_ofJson.1 v
  rw [hok] at h
  exact h.2.2

theorem ofJson_error_iff {v : Json} {fault : Fault} :
    ofJson v = .error fault ↔ firstFault? v.places = some fault := by
  have h := agrees_ofJson.1 v
  cases hv : ofJson v with
  | error found =>
    rw [hv] at h
    have hfound : firstFault? v.places = some found := h
    simp [hfound]
  | ok e =>
    rw [hv] at h
    simp [h.1]

theorem isExpression_iff {v : Json} : v.IsExpression ↔ ∃ e, ofJson v = .ok e := by
  constructor
  · intro hv
    obtain ⟨e, he⟩ := exists_reads hv
    exact ⟨e, ofJson_of_reads he⟩
  · rintro ⟨e, he⟩
    have h := agrees_ofJson.1 v
    rw [he] at h
    exact h.2.1

/-- The reader accepts the values of the grammar and no others, and reads from each the tuple that
it stands for, in which there is neither a node nor a statement. Of any other value it reports the
fault of the first value in pre-order that has one, and then nothing is built. -/
theorem ofJson_exact (v : Json) :
    ((∃ e, ofJson v = .ok e) ↔ v.IsExpression) ∧
      (∀ e, ofJson v = .ok e ↔ v.Reads e) ∧
      (∀ e, ofJson v = .ok e → e.nodes = [] ∧ e.values = []) ∧
      (∀ fault, ofJson v = .error fault ↔
        ∃ before value after, v.places = before ++ value :: after ∧
          value.fault? = some fault ∧ ∀ earlier ∈ before, earlier.fault? = none) ∧
      ∀ fault (d : Document) (w : Workspace), ofJson v = .error fault →
        (d.ofJson v).outcome w = (.error (.malformed fault), w) ∧
          (Error.malformed fault).category = .invalidArgument := by
  refine ⟨isExpression_iff.symm, fun e => ofJson_ok_iff, fun e he => ?_, fun fault => ?_, ?_⟩
  · exact ⟨nodes_ofJson he, values_ofJson he⟩
  · rw [ofJson_error_iff, firstFault?, List.findSome?_eq_some_iff]
  · intro fault d w herr
    rw [Document.ofJson, herr]
    exact ⟨rfl, rfl⟩

/-- Two of the substatements are at fault, and the one on the left is reported, although it has the
fault in its own substatement and the other one has it at the top. -/
theorem ofJson_exact_two_faults :
    let inner : Json := .array [.string "type", .object []]
    let left : Json := .array [.string "leaf", .array [inner]]
    let value : Json := .array [.string "list", .bool true, .array [left, .null]]
    (ofJson value = .error (.argumentNotScalar .object) ∧ ¬ value.IsExpression) ∧
      (Document.ofJson ⟨0⟩ value).outcome {} =
        (.error (.malformed (.argumentNotScalar .object)), {}) := by
  intro inner left value
  have herr : ofJson value = .error (.argumentNotScalar .object) := by
    refine ((ofJson_exact value).2.2.2.1 _).2 ⟨[value, left], inner, [.null], rfl, rfl, ?_⟩
    simp only [List.forall_mem_cons]
    exact ⟨rfl, rfl, by simp⟩
  refine ⟨⟨herr, ?_⟩, ((ofJson_exact value).2.2.2.2 _ _ _ herr).1⟩
  rw [← (ofJson_exact value).1, herr]
  simp

end Expr
end YangDoc
