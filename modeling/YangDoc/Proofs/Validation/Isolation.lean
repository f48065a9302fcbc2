import Mathlib.Data.List.DropRight
import Mathlib.Logic.Function.Basic
import Mathlib.Tactic.Common
import YangDoc.Validation

/-!
# Runs and their contexts

A context may be shared by many runs, with diagnostics put into it and cleared in between. No run
shows in it afterwards, and nothing that it holds shows in a run: a run starts with an empty list
whatever the context holds, and gives the context back. So the outcomes of any sequence of calls are
those of the runs alone, each made without a context, and what a context holds is the account of the
calls that put something into it or clear it.

A check may itself start runs on the context that it has been given, and these again. The same
account holds inside it: the runs that it starts leave its list alone.
-/

namespace YangDoc

/-! ### Single runs -/

/-- A validation to be made. The checks may do anything with the documents and with the context that
they are given. -/
structure Inspection where
  node : Node
  /-- The context that is created for a run without one. -/
  created : Context := {}
  check : Node → Context → StateM Workspace (Bool × Context)
  allowWarnings : Bool := false
  strict : Bool := false

namespace Verdict

/-- An invalid verdict as an error. -/
def strictly (verdict : Verdict) : Except Error Verdict :=
  if verdict.valid then .ok verdict else .error (.validationFailed verdict.diagnostics)

/-- What a run comes to when it has found these diagnostics. -/
def judged (strict allowWarnings accepted : Bool) (found : List Diagnostic) :
    Except Error Verdict :=
  if strict then (Verdict.of accepted allowWarnings found).strictly
  else .ok (Verdict.of accepted allowWarnings found)

theorem valid_of_iff {accepted allowWarnings : Bool} {found : List Diagnostic} :
    (Verdict.of accepted allowWarnings found).valid = true ↔
      accepted = true ∧ (∀ d ∈ found, d.isError = false) ∧
        (allowWarnings = true ∨ ∀ d ∈ found, d.isError = true) := by
  simp [Verdict.of, and_assoc]

end Verdict

namespace Node

variable (n : Node) (context : Option Context) (allowWarnings : Bool) (w : Workspace)

/-- The context is given back as it was, and the checks start with an empty one. -/
theorem run_validate_with (created : Context)
    (check : Node → Context → StateM Workspace (Bool × Context)) :
    (n.validate ⟨pure created, check⟩ context allowWarnings).run w =
      if Keyword.isRoot (n.keyword w) then
        let run := (check n {}).run w
        ((.ok (Verdict.of run.1.1 allowWarnings run.1.2.diagnostics), context), run.2)
      else ((.error (.notTopLevel (n.keyword w)), context), w) := by
  show (if Keyword.isRoot (n.keyword w) then _ else _ : StateM Workspace _).run w = _
  by_cases hroot : Keyword.isRoot (n.keyword w)
  · rw [if_pos hroot, if_pos hroot]
    cases context with
    | none => rfl
    | some before => rfl
  · rw [if_neg hroot, if_neg hroot]
    rfl

theorem run_validateStrict (validator : Validator (StateM Workspace)) :
    (n.validateStrict validator context allowWarnings).run w =
      let run := (n.validate validator context allowWarnings).run w
      ((run.1.1 >>= Verdict.strictly, run.1.2), run.2) := by
  show StateT.run (n.validate validator context allowWarnings >>= _) w = _
  rw [StateT.run_bind]
  rcases (n.validate validator context allowWarnings).run w with ⟨⟨_ | ⟨valid, found⟩, after⟩, w'⟩
  · rfl
  · cases valid with
    | false => rfl
    | true => rfl

end Node

namespace Inspection

variable (i : Inspection) (context : Option Context) (w : Workspace)

def perform : StateM Workspace (Except Error Verdict × Option Context) :=
  if i.strict then i.node.validateStrict ⟨pure i.created, i.check⟩ context i.allowWarnings
  else i.node.validate ⟨pure i.created, i.check⟩ context i.allowWarnings

/-- What comes of the run, and the documents after it. No context is mentioned. -/
def outcome : Except Error Verdict × Workspace :=
  if Keyword.isRoot (i.node.keyword w) then
    let run := (i.check i.node {}).run w
    (Verdict.judged i.strict i.allowWarnings run.1.1 run.1.2.diagnostics, run.2)
  else (.error (.notTopLevel (i.node.keyword w)), w)

theorem run_perform : (i.perform context).run w = (((i.outcome w).1, context), (i.outcome w).2) := by
  unfold perform outcome Verdict.judged
  cases i.strict with
  | false =>
    rw [if_neg Bool.false_ne_true, Node.run_validate_with]
    split <;> rfl
  | true =>
    rw [if_pos rfl, Node.run_validateStrict, Node.run_validate_with]
    split <;> rfl

end Inspection

/-! ### Calls one after the other -/

/-- A call that concerns contexts, each of which has a number. -/
inductive Step where
  | push (name : Nat) (d : Diagnostic)
  | clear (name : Nat)
  | inspect (i : Inspection) (context : Option Nat)

/-- The documents, and what each context holds. -/
structure Session where
  workspace : Workspace
  contexts : Nat → Context := fun _ => {}

namespace Session

def setContext (session : Session) (name : Nat) (context : Context) : Session :=
  { session with contexts := Function.update session.contexts name context }

/-- The session after a call, and what came of the run if the call was one. -/
def perform (session : Session) : Step → List (Except Error Verdict) × Session
  | .push name d => ([], session.setContext name ((session.contexts name).push d))
  | .clear name => ([], session.setContext name (session.contexts name).clear)
  | .inspect i none =>
    let run := (i.perform none).run session.workspace
    ([run.1.1], { session with workspace := run.2 })
  | .inspect i (some name) =>
    let run := (i.perform (some (session.contexts name))).run session.workspace
    ([run.1.1], { session with workspace := run.2 }.setContext name (run.1.2.getD {}))

def play : Session → List Step → List (Except Error Verdict) × Session
  | session, [] => ([], session)
  | session, s :: rest =>
    let (results, next) := session.perform s
    let (later, last) := next.play rest
    (results ++ later, last)

end Session

namespace Step

def clears (name : Nat) : Step → Bool
  | .clear cleared => cleared == name
  | _ => false

def pushed? (name : Nat) : Step → Option Diagnostic
  | .push target d => if target = name then some d else none
  | _ => none

def inspection? : Step → Option Inspection
  | .inspect i _ => some i
  | _ => none

theorem pushed?_of_clears {name : Nat} {s : Step} (hs : s.clears name = true) :
    s.pushed? name = none := by
  cases s with
  | push target d => simp [clears] at hs
  | clear cleared => rfl
  | inspect i context => rfl

end Step

/-- Runs alone, one after the other and each without a context. -/
def Inspection.runAll : List Inspection → Workspace → List (Except Error Verdict) × Workspace
  | [], w => ([], w)
  | i :: rest, w =>
    let run := (i.perform none).run w
    let (later, last) := runAll rest run.2
    (run.1.1 :: later, last)

namespace Session

variable (session : Session) (name : Nat)

theorem perform_inspect (i : Inspection) (context : Option Nat) :
    session.perform (.inspect i context) =
      ([(i.outcome session.workspace).1],
        { session with workspace := (i.outcome session.workspace).2 }) := by
  cases context with
  | none => rw [perform, i.run_perform]
  | some name =>
    rw [perform, i.run_perform]
    simp [setContext]

/-- One call: a context loses what it held if it is cleared, and gains what is put into it. -/
theorem diagnostics_perform (s : Step) :
    ((session.perform s).2.contexts name).diagnostics =
      (if s.clears name then [] else (session.contexts name).diagnostics) ++
        (s.pushed? name).toList := by
  cases s with
  | push target d =>
    by_cases heq : name = target
    · subst heq
      simp [perform, setContext, Step.clears, Step.pushed?, Context.push]
    · simp [perform, setContext, Step.clears, Step.pushed?, heq, Ne.symm heq]
  | clear cleared =>
    by_cases heq : name = cleared
    · subst heq
      simp [perform, setContext, Step.clears, Step.pushed?, Context.clear]
    · simp [perform, setContext, Step.clears, Step.pushed?, heq, Ne.symm heq]
  | inspect i context => simp [perform_inspect, Step.clears, Step.pushed?]

theorem play_concat (steps : List Step) (s : Step) :
    session.play (steps ++ [s]) =
      ((session.play steps).1 ++ ((session.play steps).2.perform s).1,
        ((session.play steps).2.perform s).2) := by
  induction steps generalizing session with
  | nil => simp [play]
  | cons first rest ih => simp [play, ih]

/-- Any calls: a context holds what was put into it since it was last cleared. -/
theorem diagnostics_play (steps : List Step) :
    ((session.play steps).2.contexts name).diagnostics =
      (if steps.any (Step.clears name) then [] else (session.contexts name).diagnostics) ++
        (steps.rtakeWhile fun s => !s.clears name).filterMap (Step.pushed? name) := by
  induction steps using List.reverseRecOn with
  | nil => simp [play]
  | append_singleton steps s ih =>
    rw [play_concat, diagnostics_perform, ih, List.any_append, List.rtakeWhile_concat]
    cases hclears : s.clears name with
    | true => simp [hclears, Step.pushed?_of_clears hclears]
    | false =>
      cases hpushed : s.pushed? name with
      | none => simp [hclears, hpushed]
      | some d => simp [hclears, hpushed]

theorem play_eq_runAll (steps : List Step) :
    ((session.play steps).1, (session.play steps).2.workspace) =
      Inspection.runAll (steps.filterMap Step.inspection?) session.workspace := by
  induction steps generalizing session with
  | nil => rfl
  | cons s rest ih =>
    cases s with
    | push target d => exact ih _
    | clear cleared => exact ih _
    | inspect i context =>
      have hrest := ih (session.perform (.inspect i context)).2
      rw [perform_inspect] at hrest
      rw [List.filterMap_cons, Step.inspection?]
      simp only [Inspection.runAll, i.run_perform, ← hrest, play, perform_inspect]
      rfl

end Session

/-! ### Runs inside runs -/

/-- A check that is made up of single acts on the context that it was given. It may go on as it likes
after what it sees, and it may start runs of further checks on the same context. -/
inductive Script where
  | done (accepted : Bool)
  | push (d : Diagnostic) (next : Script)
  | clear (next : Script)
  | look (next : Workspace → List Diagnostic → Script)
  | edit (f : Workspace → Workspace) (next : Script)
  | inspect (node : Node) (strict allowWarnings : Bool) (inner : Script)
      (next : Except Error Verdict → Script)

namespace Script

def perform : Script → Context → StateM Workspace (Bool × Context)
  | .done accepted, context => return (accepted, context)
  | .push d next, context => next.perform (context.push d)
  | .clear next, context => next.perform context.clear
  | .look next, context => do (next (← get) context.diagnostics).perform context
  | .edit f next, context => do
    modify f
    next.perform context
  | .inspect node strict allowWarnings inner next, context => do
    let i : Inspection :=
      { node, check := fun _ context => inner.perform context, allowWarnings, strict }
    let (result, after) ← i.perform (some context)
    (next result).perform (after.getD {})

/-- The same acts on a list of diagnostics that belongs to this script alone. A run that it starts
has a list of its own, which is empty at first. -/
def account : Script → Workspace → List Diagnostic → (Bool × List Diagnostic) × Workspace
  | .done accepted, w, held => ((accepted, held), w)
  | .push d next, w, held => next.account w (held ++ [d])
  | .clear next, w, _ => next.account w []
  | .look next, w, held => (next w held).account w held
  | .edit f next, w, held => next.account (f w) held
  | .inspect node strict allowWarnings inner next, w, held =>
    if Keyword.isRoot (node.keyword w) then
      let run := inner.account w []
      (next (Verdict.judged strict allowWarnings run.1.1 run.1.2)).account run.2 held
    else (next (.error (.notTopLevel (node.keyword w)))).account w held

/-- To any depth, runs on one context keep apart as if each had a list of its own. -/
theorem run_perform (s : Script) (context : Context) (w : Workspace) :
    (s.perform context).run w =
      let run := s.account w context.diagnostics
      ((run.1.1, ⟨run.1.2⟩), run.2) := by
  induction s generalizing context w with
  | done accepted => rfl
  | push d next ih => exact ih (context.push d) w
  | clear next ih => exact ih context.clear w
  | look next ih => exact ih w context.diagnostics context w
  | edit f next ih => exact ih context (f w)
  | inspect node strict allowWarnings inner next ihinner ih =>
    show StateT.run (Inspection.perform _ (some context) >>= _) w = _
    rw [StateT.run_bind, Inspection.run_perform, account, Inspection.outcome]
    dsimp only
    rw [ihinner]
    by_cases hroot : Keyword.isRoot (node.keyword w)
    · rw [if_pos hroot, if_pos hroot]
      exact ih _ context _
    · rw [if_neg hroot, if_neg hroot]
      exact ih _ context w

end Script

/-! ### Isolation -/

theorem Inspection.run_perform_root {i : Inspection} {w w' : Workspace} {accepted : Bool}
    {found : List Diagnostic} (hroot : Keyword.isRoot (i.node.keyword w) = true)
    (hcheck : (i.check i.node {}).run w = ((accepted, ⟨found⟩), w')) (context : Option Context) :
    let verdict := Verdict.of accepted i.allowWarnings found
    (i.perform context).run w =
      ((if i.strict = true ∧ verdict.valid = false then .error (.validationFailed found)
        else .ok verdict, context), w') := by
  intro verdict
  rw [run_perform, outcome, if_pos hroot, hcheck]
  dsimp only [Verdict.judged]
  cases i.strict with
  | false => rfl
  | true =>
    show ((verdict.strictly, context), w') = _
    unfold Verdict.strictly
    cases verdict.valid with
    | false => rfl
    | true => rfl

/-- After any calls a context holds what was put into it since it was last cleared, and what came of
the runs, with the documents that they left behind, is the same as if only the runs had been made
and none had been given a context. A single run gives its context back. If the node has no root
keyword, it is refused before anything is checked; otherwise the verdict is on what the checks find
from an empty context, and a strict run fails exactly if the verdict is invalid, be there errors
among the diagnostics or not. Checks that start runs of their own are no exception, to any depth. -/
theorem runs_isolated (session : Session) (steps : List Step) :
    (∀ name, ((session.play steps).2.contexts name).diagnostics =
      (if steps.any (Step.clears name) then [] else (session.contexts name).diagnostics) ++
        (steps.rtakeWhile fun s => !s.clears name).filterMap (Step.pushed? name)) ∧
    ((session.play steps).1, (session.play steps).2.workspace) =
      Inspection.runAll (steps.filterMap Step.inspection?) session.workspace ∧
    (∀ (i : Inspection) (context : Option Context) (w : Workspace),
      Keyword.isRoot (i.node.keyword w) = false →
        (i.perform context).run w = ((.error (.notTopLevel (i.node.keyword w)), context), w) ∧
          (Error.notTopLevel (i.node.keyword w)).category = .invalidState) ∧
    (∀ (i : Inspection) (context : Option Context) (w : Workspace),
      Keyword.isRoot (i.node.keyword w) = true →
        ∀ accepted found w', (i.check i.node {}).run w = ((accepted, ⟨found⟩), w') →
          ∃ valid : Bool,
            (valid = true ↔ accepted = true ∧ (∀ d ∈ found, d.isError = false) ∧
              (i.allowWarnings = true ∨ ∀ d ∈ found, d.isError = true)) ∧
            (i.perform context).run w =
              ((if i.strict = true ∧ valid = false then .error (.validationFailed found)
                else .ok ⟨valid, found⟩, context), w') ∧
            Error.errorCount found = (found.filter Diagnostic.isError).length) ∧
    ∀ (s : Script) (context : Context) (w : Workspace),
      (s.perform context).run w =
        let run := s.account w context.diagnostics
        ((run.1.1, ⟨run.1.2⟩), run.2) := by
  refine ⟨fun name => session.diagnostics_play name steps, session.play_eq_runAll steps, ?_, ?_,
    Script.run_perform⟩
  · intro i context w hroot
    refine ⟨?_, rfl⟩
    rw [i.run_perform, Inspection.outcome, hroot]
    rfl
  · intro i context w hroot accepted found w' hcheck
    exact ⟨_, Verdict.valid_of_iff, Inspection.run_perform_root hroot hcheck context,
      List.countP_eq_length_filter⟩

/-- In a context with an old error in it, a check puts a warning and starts a run on the same context
that finds an error; the verdict is on the warning alone. Then a strict run rejects the document
without any diagnostic, and so it fails with no errors. -/
theorem runs_isolated_nested :
    let top : Node := ⟨⟨0⟩, 0⟩
    let stale : Diagnostic := { severity := .error, message := "stale" }
    let style : Diagnostic := { severity := .warning, message := "style" }
    let check : Script := .push style (.inspect top false false (.push stale (.done true))
      fun _ => .done true)
    let (results, session) := Session.play
      { workspace := (({} : Workspace).add (Tree.new "a" "module")).1 }
      [.push 0 stale,
        .inspect ⟨top, {}, fun _ context => check.perform context, true, false⟩ (some 0),
        .inspect ⟨top, {}, fun _ context => pure (false, context), true, true⟩ (some 0)]
    results = [.ok ⟨true, [style]⟩, .error (.validationFailed [])] ∧
      Error.errorCount [] = 0 ∧ (session.contexts 0).diagnostics = [stale] := by
  intro top stale style check
  obtain ⟨hcontexts, hruns, -⟩ := runs_isolated
    { workspace := (({} : Workspace).add (Tree.new "a" "module")).1 }
    [.push 0 stale,
      .inspect ⟨top, {}, fun _ context => check.perform context, true, false⟩ (some 0),
      .inspect ⟨top, {}, fun _ context => pure (false, context), true, true⟩ (some 0)]
  exact ⟨congrArg Prod.fst hruns, rfl, hcontexts 0⟩

end YangDoc
