import YangDoc.Proofs.Construction.Preflight

/-!
# Appending in turn

Items that are appended together are all checked before the first of them is received. Items that
are appended one after the other are checked each when its turn comes, in the workspace that the
others have left behind. Both come to the same: an item that passes the check moves neither the root
nor anything that the node lies below, so whatever was to be refused before it was received is to be
refused after it, and nothing else.
-/

namespace YangDoc

variable {w w' : Workspace} {n : Node} {e : Expr} {items rest : List Expr} {copy : Bool}

namespace Node

theorem append_eq_ok_iff (hw : w.Sound) (hn : n.Live w) :
    (n.append items copy).outcome w = (.ok (), w') ↔
      (∀ e ∈ items, ∀ m ∈ e.moving copy, ¬ n.document.Blocks w (some n) m) ∧
        (items.forM fun e => (do let _ ← n.receive copy e : Build PUnit)).outcome w =
          (.ok (), w') := by
  unfold append
  rcases Document.guardMoves_blocks hw hn.has (some n) copy items with
    ⟨hguard, hmoves⟩ | ⟨⟨err, hguard⟩, e, he, m, hm, hblocks⟩
  · rw [Option.map_some] at hguard
    rw [Build.outcome_bind_of_ok hguard]
    exact (and_iff_right hmoves).symm
  · rw [Option.map_some] at hguard
    rw [Build.outcome_bind_of_error hguard]
    refine ⟨fun hok => ?_, fun hok => absurd hblocks (hok.1 e he m hm)⟩
    simp at hok

/-- What has been received leaves the check of what is still to come as it was. -/
theorem blocks_of_receive {id : NodeId} (hw : w.Sound) (hn : n.Live w) (he : e.Live w)
    (hmoving : ∀ m ∈ e.moving copy, ¬ n.document.Blocks w (some n) m)
    (hok : (n.receive copy e).outcome w = (.ok id, w')) (m : Node) :
    n.document.Blocks w' (some n) m ↔ n.document.Blocks w (some n) m := by
  obtain ⟨id', w'', hok', hsame⟩ := receive_ok copy hw hn he (ordinary_of_receive hok) hmoving
  obtain ⟨-, rfl⟩ := Build.ok_inj (hok.symm.trans hok')
  exact hsame m

theorem append_singleton_eq_ok_iff (hw : w.Sound) (hn : n.Live w) :
    (n.append [e] copy).outcome w = (.ok (), w') ↔
      (∀ m ∈ e.moving copy, ¬ n.document.Blocks w (some n) m) ∧
        ∃ id, (n.receive copy e).outcome w = (.ok id, w') := by
  rw [append_eq_ok_iff hw hn, List.forall_mem_singleton]
  refine and_congr_right fun _ => ⟨fun hok => ?_, fun hok => ?_⟩
  · obtain ⟨_, w₁, hfirst, hlast⟩ := Build.outcome_bind_eq_ok hok
    obtain ⟨id, w₂, hid, hskip⟩ := Build.outcome_bind_eq_ok hfirst
    obtain ⟨-, rfl⟩ := Build.ok_inj hskip
    obtain ⟨-, rfl⟩ := Build.ok_inj hlast
    exact ⟨id, hid⟩
  · obtain ⟨id, hid⟩ := hok
    exact Build.outcome_bind_of_ok (Build.outcome_bind_of_ok hid)

theorem append_cons_eq_ok_iff (hw : w.Sound) (hn : n.Live w) (he : e.Live w) :
    (n.append (e :: rest) copy).outcome w = (.ok (), w') ↔
      ∃ w₁, (n.append [e] copy).outcome w = (.ok (), w₁) ∧
        (n.append rest copy).outcome w₁ = (.ok (), w') := by
  have hafter : ∀ {id w₁}, (n.receive copy e).outcome w = (.ok id, w₁) → w₁.Sound ∧ n.Live w₁ := by
    intro id w₁ hid
    have hedits := ((receive_safe hw hn he copy).of_ok hid).1
    exact ⟨hedits.sound hw, hedits.live hn⟩
  rw [append_eq_ok_iff hw hn, List.forall_mem_cons]
  constructor
  · rintro ⟨⟨hmoving, hmoves⟩, hloop⟩
    obtain ⟨_, w₁, hfirst, hrest⟩ := Build.outcome_bind_eq_ok hloop
    obtain ⟨id, w₂, hid, hskip⟩ := Build.outcome_bind_eq_ok hfirst
    obtain ⟨-, rfl⟩ := Build.ok_inj hskip
    obtain ⟨hw₂, hn₂⟩ := hafter hid
    have hsame := blocks_of_receive hw hn he hmoving hid
    refine ⟨w₂, (append_singleton_eq_ok_iff hw hn).2 ⟨hmoving, id, hid⟩,
      (append_eq_ok_iff hw₂ hn₂).2 ⟨fun e he m hm => ?_, hrest⟩⟩
    rw [hsame]
    exact hmoves e he m hm
  · rintro ⟨w₁, hfirst, hrest⟩
    obtain ⟨hmoving, id, hid⟩ := (append_singleton_eq_ok_iff hw hn).1 hfirst
    obtain ⟨hw₁, hn₁⟩ := hafter hid
    obtain ⟨hmoves, hloop⟩ := (append_eq_ok_iff hw₁ hn₁).1 hrest
    have hsame := blocks_of_receive hw hn he hmoving hid
    refine ⟨⟨hmoving, fun e he m hm => ?_⟩, ?_⟩
    · rw [← hsame]
      exact hmoves e he m hm
    · rw [← hloop]
      exact Build.outcome_bind_of_ok (Build.outcome_bind_of_ok hid)

theorem append_eq_ok_iff_forM (hw : w.Sound) (hn : n.Live w) (hitems : ∀ e ∈ items, e.Live w) :
    (n.append items copy).outcome w = (.ok (), w') ↔
      (items.forM fun e => n.append [e] copy).outcome w = (.ok (), w') := by
  induction items generalizing w with
  | nil => exact .rfl
  | cons e rest ih =>
    rw [List.forall_mem_cons] at hitems
    rw [append_cons_eq_ok_iff hw hn hitems.1]
    have hnext : ∀ {w₁}, (n.append [e] copy).outcome w = (.ok (), w₁) →
        ((n.append rest copy).outcome w₁ = (.ok (), w') ↔
          (rest.forM fun e => n.append [e] copy).outcome w₁ = (.ok (), w')) := by
      intro w₁ hfirst
      have hedits := ((append_safe hw hn (by simpa using hitems.1) copy).of_ok hfirst).1
      exact ih (hedits.sound hw) (hedits.live hn) fun e he => hedits.liveExpr (hitems.2 e he)
    constructor
    · rintro ⟨w₁, hfirst, hrest⟩
      exact (Build.outcome_bind_of_ok hfirst).trans ((hnext hfirst).1 hrest)
    · intro hok
      obtain ⟨_, w₁, hfirst, hrest⟩ := Build.outcome_bind_eq_ok hok
      exact ⟨w₁, hfirst, (hnext hfirst).2 hrest⟩

end Node

namespace Workspace

/-- Appending items together succeeds exactly if appending them one by one does, with the same
workspace at the end. -/
theorem append_in_turn (hw : w.Reachable) (hn : n.Live w) (hitems : ∀ e ∈ items, e.Live w)
    (copy : Bool) (w' : Workspace) :
    (n.append items copy).outcome w = (.ok (), w') ↔
      (items.forM fun e => n.append [e] copy).outcome w = (.ok (), w') :=
  Node.append_eq_ok_iff_forM hw.sound hn hitems

/-- A leaf moves and then moves again, into a tuple; its old parent comes last. -/
theorem append_in_turn_sample :
    sample.Reachable ∧ ∃ w',
      ((⟨⟨0⟩, 0⟩ : Node).append [.node ⟨⟨0⟩, 1⟩, .tuple "list" none [.node ⟨⟨1⟩, 0⟩, .node ⟨⟨0⟩, 1⟩],
        .node ⟨⟨0⟩, 2⟩]).outcome sample = (.ok (), w') ∧
      (List.forM [.node ⟨⟨0⟩, 1⟩, .tuple "list" none [.node ⟨⟨1⟩, 0⟩, .node ⟨⟨0⟩, 1⟩],
        .node ⟨⟨0⟩, 2⟩] fun e => (⟨⟨0⟩, 0⟩ : Node).append [e]).outcome sample = (.ok (), w') ∧
      (⟨⟨0⟩, 0⟩ : Node).children w' = [⟨⟨0⟩, 4⟩, ⟨⟨0⟩, 2⟩] ∧
      (⟨⟨0⟩, 4⟩ : Node).children w' = [⟨⟨0⟩, 3⟩, ⟨⟨0⟩, 1⟩] := by
  refine ⟨reachable_sample, _, rfl, ?_, by decide, by decide⟩
  exact (append_in_turn reachable_sample (by decide) (by decide) false _).1 rfl

end Workspace

end YangDoc
