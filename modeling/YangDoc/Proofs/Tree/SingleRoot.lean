import YangDoc.Proofs.Tree.Moves

/-!
# Root keywords and the root

The root of a table has a root keyword and is on no list, and no change of the table takes this
away. Whether anything else has a root keyword depends on what is planted: a planted statement
brings its own keywords, and no other change brings one in. So each change is followed by what it
asks for: nothing else has a root keyword afterwards exactly when that was so before and none was
planted. A snapshot has a root keyword exactly when it is one of the root.
-/

namespace YangDoc

namespace Statement

mutual

def keywords : Statement → List String
  | ⟨keyword, _, children⟩ => keyword :: keywordsAll children

def keywordsAll : List Statement → List String
  | [] => []
  | s :: rest => keywords s ++ keywordsAll rest

end

theorem mem_keywordsAll {k : String} {ss : List Statement} :
    k ∈ keywordsAll ss ↔ ∃ s ∈ ss, k ∈ s.keywords := by
  induction ss with
  | nil => simp [keywordsAll]
  | cons s rest ih => simp [keywordsAll, ih]

/-- No keyword of the statement, at any depth, is a root keyword. -/
def Rootless (s : Statement) : Prop :=
  ∀ k ∈ s.keywords, Keyword.isRoot k = false

instance (s : Statement) : Decidable s.Rootless :=
  inferInstanceAs (Decidable (∀ k ∈ s.keywords, Keyword.isRoot k = false))

theorem rootless_iff {keyword : String} {argument : Option String} {children : List Statement} :
    Rootless ⟨keyword, argument, children⟩ ↔
      Keyword.isRoot keyword = false ∧ ∀ s ∈ children, s.Rootless := by
  simp only [Rootless, keywords, List.forall_mem_cons, mem_keywordsAll]
  refine and_congr_right fun _ => ⟨fun h s hs k hk => h k ⟨s, hs, hk⟩, ?_⟩
  rintro h k ⟨s, hs, hk⟩
  exact h s hs k hk

end Statement

namespace Tree

structure Rooted (t : Tree) : Prop where
  isRoot : Keyword.isRoot (t.keyword root) = true
  unlisted : ∀ p, ¬ t.Lists p root

def OnlyRoot (t : Tree) : Prop :=
  ∀ x, Keyword.isRoot (t.keyword x) = true → x = root

/-- A change that keeps the root, and brings in root keywords for other statements unless `P`
holds. -/
structure Brings (t t' : Tree) (P : Prop) : Prop where
  rooted : t'.Rooted
  onlyRoot_iff : t'.OnlyRoot ↔ t.OnlyRoot ∧ P

variable {t t' t'' : Tree} {p c x y : Nat} {P Q : Prop}

theorem rooted_new (source : String) : (new source "module").Rooted :=
  ⟨rfl, fun p => (forest_new source "module").not_lists_root p⟩

theorem onlyRoot_new (source : String) : (new source "module").OnlyRoot := by
  intro x hx
  cases x with
  | zero => rfl
  | succ x =>
    have hkeyword : (new source "module").keyword (x + 1) = "" := rfl
    rw [hkeyword] at hx
    exact absurd hx (by decide)

theorem lists_of_link (hlist : (t.link p c).Lists x y) : t.Lists x y ∨ y = c := by
  by_cases hp : p < t.size
  · exact ((Forest.lists_link hp).1 hlist).imp_right And.right
  · rw [Lists, children_link_of_size_le (Nat.not_lt.1 hp)] at hlist
    exact .inl hlist

theorem Rooted.root_lt (h : t.Rooted) : root < t.size := by
  by_contra hsize
  have hroot := h.isRoot
  rw [keyword, row_of_size_le (Nat.not_lt.1 hsize)] at hroot
  exact absurd hroot (by decide)

namespace Brings

theorem congr (h : t.Brings t' P) (hQ : Q ↔ P) : t.Brings t' Q :=
  ⟨h.rooted, by rw [h.onlyRoot_iff, hQ]⟩

theorem trans (h : t.Brings t' P) (h' : t'.Brings t'' Q) : t.Brings t'' (P ∧ Q) :=
  ⟨h'.rooted, by rw [h'.onlyRoot_iff, h.onlyRoot_iff, and_assoc]⟩

theorem trans_true (h : t.Brings t' P) (h' : t'.Brings t'' True) : t.Brings t'' P :=
  (h.trans h').congr (and_true _).symm.to_iff

theorem of_keyword (h : t.Rooted)
    (hkeyword : ∀ x, Keyword.isRoot (t'.keyword x) = Keyword.isRoot (t.keyword x))
    (hlists : ∀ p, t'.Lists p root → t.Lists p root) : t.Brings t' True := by
  refine ⟨⟨(hkeyword root).trans h.isRoot, fun p hp => h.unlisted p (hlists p hp)⟩, ?_⟩
  simp only [OnlyRoot, hkeyword, and_true]

theorem of_header (h : t.Rooted) (hheader : ∀ x, t'.header x = t.header x)
    (hlists : ∀ p, t'.Lists p root → t.Lists p root) : t.Brings t' True := by
  refine of_keyword h (fun x => ?_) hlists
  rw [show t'.keyword x = t.keyword x from congrArg Prod.fst (hheader x)]

end Brings

namespace Rooted

theorem push (h : t.Rooted) (k : String) (a : Option String) :
    t.Brings (t.push k a).1 (Keyword.isRoot k = false) := by
  have hnew : (t.push k a).1.keyword t.size = k := by
    have hheader := header_push t k a t.size
    rw [if_pos rfl] at hheader
    exact congrArg Prod.fst hheader
  have hold : ∀ x, x ≠ t.size → (t.push k a).1.keyword x = t.keyword x := by
    intro x hx
    have hheader := header_push t k a x
    rw [if_neg hx] at hheader
    exact congrArg Prod.fst hheader
  have hroot : t.size ≠ root := Nat.ne_of_gt h.root_lt
  refine ⟨⟨by rw [hold root hroot.symm, h.isRoot], fun p hp => h.unlisted p ?_⟩, ?_, ?_⟩
  · rwa [Lists, children_push] at hp
  · refine fun honly => ⟨fun x hx => ?_, ?_⟩
    · have hne : x ≠ t.size := by
        rintro rfl
        rw [keyword, row_of_size_le le_rfl] at hx
        exact absurd hx (by decide)
      exact honly x (by rwa [hold x hne])
    · rw [← Bool.not_eq_true, ← hnew]
      exact fun hk => hroot (honly t.size hk)
  · rintro ⟨honly, hk⟩ x hx
    by_cases hne : x = t.size
    · rw [hne, hnew, hk] at hx
      exact absurd hx Bool.false_ne_true
    · exact honly x (by rwa [hold x hne] at hx)

theorem rename (h : t.Rooted) {k : String} (hk : Keyword.isRoot k = true) (a : Option String) :
    t.Brings (t.rename root k a) True := by
  refine .of_keyword h (fun x => ?_) fun p hp => ?_
  · by_cases hx : x = root
    · have hheader := congrArg Prod.fst (header_rename t root k a h.root_lt)
      rw [hx, show (t.rename root k a).keyword root = k from hheader, hk, h.isRoot]
    · have hheader := congrArg Prod.fst (header_rename_of_ne t root k a x hx)
      rw [show (t.rename root k a).keyword x = t.keyword x from hheader]
  · rwa [Lists, children_rename] at hp

theorem setParent (h : t.Rooted) (x : Nat) (parent : Option Nat) :
    t.Brings (t.setParent x parent) True := by
  refine .of_header h (header_setParent t x parent) fun p hp => ?_
  rwa [Lists, children_setParent] at hp

theorem detach (h : t.Rooted) (c : Nat) : t.Brings (t.detach c) True := by
  refine .of_header h (header_detach t c) fun p hp => ?_
  rw [Lists, children_detach] at hp
  split at hp
  · exact List.mem_of_mem_filter hp
  · exact hp

theorem dropChildren (h : t.Rooted) (p : Nat) : t.Brings (t.dropChildren p) True :=
  .of_header h (header_dropChildren t p) fun _ hq => (Forest.lists_dropChildren.1 hq).1

theorem link (h : t.Rooted) (p : Nat) (hc : c ≠ root) : t.Brings (t.link p c) True :=
  .of_header h header_link fun _ hq => (lists_of_link hq).resolve_right hc.symm

theorem attachAll (h : t.Rooted) (p : Nat) (cs : List Nat) :
    t.Brings (t.attachAll p cs).2 True := by
  induction cs generalizing t with
  | nil => exact .of_header h (fun _ => rfl) fun _ hp => hp
  | cons c cs ih =>
    rw [Tree.attachAll]
    cases hok : t.attach p c with
    | error e => exact .of_header h (fun _ => rfl) fun _ hp => hp
    | ok t₁ =>
      obtain ⟨hallowed, rfl⟩ := attach_eq_ok hok
      have hc : c ≠ root := by
        rintro rfl
        simp [refusal?] at hallowed
      have hdetach := h.detach c
      have hlink := hdetach.rooted.link p hc
      exact (hdetach.trans_true hlink).trans_true (ih hlink.rooted)

/-- A root keyword goes to the root, and any other to a new statement. -/
theorem assemble (h : t.Rooted) (k : String) (a : Option String) (parent : Option Nat)
    (ids : List Nat) : t.Brings (t.assemble k a parent ids).2 True := by
  unfold Tree.assemble
  cases hk : Keyword.isRoot k with
  | true =>
    rw [if_pos rfl]
    have hrename := h.rename hk a
    have hdrop := hrename.rooted.dropChildren root
    exact (hrename.trans_true hdrop).trans_true (hdrop.rooted.attachAll root ids)
  | false =>
    rw [if_neg Bool.false_ne_true]
    have hpush := h.push k a
    have hrecord := hpush.rooted.setParent t.size parent
    have hmoves := hrecord.rooted.attachAll t.size ids
    exact ((hpush.trans_true hrecord).trans_true hmoves).congr (by simp [hk])

mutual

theorem plant : ∀ {t : Tree} (s : Statement), t.Rooted → t.Brings (t.plant s).1 s.Rootless
  | t, ⟨k, a, cs⟩, h => by
    have hpush := h.push k a
    exact (hpush.trans (plantAll t.size cs hpush.rooted)).congr Statement.rootless_iff

theorem plantAll : ∀ {t : Tree} (p : Nat) (ss : List Statement), t.Rooted →
    t.Brings (t.plantAll p ss) (∀ s ∈ ss, s.Rootless)
  | t, _, [], h => by
    have hsame : t.Brings t True := .of_header h (fun _ => rfl) fun _ hp => hp
    exact hsame.congr (by simp)
  | t, p, s :: rest, h => by
    rw [plantAll_cons]
    have hplant := plant s h
    have hlink := hplant.rooted.link p (Nat.ne_of_gt h.root_lt)
    have hrest := plantAll p rest hlink.rooted
    exact ((hplant.trans_true hlink).trans hrest).congr List.forall_mem_cons

end

theorem rootless_snapshot_iff (h : t.Rooted) (honly : t.OnlyRoot) :
    (t.snapshot x).Rootless ↔ x ≠ root := by
  have hkeyword : ∀ x, Keyword.isRoot (t.keyword x) = false ↔ x ≠ root := by
    intro x
    rw [← Bool.not_eq_true, not_iff_not]
    exact ⟨honly x, fun hx => hx ▸ h.isRoot⟩
  suffices hunfold : ∀ depth x, (t.unfold depth x).Rootless ↔ x ≠ root from hunfold t.size x
  intro depth
  induction depth with
  | zero =>
    intro x
    rw [unfold, Statement.rootless_iff, hkeyword]
    simp
  | succ depth ih =>
    intro x
    rw [unfold, Statement.rootless_iff, hkeyword]
    refine and_iff_left_of_imp fun _ s hs => ?_
    obtain ⟨c, hc, rfl⟩ := List.mem_map.1 hs
    rw [ih]
    rintro rfl
    exact h.unlisted x hc

end Rooted

/-- A planted statement may be listed under any old one, whatever its keyword. -/
theorem Planted.attach_ok {s : Statement} (h : Planted t s t') (ht : t.Forest) (hp : p < t.size) :
    ∃ t'', t'.attach p t.size = .ok t'' ∧ t''.Lists p t.size ∧
      t''.keyword t.size = s.keyword := by
  have hsize := h.size_eq
  have hbelow : ¬ t'.Above t.size p := by
    intro habove
    have hle : t.size ≤ p := habove.mem_of_closed (S := fun x => t.size ≤ x)
      (fun hq hlist => (h.fresh hq hlist).1.le) le_rfl
    omega
  have hallowed : t'.refusal? (some p) t.size = none := by
    rw [(h.forest ht).refusal?_eq_none_iff]
    refine ⟨Nat.ne_of_gt ht.root_lt, fun q hq => ?_⟩
    rwa [← Option.some.inj hq]
  have hok : t'.attach p t.size = .ok ((t'.detach t.size).link p t.size) := by
    rw [attach, hallowed]
  refine ⟨_, hok, ?_, ?_⟩
  · exact ((h.forest ht).lists_attach (by omega) hok).2 (.inr ⟨rfl, rfl⟩)
  · obtain ⟨k, a, cs⟩ := s
    obtain ⟨hkeyword, -, -⟩ := h.holds
    have hheader := congrArg Prod.fst (header_detach t' t.size t.size)
    rw [keyword_link]
    exact hheader.trans hkeyword

end Tree

end YangDoc
