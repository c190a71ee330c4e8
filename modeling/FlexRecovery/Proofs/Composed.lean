import FlexRecovery.Proofs.Descent

/-!
Trees of any origin while they are regrouped. Nodes with an index below a bound were there before, all others are
containers that regrouping made: lists, their parts, and bands. Lists lie anywhere and are not regrouped, and a
part or a band lies beside others of its kind, so it holds fewer of the nodes that were there than its owner.
-/

namespace FlexRecovery.Regroup

open Tree Ledger

variable {k : Nat}

/-- Was there before, or is a list. -/
def Basic (k : Nat) (t : Tree) : Prop := t.node.index < k ∨ t.node.roles.isList = true

/-- Only a list holds containers that are no lists themselves, and holds several members then. -/
structure Composed (k : Nat) (t : Tree) : Prop where
  parted : Parted k t
  members : ∀ m ∈ t.members, Basic k m ∨ t.node.roles.isList = true ∧ 2 ≤ t.flow.length ∧ m ∈ t.flow

/-- A member that may be shifted. -/
structure Free (k : Nat) (t : Tree) : Prop where
  basic : Basic k t
  composed : t.Every (Composed k)

/-- An owner whose members may be shifted. -/
def Open (k : Nat) (t : Tree) : Prop := ∀ m ∈ t.members, Free k m

theorem parted_of_composed {t : Tree} (h : t.Every (Composed k)) : t.Every (Parted k) := h.mono fun _ hs => hs.parted

theorem Composed.mono {k' : Nat} {t : Tree} (h : Composed k t) (hk : k ≤ k') : Composed k' t where
  parted := fun hi => h.parted (hk.trans hi)
  members := fun m hm => (h.members m hm).imp_left (.imp_left fun hi => hi.trans_le hk)

/-- The members of a tree that is no list. -/
theorem open_of_composed {t : Tree} (h : t.Every (Composed k)) (hl : t.node.roles.isList = false) : Open k t := by
  obtain ⟨hs, hm⟩ := every_iff.1 h
  intro m hmem
  refine ⟨(hs.members m hmem).resolve_right ?_, hm m hmem⟩
  rw [hl]
  rintro ⟨hf, -⟩
  cases hf

/-- A tree that is as it was, but for more members and more roles. -/
theorem Free.grow {x y : Tree} (hx : Free k x) (hi : y.node.index = x.node.index)
    (hl : x.node.roles.isList = true → y.node.roles.isList = true) (hf : x.flow.Sublist y.flow)
    (hm : ∀ m ∈ y.members, m ∈ x.members ∨ m.Every (Composed k) ∧
      (Basic k m ∨ y.node.roles.isList = true ∧ 2 ≤ y.flow.length ∧ m ∈ y.flow)) : Free k y := by
  obtain ⟨hs, hms⟩ := every_iff.1 hx.composed
  refine ⟨?_, every_iff.2 ⟨⟨fun hk => ?_, fun m hmem => ?_⟩, fun m hmem => ?_⟩⟩
  · unfold Basic
    rw [hi]
    exact hx.basic.imp_right hl
  · rw [hi] at hk
    exact (hs.parted hk).trans hf.length_le
  · rcases hm m hmem with h | ⟨-, h⟩
    · exact (hs.members m h).imp_right fun ⟨h1, h2, h3⟩ => ⟨hl h1, h2.trans hf.length_le, hf.subset h3⟩
    · exact h
  · exact (hm m hmem).elim (hms m) And.left

theorem Free.alike {t : Tree} {n : Node} (h : Free k t) (hn : t.node.Alike n) : Free k ⟨n, t.flow, t.attached⟩ :=
  h.grow hn.kept.1.index (fun hl => hn.list.trans hl) (.refl _) fun _ hm => .inl hm

theorem free_hosting {x : Tree} (h : Free k x) : Free k (hosting x) := by
  rw [hosting_eq]
  refine h.grow (kept_hosting x).1.index (fun hl => ?_) (.refl _) fun _ hm => .inl hm
  unfold hosting
  split
  · exact (congrArg Roles.isList (Node.roles_promoted x.node)).trans hl
  · exact hl

theorem free_addFlow {x : Tree} (h : Free k x) {ys : List Tree} (hy : ∀ y ∈ ys, Free k y) : Free k (x.addFlow ys) := by
  refine h.grow rfl id (List.sublist_append_left _ _) fun m hm => ?_
  simp only [addFlow, Tree.members, List.mem_append] at hm ⊢
  rcases hm with (hm | hm) | hm
  · exact .inl (.inl hm)
  · exact .inr ⟨(hy m hm).composed, .inl (hy m hm).basic⟩
  · exact .inl (.inr hm)

theorem free_addAttached {x y : Tree} (h : Free k x) (hy : Free k y) : Free k (x.addAttached [y]) := by
  refine h.grow rfl id (.refl _) fun m hm => ?_
  simp only [addAttached, Tree.members, List.mem_append, List.mem_singleton] at hm ⊢
  rcases hm with hm | hm | rfl
  · exact .inl (.inl hm)
  · exact .inl (.inr hm)
  · exact .inr ⟨hy.composed, .inl hy.basic⟩

theorem free_fused {x y : Tree} (hx : Free k x) (hy : Free k y) : Free k (fused x y) := by
  obtain ⟨hs, hm⟩ := every_iff.1 hy.composed
  refine hx.grow (Node.index_absorb _ _) (fun hl => ?_) (List.sublist_append_left _ _) fun m hmem => ?_
  · rw [fused, Node.isList_absorb, hl, Bool.true_or]
  · refine (mem_members_fused hmem).imp_right fun h => ⟨hm m h, (hs.members m h).imp_right ?_⟩
    rintro ⟨hl, h2, hf⟩
    refine ⟨by rw [fused, Node.isList_absorb, hl, Bool.or_true], ?_, List.mem_append_right _ hf⟩
    rw [fused, List.length_append]
    omega

/-- Groups of free trees; those that were made may only lie in a list or a band. -/
theorem Grouped.composed {roles : List Role} {ts us : List Tree} {c c' : Nat} (h : Grouped roles ts c us c')
    (hts : ∀ t ∈ ts, Free k t) : ∀ u ∈ us, u.Every (Composed k) := by
  induction h with
  | nil => simp
  | own hn _ ih =>
    obtain ⟨ht, hts⟩ := List.forall_mem_cons.1 hts
    exact List.forall_mem_cons.2 ⟨(ht.alike hn.toAlike).composed, ih hts⟩
  | @wrapped g hg n c hn hb ts us c' h ih =>
    obtain ⟨hgs, hts⟩ := List.forall_mem_append.1 hts
    refine List.forall_mem_cons.2 ⟨every_iff.2 ⟨⟨fun _ => hg, fun m hm => ?_⟩, fun m hm => ?_⟩, ih hts⟩
    all_goals rw [Tree.members, List.append_nil] at hm
    · exact .inl (hgs m hm).basic
    · exact (hgs m hm).composed

theorem free_enlisted {item list : Role} (hl : list.isList = true) {xs items : List Tree} {c c' : Nat}
    (h : Grouped [item] xs c items c') (hlen : 2 ≤ items.length) {n : Node} (hn : Container [list] n c')
    (hxs : ∀ x ∈ xs, Free k x) : Free k ⟨n, items, []⟩ := by
  have hn' : n.roles.isList = true := (isList_of_roles hn.roles).trans hl
  refine ⟨.inr hn', every_iff.2 ⟨⟨fun _ => hlen, fun m hm => .inr ⟨hn', hlen, ?_⟩⟩, fun m hm => ?_⟩⟩
  all_goals rw [Tree.members, List.append_nil] at hm
  · exact hm
  · exact h.composed hxs m hm

theorem open_iff {n : Node} {f a : List Tree} : Open k ⟨n, f, a⟩ ↔ (∀ m ∈ f, Free k m) ∧ ∀ m ∈ a, Free k m :=
  List.forall_mem_append

theorem Shift.isOpen {s s' : Tree × Nat} (h : Shift s s') (hs : Open k s.1) : Open k s'.1 := by
  cases h with
  | reorder h n a c =>
    obtain ⟨hf, ha⟩ := open_iff.1 hs
    exact open_iff.2 ⟨fun m hm => hf m (h.mem_iff.2 hm), ha⟩
  | foldUp h f a c =>
    obtain ⟨⟨-, hl⟩, -⟩ : (_ ∧ _) ∧ _ := by simpa [isRedundant] using h
    obtain ⟨hf, ha⟩ := open_iff.1 hs
    obtain ⟨hx, hf⟩ := List.forall_mem_cons.1 hf
    obtain ⟨hxf, hxa⟩ := List.forall_mem_append.1 (open_of_composed hx.composed hl)
    exact open_iff.2 ⟨List.forall_mem_append.2 ⟨hxf, hf⟩, List.forall_mem_append.2 ⟨ha, hxa⟩⟩
  | fuse hx hy h n f a c =>
    obtain ⟨hf, ha⟩ := open_iff.1 hs
    obtain ⟨hx, hf⟩ := List.forall_mem_cons.1 hf
    obtain ⟨hy, hf⟩ := List.forall_mem_cons.1 hf
    exact open_iff.2 ⟨List.forall_mem_cons.2 ⟨free_fused hx hy, hf⟩, ha⟩
  | host h hb n f a c =>
    obtain ⟨hf, ha⟩ := open_iff.1 hs
    obtain ⟨hx, hf⟩ := List.forall_mem_cons.1 hf
    obtain ⟨hy, hf⟩ := List.forall_mem_append.1 hf
    exact open_iff.2 ⟨List.forall_mem_cons.2 ⟨free_addFlow (free_hosting hx) hy, hf⟩, ha⟩
  | attach h y n f a c =>
    obtain ⟨hf, ha⟩ := open_iff.1 hs
    obtain ⟨hx, hf⟩ := List.forall_mem_cons.1 hf
    obtain ⟨hy, hf⟩ := List.forall_mem_cons.1 hf
    exact open_iff.2 ⟨List.forall_mem_cons.2 ⟨free_addAttached (free_hosting hx) hy, hf⟩, ha⟩
  | border h y n f a c =>
    obtain ⟨hf, ha⟩ := open_iff.1 hs
    obtain ⟨hx, hf⟩ := List.forall_mem_cons.1 hf
    obtain ⟨hy, hf⟩ := List.forall_mem_cons.1 hf
    exact open_iff.2 ⟨List.forall_mem_cons.2 ⟨free_addAttached hx (hy.alike (Node.alike_addRole _ rfl)), hf⟩, ha⟩
  | detach y n f a c =>
    obtain ⟨hf, ha⟩ := open_iff.1 hs
    obtain ⟨hy, hf⟩ := List.forall_mem_cons.1 hf
    exact open_iff.2 ⟨hf, List.forall_mem_append.2 ⟨ha, List.forall_mem_singleton.2 hy⟩⟩
  | enlist hi hl h hlen hm hb n f a =>
    obtain ⟨hf, ha⟩ := open_iff.1 hs
    obtain ⟨hx, hf⟩ := List.forall_mem_append.1 hf
    exact open_iff.2 ⟨List.forall_mem_cons.2 ⟨free_enlisted hl h hlen hm hx, hf⟩, ha⟩

theorem Shifts.isOpen {s s' : Tree × Nat} (h : Shifts s s') (hs : Open k s.1) : Open k s'.1 := by
  induction h with
  | refl => exact hs
  | tail _ hs ih => exact hs.isOpen ih

/-- An owner after it is regrouped. -/
structure Axed (k : Nat) (t r : Tree) : Prop where
  index : r.node.index = t.node.index
  older : older k (censusAll r.members) ≤ older k (censusAll t.members)
  composed : ∀ m ∈ r.members, m.Every (Composed k)
  members : ∀ m ∈ r.members, Basic k m ∨ 2 ≤ r.flow.length ∧ m ∈ r.flow

theorem axed_open {t : Tree} (h : Open k t) {n : Node} (hn : n.index = t.node.index) :
    Axed k t ⟨n, t.flow, t.attached⟩ :=
  ⟨hn, le_rfl, fun m hm => (h m hm).composed, fun m hm => .inl (h m hm).basic⟩

/-- The members of a lone container were free already, since only a list holds others. -/
theorem Axed.collapseWrapper {t r : Tree} (h : Axed k t r) : Axed k t (collapseWrapper r) := by
  unfold Regroup.collapseWrapper
  split
  · next only hf =>
    extract_lets n isFixed
    split
    · next hw =>
      have hl : only.node.roles.isList = false := by
        simp only [Bool.and_eq_true] at hw
        have he := hw.1.2
        rw [Distinct.isEmpty, List.isEmpty_iff] at he
        rw [Roles.isList, he]
        rfl
      have hmem : only ∈ r.members := List.mem_append_left _ (by rw [hf]; exact List.mem_singleton_self _)
      obtain ⟨hof, hoa⟩ := List.forall_mem_append.1 (open_of_composed (h.composed only hmem) hl)
      have hr : ∀ m ∈ r.attached, Free k m := by
        intro m hm
        have hm := List.mem_append_right r.flow hm
        refine ⟨(h.members m hm).resolve_right ?_, h.composed m hm⟩
        rw [hf]
        rintro ⟨hl, -⟩
        exact absurd hl (by rw [List.length_singleton]; decide)
      have hopen : Open k ⟨{ r.node with direction := n.direction }, only.flow, r.attached ++ only.attached⟩ :=
        open_iff.2 ⟨hof, List.forall_mem_append.2 ⟨hr, hoa⟩⟩
      refine ⟨h.index, le_trans ?_ h.older, fun m hm => (hopen m hm).composed, fun m hm => .inl (hopen m hm).basic⟩
      have ho := older_census k only
      simp only [Tree.members, censusAll_append, older_add, hf, censusAll_cons, censusAll_nil, add_zero]
      omega
    · exact h
  · exact h

theorem Axed.of_shifts {t t' r : Tree} {c : Nat} (ht : t.node.isContent = false) (hk : k ≤ c) {c' : Nat}
    (hs : Shifts (t, c) (t', c')) (h : Axed k t' r) : Axed k t r where
  index := h.index.trans hs.root.1
  older := by
    have hle := (Shifts.slides ht hs).2.turns.older_le (fun _ _ h => h.1) hk
    have hr := h.older
    have hi : t'.node.index = t.node.index := hs.root.1
    dsimp only at hle
    rw [older_census, older_census, hi] at hle
    simp only [Tree.members, censusAll_append, older_add] at hr ⊢
    omega
  composed := h.composed
  members := h.members

theorem axed_bands {axis : Axis} {bs : List (List Tree)} {t : Tree} {j : Journal} (hk : k ≤ j.created)
    (ht : Open k t) (hbs : bs = bands axis t.flow) (hlen : 1 < bs.length) :
    Axed k t ⟨{ t.node with direction := some axis }, (bs.mapM (bandTree axis) j).1, t.attached⟩ := by
  have hl := Journaled.length_mapM (bandTree axis) bs j
  have hg := grouped_mapM (bandTree axis) (sortByKey fun t => t.box.start axis.cross) bs
    (fun b hb j => grouped_bandTree (ne_nil_of_mem_bands (hbs ▸ hb)) j) j
  have hperm := perm_flatMap_bands hbs
  refine ⟨rfl, ?_, fun m hm => ?_, fun m hm => ?_⟩
  · have h := Steps.older_le (fun _ _ h => h.1) hg.sheds hk
    rw [← censusAll_perm hperm] at h
    simp only [Tree.members, censusAll_append, older_add]
    exact Nat.add_le_add_right h _
  · rcases List.mem_append.1 hm with hm | hm
    · exact hg.composed (fun u hu => ht u (List.mem_append_left _ (hperm.mem_iff.2 hu))) m hm
    · exact (ht m (List.mem_append_right _ hm)).composed
  · rcases List.mem_append.1 hm with hm | hm
    · exact .inr ⟨by dsimp only; omega, hm⟩
    · exact .inl (ht m (List.mem_append_right _ hm)).basic

theorem axed_layOut (preferred : Axis) {budget : Nat} {t : Tree} {j : Journal} (hk : k ≤ j.created)
    (hc : t.node.isContent = false) (ht : Open k t) : Axed k t (layOut preferred budget t j).1 := by
  induction budget generalizing t j with
  | zero => exact (axed_open ht (n := { t.node with direction := some preferred }) rfl).collapseWrapper
  | succ budget ih =>
    unfold layOut
    split
    · exact (axed_open ht (n := { t.node with direction := some preferred }) rfl).collapseWrapper
    · next hl =>
      cases haxis : chooseAxis preferred t.flow with
      | some p =>
        obtain ⟨axis, bs⟩ := p
        obtain ⟨hbs, hlen⟩ := eq_bands_of_chooseAxis haxis
        exact (axed_bands hk ht hbs hlen).collapseWrapper
      | none =>
        obtain ⟨i, o, ho, hperm⟩ := offender?_of_not_length_le_one hl
        obtain ⟨n, flow, attached⟩ := t
        have hs : Shifts (⟨n, flow, attached⟩, j.created) (⟨n, flow.eraseIdx i, attached ++ [o]⟩, j.created) :=
          .reorder hperm (.single (.detach _ _ _ _ _))
        dsimp only
        rw [ho]
        dsimp only
        rw [Journaled.run_bind]
        exact .of_shifts hc hk hs (ih (j := (Journal.warn _ _ _ j).2) hk hc (hs.isOpen ht))

theorem axed_makeFlex {t : Tree} {j : Journal} (hk : k ≤ j.created) (hc : t.node.isContent = false) (ht : Open k t) :
    Axed k t (makeFlex t j).1 := by
  unfold makeFlex
  split
  · exact axed_open ht rfl
  · exact axed_layOut _ hk hc ht

/-- One level of regrouping. -/
theorem axed_level {t : Tree} {j : Journal} (hk : k ≤ j.created) (hc : t.node.isContent = false)
    (ht : t.Every (Composed k)) : Axed k t (level t j).1 := by
  cases hp : isPreset t.node with
  | true =>
    obtain ⟨hs, hm⟩ := every_iff.1 ht
    rw [level_of_preset hp]
    exact ⟨rfl, le_rfl, hm, fun m h => (hs.members m h).imp_right And.right⟩
  | false =>
    obtain ⟨u, j', hshift, hr⟩ := shifts_level hp j
    have hopen := hshift.isOpen (open_of_composed ht (isPreset_iff.1 hp).1)
    rw [hr]
    refine .of_shifts hc hk hshift (axed_makeFlex (hk.trans hshift.created_le) ?_ hopen)
    exact (Shifts.slides hc hshift).1

end FlexRecovery.Regroup
