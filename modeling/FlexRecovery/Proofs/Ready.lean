import FlexRecovery.Proofs.Holding

/-!
What regrouping finds and leaves at every node it has not come to yet. Nodes with an index below a bound
were drafted, all others are containers that regrouping made.
-/

namespace FlexRecovery.Regroup

open Tree

/-- Drafted, or a list: the members of a container that is still to be laid out. -/
structure Tame (k : Nat) (t : Tree) : Prop where
  kind : t.node.index < k ∨ t.node.roles.isList = true
  row : t.node.hasRole .tableRow = false

structure Sound (k : Nat) (t : Tree) : Prop where
  layer : t.node.index < k → t.node.id.isSome = true
  parts : k ≤ t.node.index → 2 ≤ t.flow.length
  directed : isPreset t.node = true → t.node.direction.isSome = true
  shared : t.node.direction.isSome = true → t.flow ≠ []
  content : t.node.isContent = true → t.flow = [] ∧ t.node.direction.isSome = false
  text : t.node.isText = true → t.attached = []
  span : t.node.tag ≠ .span
  pending : t.node.Pending
  tame : isPreset t.node = false → ∀ m ∈ t.members, Tame k m

/-- A member that may be shifted. -/
def Fit (k : Nat) (t : Tree) : Prop := Tame k t ∧ t.Every (Sound k)

/-- An owner that is being regrouped; what it is itself does not matter before its axis is chosen. -/
structure Ready (k : Nat) (t : Tree) : Prop where
  content : t.node.isContent = false
  layer : t.node.index < k → t.node.id.isSome = true
  pending : t.node.Pending
  members : ∀ m ∈ t.members, Fit k m

variable {k : Nat}

theorem not_content_of_sound {t : Tree} (h : Sound k t) (ht : t.node.isText = false)
    (hi : t.node.isImage = false) : t.node.isContent = false := by
  have hs := h.span
  unfold Node.isContent
  unfold Node.isText at ht
  unfold Node.isImage at hi
  cases hn : t.node.tag <;> simp_all

theorem Tame.alike {t : Tree} {n : Node} (h : Tame k t) (hn : t.node.Alike n) (f a : List Tree) :
    Tame k ⟨n, f, a⟩ where
  kind := by
    rw [hn.kept.1.index, hn.list]
    exact h.kind
  row := hn.row.trans h.row

theorem Sound.alike {t : Tree} {n : Node} (h : Sound k t) (hn : t.node.Alike n) : Sound k ⟨n, t.flow, t.attached⟩ where
  layer := by
    rw [hn.kept.1.index, hn.kept.1.id]
    exact h.layer
  parts := by
    rw [hn.kept.1.index]
    exact h.parts
  directed := by
    rw [isPreset_of_alike hn, hn.direction]
    exact h.directed
  shared := by
    rw [hn.direction]
    exact h.shared
  content := by
    rw [hn.direction, Node.isContent, hn.tag]
    exact h.content
  text := by
    rw [Node.isText, hn.tag]
    exact h.text
  span := by
    rw [hn.tag]
    exact h.span
  pending := hn.pending h.pending
  tame := by
    rw [isPreset_of_alike hn]
    exact h.tame

theorem Fit.alike {t : Tree} {n : Node} (h : Fit k t) (hn : t.node.Alike n) : Fit k ⟨n, t.flow, t.attached⟩ := by
  obtain ⟨ht, hs⟩ := h
  obtain ⟨hs, hm⟩ := every_iff.1 hs
  exact ⟨ht.alike hn _ _, every_iff.2 ⟨hs.alike hn, hm⟩⟩

/-- The members of a container that is no list and no table row are fit as well. -/
theorem Fit.members {t : Tree} (h : Fit k t) (hl : t.node.roles.isList = false) : ∀ m ∈ t.members, Fit k m := by
  intro m hm
  obtain ⟨hs, hms⟩ := every_iff.1 h.2
  exact ⟨hs.tame (isPreset_iff.2 ⟨hl, h.1.row⟩) m hm, hms m hm⟩

theorem mem_members_fused {x y m : Tree} (h : m ∈ (fused x y).members) : m ∈ x.members ∨ m ∈ y.members := by
  simp only [fused, Tree.members, List.mem_append] at h ⊢
  tauto

theorem row_absorb {x y : Node} (hx : x.hasRole .tableRow = false) (hy : y.hasRole .tableRow = false) :
    (x.absorb y).hasRole .tableRow = false := by
  rw [Node.hasRole_absorb _ _ (by simp), hx, hy, Bool.or_false]

/-- The fused container has what either of the two had, so each rule comes from the one that had it. -/
theorem sound_fused {x y : Tree} (hx : Sound k x) (hy : Sound k y) (hxr : x.node.hasRole .tableRow = false)
    (hyr : y.node.hasRole .tableRow = false) (hxc : x.node.isContent = false) : Sound k (fused x y) where
  layer := by
    intro h
    simp only [fused, Node.index_absorb] at h
    simp only [fused, Node.isSome_id_absorb, hx.layer h, Bool.true_or]
  parts := by
    intro h
    simp only [fused, Node.index_absorb, List.length_append] at h ⊢
    have := hx.parts h
    omega
  directed := by
    intro h
    simp only [fused, isPreset, Node.isList_absorb, row_absorb hxr hyr, Bool.or_false, Bool.or_eq_true] at h
    rw [fused, Node.isSome_direction_absorb, Bool.or_eq_true]
    exact h.imp (fun h => hx.directed (by simp [isPreset, h])) fun h => hy.directed (by simp [isPreset, h])
  shared := by
    intro h
    rw [fused, Node.isSome_direction_absorb, Bool.or_eq_true] at h
    rw [fused, ne_eq, List.append_eq_nil_iff]
    rintro ⟨hxf, hyf⟩
    exact h.elim (fun h => hx.shared h hxf) fun h => hy.shared h hyf
  content := by
    intro h
    simp only [fused, Node.isContent_absorb, hxc, Bool.false_eq_true] at h
  text := by
    intro h
    simp only [fused, Node.isText_absorb, Node.isText_of_not_content hxc, Bool.false_eq_true] at h
  span := by
    simp only [fused, Node.tag_absorb]
    exact hx.span
  pending := hx.pending.absorb hy.pending
  tame := by
    intro h m hm
    simp only [fused, isPreset_iff, Node.isList_absorb, Bool.or_eq_false_iff] at h
    rcases mem_members_fused hm with hm | hm
    · exact hx.tame (isPreset_iff.2 ⟨h.1.1, hxr⟩) m hm
    · exact hy.tame (isPreset_iff.2 ⟨h.1.2, hyr⟩) m hm

theorem fit_fused {x y : Tree} (hx : Fit k x) (hy : Fit k y) (hxc : x.node.isContent = false) :
    Fit k (fused x y) := by
  obtain ⟨hsx, hmx⟩ := every_iff.1 hx.2
  obtain ⟨hsy, hmy⟩ := every_iff.1 hy.2
  refine ⟨⟨?_, ?_⟩, every_iff.2 ⟨sound_fused hsx hsy hx.1.row hy.1.row hxc, fun m hm =>
    (mem_members_fused hm).elim (hmx m) (hmy m)⟩⟩
  · simp only [fused, Node.index_absorb, Node.isList_absorb]
    exact hx.1.kind.imp_right fun h => by rw [h, Bool.true_or]
  · exact row_absorb hx.1.row hy.1.row

/-- More members come in, and nothing else changes. -/
theorem fit_of_members {x y : Tree} (hx : Fit k x) (hy : Sound k y) (hr : y.node.roles = x.node.roles)
    (hi : y.node.index = x.node.index) (hm : ∀ m ∈ y.members, m ∈ x.members ∨ Fit k m) : Fit k y := by
  refine ⟨⟨?_, ?_⟩, every_iff.2 ⟨hy, fun m h => (hm m h).elim ((every_iff.1 hx.2).2 m) fun h => h.2⟩⟩
  · rw [hi, hr]
    exact hx.1.kind
  · rw [Node.hasRole, hr]
    exact hx.1.row

theorem content_hosting {x : Tree} (hx : Sound k x) (ht : x.node.isText = false) :
    (hosting x).node.isContent = false := by
  unfold hosting
  split
  · simp [mapNode, Node.isContent]
  · next hi => exact not_content_of_sound hx ht (by simpa using hi)

theorem fit_hosting {x : Tree} (hx : Fit k x) : Fit k (hosting x) := by
  unfold hosting
  split
  · have hs := (every_iff.1 hx.2).1
    refine fit_of_members hx ?_ (Node.roles_promoted _) (Node.index_promoted _) fun m h => .inl h
    exact {
      layer := by simpa [mapNode] using hs.layer
      parts := by simpa [mapNode] using hs.parts
      directed := by simpa [mapNode, isPreset, Node.hasRole] using hs.directed
      shared := by simpa [mapNode] using hs.shared
      content := by simp [mapNode, Node.isContent]
      text := by simp [mapNode, Node.isText]
      span := by simp [mapNode]
      pending := Node.pending_promoted hs.pending
      tame := by simpa [mapNode, isPreset, Node.hasRole, Tree.members] using hs.tame }
  · exact hx

theorem fit_addFlow {x : Tree} (hx : Fit k x) (hc : x.node.isContent = false) {ys : List Tree}
    (hys : ∀ y ∈ ys, Fit k y) : Fit k (x.addFlow ys) := by
  have hs := (every_iff.1 hx.2).1
  have hm : ∀ m ∈ (x.addFlow ys).members, m ∈ x.members ∨ m ∈ ys := by
    intro m hm
    simp only [addFlow, Tree.members, List.mem_append] at hm ⊢
    tauto
  refine fit_of_members hx ?_ rfl rfl fun m h => (hm m h).imp_right (hys m)
  exact { hs with
    parts := fun h => (hs.parts h).trans (by simp [addFlow])
    shared := fun h hn => hs.shared h (List.append_eq_nil_iff.1 hn).1
    content := fun h => absurd (hc.symm.trans h) (by simp)
    text := fun h => absurd ((Node.isText_of_not_content hc).symm.trans h) (by simp)
    tame := fun h m hmem => (hm m hmem).elim (hs.tame h m) fun h => (hys m h).1 }

theorem fit_addAttached {x : Tree} (hx : Fit k x) (ht : x.node.isText = false) {ys : List Tree}
    (hys : ∀ y ∈ ys, Fit k y) : Fit k (x.addAttached ys) := by
  have hs := (every_iff.1 hx.2).1
  have hm : ∀ m ∈ (x.addAttached ys).members, m ∈ x.members ∨ m ∈ ys := by
    intro m hm
    simp only [addAttached, Tree.members, List.mem_append] at hm ⊢
    tauto
  refine fit_of_members hx ?_ rfl rfl fun m h => (hm m h).imp_right (hys m)
  exact { hs with
    text := fun h => absurd (ht.symm.trans h) (by simp)
    tame := fun h m hmem => (hm m hmem).elim (hs.tame h m) fun h => (hys m h).1 }

theorem isList_of_roles {n : Node} {r : Role} (h : n.roles.toList = [r]) : n.roles.isList = r.isList := by
  simp [Roles.isList, h]

theorem hasRole_of_roles {n : Node} {rs : List Role} {r : Role} (h : n.roles.toList = rs) :
    n.hasRole r = decide (r ∈ rs) := by
  simp [Node.hasRole, Distinct.contains, h]

/-- A new container around several members is sound, whatever part it plays. -/
theorem Container.sound {roles : List Role} {n : Node} {c : Nat} (h : Container roles n c) (hc : k ≤ c)
    {g : List Tree} (hg : 2 ≤ g.length) (ht : isPreset n = false → ∀ m ∈ g, Tame k m) : Sound k ⟨n, g, []⟩ where
  layer := by
    intro hi
    have := h.made.index
    dsimp only at hi
    omega
  parts := fun _ => hg
  directed := fun _ => h.directed
  shared := by
    rintro - rfl
    simp at hg
  content := fun hn => absurd (h.content.symm.trans hn) (by simp)
  text := fun _ => rfl
  span := by simp [h.made.tag]
  pending := h.pending
  tame := by
    intro hp m hm
    exact ht hp m (by simpa [Tree.members] using hm)

/-- Groups of fit trees are sound; those that are no table rows may only lie in a list or a band. -/
theorem Grouped.sound {roles : List Role} {ts us : List Tree} {c c' : Nat} (h : Grouped roles ts c us c')
    (hc : k ≤ c) (hts : ∀ t ∈ ts, Fit k t) : ∀ u ∈ us, u.Every (Sound k) := by
  induction h with
  | nil => simp
  | @own t n hn ts us k k' h ih =>
    intro u hu
    rcases List.mem_cons.1 hu with rfl | hu
    · exact ((hts t (by simp)).alike hn.toAlike).2
    · exact ih hc (fun t ht => hts t (List.mem_cons_of_mem _ ht)) u hu
  | @wrapped g hg n c hn hb ts us c' h ih =>
    have hgf : ∀ t ∈ g, Fit k t := fun t ht => hts t (List.mem_append_left _ ht)
    intro u hu
    rcases List.mem_cons.1 hu with rfl | hu
    · refine every_iff.2 ⟨hn.sound hc hg fun _ m hm => (hgf m hm).1, fun m hm => (hgf m ?_).2⟩
      simpa [Tree.members] using hm
    · exact ih (by omega) (fun t ht => hts t (List.mem_append_right _ ht)) u hu

theorem isText_of_canHost {n : Node} (h : canHost n = true) : n.isText = false := by
  simp only [canHost, Bool.and_eq_true, Bool.not_eq_true'] at h
  exact h.1.1

/-- A fit tree takes the place of those at the front. -/
theorem Ready.front {n : Node} {g f a : List Tree} {y : Tree} (h : Ready k ⟨n, g ++ f, a⟩)
    (hy : (∀ x ∈ g, Fit k x) → Fit k y) : Ready k ⟨n, y :: f, a⟩ where
  content := h.content
  layer := h.layer
  pending := h.pending
  members := by
    have hm := h.members
    simp only [Tree.members, List.mem_append, List.mem_cons] at hm ⊢
    rintro m ((rfl | hf) | ha)
    · exact hy fun x hx => hm x (.inl (.inl hx))
    · exact hm m (.inl (.inr hf))
    · exact hm m (.inr ha)

/-- The members of a child that folds into its owner are fit to take its place. -/
theorem Ready.foldUp {n : Node} {x : Tree} {f a : List Tree} (hs : Ready k ⟨n, x :: f, a⟩)
    (h : isRedundant n.box x = true) : Ready k ⟨n.absorb x.node, x.flow ++ f, a ++ x.attached⟩ := by
  have hm := hs.members
  obtain ⟨⟨-, hlist⟩, -⟩ : (x.node.isContent = false ∧ x.node.roles.isList = false) ∧ x.box.same n.box = true := by
    simpa [isRedundant] using h
  have hfit := hm x (by simp [Tree.members])
  have hx := hfit.members hlist
  refine ⟨by rw [Node.isContent_absorb]; exact hs.content, ?_, hs.pending.absorb (every_iff.1 hfit.2).1.pending,
    fun m hm' => ?_⟩
  · rw [Node.index_absorb, Node.isSome_id_absorb]
    intro hi
    rw [hs.layer hi, Bool.true_or]
  · simp only [Tree.members, List.mem_append] at hm' hx hm
    rcases hm' with (h | h) | h | h
    · exact hx m (.inl h)
    · exact hm m (.inl (List.mem_cons_of_mem _ h))
    · exact hm m (.inr h)
    · exact hx m (.inr h)

/-- A list may lie wherever its items may. -/
theorem fit_list {item list : Role} (hl : list.isList = true) {g items : List Tree} {c c' : Nat}
    (h : Grouped [item] g c items c') (hc : k ≤ c) (hlen : 2 ≤ items.length) {n : Node}
    (hn : Container [list] n c') (hg : ∀ x ∈ g, Fit k x) : Fit k ⟨n, items, []⟩ := by
  have hn' : n.roles.isList = true := (isList_of_roles hn.roles).trans hl
  refine ⟨⟨.inr hn', ?_⟩, every_iff.2 ⟨hn.sound (hc.trans h.created_le) hlen ?_, fun u hu => ?_⟩⟩
  · rw [hasRole_of_roles hn.roles]
    cases list <;> first | rfl | cases hl
  · intro hpre
    rw [isPreset_iff, hn'] at hpre
    cases hpre.1
  · exact h.sound hc hg u (by simpa [Tree.members] using hu)

theorem Shift.ready {s s' : Tree × Nat} (h : Shift s s') (hk : k ≤ s.2) (hs : Ready k s.1) : Ready k s'.1 := by
  cases h with
  | @reorder f f' h n a c =>
    refine ⟨hs.content, hs.layer, hs.pending, fun m hm => hs.members m ?_⟩
    simpa [Tree.members, h.mem_iff] using hm
  | foldUp h f a c => exact hs.foldUp h
  | fuse hx hy h n f a c =>
    apply hs.front (g := [_, _])
    intro hm
    exact fit_fused (hm _ (by simp)) (hm _ (by simp)) hx
  | @host x h ys hb n f a c =>
    apply hs.front (g := x :: ys)
    intro hm
    have hx := hm x (by simp)
    exact fit_addFlow (fit_hosting hx) (content_hosting (every_iff.1 hx.2).1 h) fun y hy => hm y (by simp [hy])
  | @attach x h y n f a c =>
    apply hs.front (g := [x, y])
    intro hm
    have hx := hm x (by simp)
    refine fit_addAttached (fit_hosting hx) ?_ fun z hz => hm z (by simp [List.mem_singleton.1 hz])
    exact Node.isText_of_not_content (content_hosting (every_iff.1 hx.2).1 (isText_of_canHost h))
  | @border x h y n f a c =>
    apply hs.front (g := [x, y])
    intro hm
    apply fit_addAttached (hm x (by simp)) (isText_of_canHost h)
    intro z hz
    rw [List.mem_singleton.1 hz]
    exact (hm y (by simp)).alike (Node.alike_addRole _ rfl)
  | detach y n f a c =>
    refine ⟨hs.content, hs.layer, hs.pending, fun m hm => hs.members m ?_⟩
    simp only [Tree.members, List.mem_append, List.mem_cons, List.not_mem_nil, or_false] at hm ⊢
    tauto
  | enlist hi hl h hlen hn hb n f a => exact hs.front (fit_list hl h hk hlen hn)

theorem Shifts.ready {s s' : Tree × Nat} (h : Shifts s s') (hk : k ≤ s.2) (hs : Ready k s.1) : Ready k s'.1 := by
  induction h with
  | refl => exact hs
  | tail h hs ih => exact hs.ready (hk.trans (Shifts.created_le h)) ih

end FlexRecovery.Regroup
