import FlexRecovery.Proofs.Shifts

/-!
What the box of an owner says about its flow children. Each lies within reach of it: over the tolerance, and over
the boxes of containers that were folded on the way, of which each was the same as the one before it.
-/

namespace FlexRecovery

open Box

namespace Tree

variable {l : Multiset Box} {b : Box} {t : Tree}

/-- The flow children of every owner lie within its reach. -/
abbrev Holds (l : Multiset Box) (t : Tree) : Prop := t.Every (Flowing (Reaches l))

theorem holds_add (h : t.Holds l) (m : Multiset Box) : t.Holds (l + m) := h.mono fun _ hs u hu => (hs u hu).add m

namespace Placed

theorem add (h : Placed (Reaches l) b t) (m : Multiset Box) : Placed (Reaches (l + m)) b t :=
  ⟨h.self.add m, holds_add h.below m⟩

/-- What lay near a container lies near the box that the container folds into. -/
theorem step {a : Box} (h : Placed (Reaches l) a t) (hb : b.same a = true) : Placed (Reaches (l + {a})) b t :=
  ⟨h.self.step hb, holds_add h.below _⟩

theorem addFlow {ts : List Tree} (h : Placed (Reaches l) b t)
    (ht : ∀ u ∈ ts, t.box.contains u.box = true ∧ u.Holds l) : Placed (Reaches l) b (t.addFlow ts) := by
  obtain ⟨n, f, a⟩ := t
  obtain ⟨hf, ha⟩ := every_flowing_mk.1 h.below
  refine ⟨h.self, every_flowing_mk.2 ⟨List.forall_mem_append.2 ⟨hf, fun u hu => ?_⟩, ha⟩⟩
  exact ⟨reaches_of_contains (ht u hu).1 l, (ht u hu).2⟩

theorem addAttached {ts : List Tree} (h : Placed (Reaches l) b t) (ht : ∀ u ∈ ts, u.Holds l) :
    Placed (Reaches l) b (t.addAttached ts) := by
  obtain ⟨n, f, a⟩ := t
  obtain ⟨hf, ha⟩ := every_flowing_mk.1 h.below
  exact ⟨h.self, every_flowing_mk.2 ⟨hf, List.forall_mem_append.2 ⟨ha, ht⟩⟩⟩

end Placed

end Tree

namespace Regroup

open Tree

variable {l : Multiset Box} {b : Box} {c c' c'' : Nat}

/-- A new container around some trees holds them, and lies where they lie. -/
theorem placed_container {n : Node} {bs : List Box} {g : List Tree} (hn : n.box.Around bs)
    (hb : ∀ d ∈ bs, Reaches l b d) (hg : ∀ t ∈ g, n.box.Frames t.box ∧ t.Holds l) :
    Placed (Reaches l) b ⟨n, g, []⟩ := by
  refine ⟨.around hb hn, every_flowing_mk.2 ⟨fun t ht => ?_, by simp⟩⟩
  exact ⟨reaches_of_contains (hg t ht).1.contains l, (hg t ht).2⟩

theorem Grouped.placed {roles : List Role} {ts us : List Tree} (h : Grouped roles ts c us c')
    (ht : ∀ t ∈ ts, Placed (Reaches l) b t) : ∀ u ∈ us, Placed (Reaches l) b u := by
  induction h with
  | nil => simp
  | own hn _ ih =>
    obtain ⟨ht, hts⟩ := List.forall_mem_cons.1 ht
    exact List.forall_mem_cons.2 ⟨ht.node hn.kept.2, ih hts⟩
  | wrapped _ _ hb _ ih =>
    obtain ⟨hg, hts⟩ := List.forall_mem_append.1 ht
    refine List.forall_mem_cons.2 ⟨placed_container hb ?_ fun t ht => ⟨?_, (hg t ht).below⟩, ih hts⟩
    · exact List.forall_mem_map.2 fun t ht => (hg t ht).self
    · exact hb.frames _ (List.mem_map_of_mem ht)

/-- A box that frames all trees frames the groups made of them. -/
theorem Grouped.frames {roles : List Role} {ts us : List Tree} (h : Grouped roles ts c us c')
    (ht : ∀ t ∈ ts, b.Frames t.box) : ∀ u ∈ us, b.Frames u.box := by
  induction h with
  | nil => simp
  | own hn _ ih =>
    obtain ⟨ht, hts⟩ := List.forall_mem_cons.1 ht
    refine List.forall_mem_cons.2 ⟨?_, ih hts⟩
    rw [Tree.box, hn.kept.2]
    exact ht
  | wrapped _ _ hb _ ih =>
    obtain ⟨hg, hts⟩ := List.forall_mem_append.1 ht
    refine List.forall_mem_cons.2 ⟨fun e => ?_, ih hts⟩
    obtain ⟨d, hd, he⟩ := hb.tight e
    obtain ⟨t, ht, rfl⟩ := List.mem_map.1 hd
    exact he ▸ hg t ht e

/-- What a tree has become; what was dropped on the way is all that its owners may reach over. -/
def Slides (t : Tree) (c : Nat) (r : Tree) (c' : Nat) : Prop :=
  ∃ g, Sheds Node.Kept t.census c g r.census c' ∧ ∀ l, t.Holds l → r.Holds (l + g.map Node.box)

theorem slides_of_sheds {t r : Tree} (hs : Sheds Node.Kept t.census c 0 r.census c')
    (hh : ∀ l, t.Holds l → r.Holds l) : Slides t c r c' :=
  ⟨0, hs, fun l h => by simpa using hh l h⟩

theorem Slides.refl (t : Tree) (c : Nat) : Slides t c t c := slides_of_sheds (.refl _ _) fun _ h => h

theorem Slides.trans {t u r : Tree} (h : Slides t c u c') (h' : Slides u c' r c'') : Slides t c r c'' := by
  obtain ⟨g, hs, hh⟩ := h
  obtain ⟨g', hs', hh'⟩ := h'
  refine ⟨g + g', hs.trans hs', fun l hl => ?_⟩
  rw [Multiset.map_add, ← add_assoc]
  exact hh' _ (hh l hl)

theorem Slides.turns {t r : Tree} (h : Slides t c r c') : Turns Node.Kept t.census c r.census c' :=
  h.imp fun _ hs => hs.1

theorem slides_node {t : Tree} {n : Node} (h : t.node.Kept n) (c : Nat) : Slides t c ⟨n, t.flow, t.attached⟩ c := by
  refine slides_of_sheds ?_ fun l hl => (every_flowing_node h.2).2 hl
  have hs := sheds_node h 0 c
  rw [add_zero, add_zero] at hs
  exact hs

section shifts

variable {n : Node} {f a : List Tree}

theorem slides_foldUp {x : Tree} (hn : n.isContent = false) (h : isRedundant n.box x = true) :
    Slides ⟨n, x :: f, a⟩ c ⟨n.absorb x.node, x.flow ++ f, a ++ x.attached⟩ c := by
  obtain ⟨⟨hx, -⟩, hb⟩ : (x.node.isContent = false ∧ x.node.roles.isList = false) ∧ x.box.same n.box = true := by
    simpa [isRedundant] using h
  rw [Box.same_comm] at hb
  refine ⟨{x.node}, ?_, fun l hl => ?_⟩
  · have hs := Sheds.fold (R := Node.Kept) hn hx hb
      (censusAll x.flow + censusAll f + (censusAll a + censusAll x.attached)) c
    rw [census_mk, census_mk, censusAll_cons, census_eq x, censusAll_append, censusAll_append]
    convert hs using 1
    simp only [← Multiset.singleton_add]
    abel
  · obtain ⟨hf, ha⟩ := every_flowing_mk.1 hl
    obtain ⟨hx, hf⟩ := List.forall_mem_cons.1 hf
    obtain ⟨hxf, hxa⟩ := every_flowing_mk.1 ((every_flowing_node rfl).2 hx.below)
    rw [Multiset.map_singleton]
    refine every_flowing_mk.2 ⟨List.forall_mem_append.2 ⟨fun m hm => ?_, fun m hm => ?_⟩,
      List.forall_mem_append.2 ⟨fun m hm => holds_add (ha m hm) _, fun m hm => holds_add (hxa m hm) _⟩⟩
    · rw [Node.box_absorb]
      exact (hxf m hm).step hb
    · rw [Node.box_absorb]
      exact (hf m hm).add _

/-- A tree is made of those at the front. -/
theorem slides_front (xs : List Tree) {y : Tree} {g : Multiset Node}
    (hs : Sheds Node.Kept (censusAll xs) c g y.census c')
    (hh : ∀ l b, (∀ x ∈ xs, Placed (Reaches l) b x) → Placed (Reaches (l + g.map Node.box)) b y) :
    Slides ⟨n, xs ++ f, a⟩ c ⟨n, y :: f, a⟩ c' := by
  refine ⟨g, ?_, fun l hl => ?_⟩
  · have h := hs.frame (n ::ₘ (censusAll f + censusAll a))
    rw [Multiset.add_cons, Multiset.add_cons, ← add_assoc, ← add_assoc, ← censusAll_append, ← censusAll_cons,
      ← census_mk, ← census_mk] at h
    exact h
  · obtain ⟨hf, ha⟩ := every_flowing_mk.1 hl
    obtain ⟨hx, hf⟩ := List.forall_mem_append.1 hf
    exact every_flowing_mk.2 ⟨List.forall_mem_cons.2 ⟨hh l _ hx, fun m hm => (hf m hm).add _⟩,
      fun m hm => holds_add (ha m hm) _⟩

/-- The same, when nothing is dropped. -/
theorem slides_front_kept (xs : List Tree) {y : Tree}
    (hs : Sheds Node.Kept (censusAll xs) c 0 y.census c')
    (hh : ∀ l b, (∀ x ∈ xs, Placed (Reaches l) b x) → Placed (Reaches l) b y) :
    Slides ⟨n, xs ++ f, a⟩ c ⟨n, y :: f, a⟩ c' :=
  slides_front xs hs fun l b hx => by simpa using hh l b hx

theorem slides_fuse {x y : Tree} (hx : x.node.isContent = false) (hy : y.node.isContent = false)
    (h : x.box.same y.box = true) : Slides ⟨n, x :: y :: f, a⟩ c ⟨n, fused x y :: f, a⟩ c := by
  refine slides_front [x, y] (g := {y.node}) ?_ fun l b hxy => ?_
  · have hs := Sheds.fold (R := Node.Kept) hx hy h
      (censusAll (x.flow ++ y.flow) + censusAll (x.attached ++ y.attached)) c
    rw [fused, census_mk, censusAll_cons, censusAll_cons, censusAll_nil, census_eq x, census_eq y]
    convert hs using 1
    simp only [censusAll_append, ← Multiset.singleton_add]
    abel
  · obtain ⟨hx, hy⟩ := List.forall_mem_cons.1 hxy
    obtain ⟨hxf, hxa⟩ := every_flowing_mk.1 ((every_flowing_node rfl).2 hx.below)
    obtain ⟨hyf, hya⟩ := every_flowing_mk.1 ((every_flowing_node rfl).2 (hy y (by simp)).below)
    rw [Multiset.map_singleton]
    refine ⟨?_, every_flowing_mk.2 ⟨?_, ?_⟩⟩
    · rw [Tree.box, fused, Node.box_absorb]
      exact hx.self.add _
    · rw [Node.box_absorb]
      exact List.forall_mem_append.2 ⟨fun m hm => (hxf m hm).add _, fun m hm => (hyf m hm).step h⟩
    · exact List.forall_mem_append.2 ⟨fun m hm => holds_add (hxa m hm) _, fun m hm => holds_add (hya m hm) _⟩

theorem box_hosting (x : Tree) : (hosting x).box = x.box := (kept_hosting x).2

/-- An owner that takes others in stays where it is. -/
theorem placed_hosting {x : Tree} (h : Placed (Reaches l) b x) : Placed (Reaches l) b (hosting x) := by
  rw [hosting_eq]
  exact h.node (kept_hosting x).2

theorem sheds_hosting (x : Tree) (m : Multiset Node) (c : Nat) :
    Sheds Node.Kept (x.census + m) c 0 ((hosting x).census + m) c := by
  have hs := sheds_node (kept_hosting x) m c
  rw [← hosting_eq] at hs
  exact hs

theorem slides_host {x : Tree} {ys : List Tree} (h : ∀ y ∈ ys, x.box.contains y.box = true) :
    Slides ⟨n, x :: (ys ++ f), a⟩ c ⟨n, (hosting x).addFlow ys :: f, a⟩ c := by
  refine slides_front_kept (x :: ys) ?_ fun l b hm => ?_
  · rw [censusAll_cons, census_addFlow]
    exact sheds_hosting x (censusAll ys) c
  · obtain ⟨hx, hys⟩ := List.forall_mem_cons.1 hm
    refine (placed_hosting hx).addFlow fun y hy => ⟨?_, (hys y hy).below⟩
    rw [box_hosting]
    exact h y hy

theorem slides_attach (x y : Tree) :
    Slides ⟨n, x :: y :: f, a⟩ c ⟨n, (hosting x).addAttached [y] :: f, a⟩ c := by
  refine slides_front_kept [x, y] ?_ fun l b hm => ?_
  · rw [censusAll_cons, census_addAttached]
    exact sheds_hosting x (censusAll [y]) c
  · obtain ⟨hx, hy⟩ := List.forall_mem_cons.1 hm
    exact (placed_hosting hx).addAttached fun u hu => (hy u hu).below

theorem slides_border (x y : Tree) :
    Slides ⟨n, x :: y :: f, a⟩ c ⟨n, x.addAttached [y.mapNode (·.addRole .border)] :: f, a⟩ c := by
  have hy := (Node.alike_addRole y.node (r := .border) rfl).kept
  refine slides_front_kept [x, y] ?_ fun l b hm => ?_
  · have hs := sheds_node (t := y) hy x.census c
    rw [censusAll_cons, census_addAttached, censusAll_cons, censusAll_cons, censusAll_nil, add_zero, add_zero,
      add_comm, add_comm x.census]
    exact hs
  · obtain ⟨hx, hm⟩ := List.forall_mem_cons.1 hm
    exact hx.addAttached (List.forall_mem_singleton.2 ((every_flowing_node hy.2).2 (hm y (by simp)).below))

theorem slides_detach (y : Tree) : Slides ⟨n, y :: f, a⟩ c ⟨n, f, a ++ [y]⟩ c := by
  refine slides_of_sheds ?_ fun l hl => ?_
  · rw [census_mk, census_mk, censusAll_cons, censusAll_append, censusAll_cons, censusAll_nil, add_zero,
      ← add_assoc (censusAll f), add_comm _ y.census, add_assoc y.census]
    exact .refl _ _
  · obtain ⟨hf, ha⟩ := every_flowing_mk.1 hl
    obtain ⟨hy, hf⟩ := List.forall_mem_cons.1 hf
    exact every_flowing_mk.2 ⟨hf, List.forall_mem_append.2 ⟨ha, List.forall_mem_singleton.2 hy.below⟩⟩

theorem slides_enlist {roles list : List Role} {xs items : List Tree} (h : Grouped roles xs c items c') {m : Node}
    (hm : Container list m c') (hb : m.box.Around (xs.map box)) :
    Slides ⟨n, xs ++ f, a⟩ c ⟨n, ⟨m, items, []⟩ :: f, a⟩ (c' + 1) := by
  refine slides_front_kept xs ?_ fun l b hx => ?_
  · rw [census_mk, censusAll_nil, add_zero]
    exact h.sheds.head (.make hm.made _)
  · have hframes := h.frames fun x hx => hb.frames _ (List.mem_map_of_mem hx)
    refine placed_container hb ?_ fun u hu => ⟨hframes u hu, (h.placed hx u hu).below⟩
    exact List.forall_mem_map.2 fun x hmem => (hx x hmem).self

end shifts

theorem Shift.slides {s s' : Tree × Nat} (hs : s.1.node.isContent = false) (h : Shift s s') :
    Slides s.1 s.2 s'.1 s'.2 := by
  cases h with
  | reorder h n a k =>
    refine slides_of_sheds ?_ fun l hl => ?_
    · rw [census_mk, census_mk, censusAll_perm h]
      exact .refl _ _
    · obtain ⟨hf, ha⟩ := every_flowing_mk.1 hl
      exact every_flowing_mk.2 ⟨fun m hm => hf m (h.mem_iff.2 hm), ha⟩
  | foldUp h f a k => exact slides_foldUp hs h
  | fuse hx hy h n f a k => exact slides_fuse hx hy h
  | host h hb n f a k => exact slides_host hb
  | attach h y n f a k => exact slides_attach _ y
  | border h y n f a k => exact slides_border _ y
  | detach y n f a k => exact slides_detach y
  | enlist hi hl h hlen hm hb n f a => exact slides_enlist h hm hb

theorem Shifts.slides {s s' : Tree × Nat} (hs : s.1.node.isContent = false) (h : Shifts s s') :
    s'.1.node.isContent = false ∧ Slides s.1 s.2 s'.1 s'.2 := by
  induction h with
  | refl => exact ⟨hs, .refl _ _⟩
  | tail _ hs ih =>
    refine ⟨?_, ih.2.trans (hs.slides ih.1)⟩
    cases hs <;> simpa using ih.1

end Regroup

end FlexRecovery
