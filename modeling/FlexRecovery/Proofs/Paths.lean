import FlexRecovery.Proofs.Census

/-!
Where no index occurs twice, each node of a tree is reached over exactly one path.
-/

namespace FlexRecovery.Tree

/-- No index occurs at two nodes. -/
def Unique (l : Multiset Node) : Prop := (l.map Node.index).Nodup

theorem Unique.of_cons {n : Node} {l : Multiset Node} (h : Unique (n ::ₘ l)) :
    (∀ m ∈ l, m.index ≠ n.index) ∧ Unique l := by
  rw [Unique, Multiset.map_cons, Multiset.nodup_cons] at h
  exact ⟨fun m hm hi => h.1 (Multiset.mem_map.2 ⟨m, hm, hi⟩), h.2⟩

theorem Unique.of_add {l m : Multiset Node} (h : Unique (l + m)) :
    Unique l ∧ Unique m ∧ ∀ x ∈ l, ∀ y ∈ m, x.index ≠ y.index := by
  rw [Unique, Multiset.map_add, Multiset.nodup_add] at h
  refine ⟨h.1, h.2.1, fun x hx y hy hi => ?_⟩
  exact Multiset.disjoint_left.1 h.2.2 (Multiset.mem_map_of_mem _ hx) (hi ▸ Multiset.mem_map_of_mem _ hy)

/-- No index of the one occurs in the other. -/
def Apart (t u : Tree) : Prop := ∀ x ∈ t.census, ∀ y ∈ u.census, x.index ≠ y.index

theorem pairwise_apart {ts : List Tree} (h : Unique (censusAll ts)) : ts.Pairwise Apart := by
  induction ts with
  | nil => exact .nil
  | cons t ts ih =>
    rw [censusAll_cons] at h
    obtain ⟨-, hts, hx⟩ := h.of_add
    refine List.pairwise_cons.2 ⟨fun u hu x hx' y hy => ?_, ih hts⟩
    exact hx x hx' y (mem_censusAll.2 ⟨u, hu, hy⟩)

theorem unique_of_mem {ts : List Tree} (h : Unique (censusAll ts)) {t : Tree} (ht : t ∈ ts) : Unique t.census := by
  induction ts with
  | nil => cases ht
  | cons u ts ih =>
    rw [censusAll_cons] at h
    obtain ⟨hu, hts, -⟩ := h.of_add
    rcases List.mem_cons.1 ht with rfl | ht
    · exact hu
    · exact ih hts ht

/-- Trees at two positions are apart. -/
theorem eq_of_getElem? {ts : List Tree} (h : ts.Pairwise Apart) {i j : Nat} {t u : Tree} (ht : ts[i]? = some t)
    (hu : ts[j]? = some u) {x y : Node} (hx : x ∈ t.census) (hy : y ∈ u.census) (hi : x.index = y.index) : i = j := by
  obtain ⟨hil, rfl⟩ := List.getElem?_eq_some_iff.1 ht
  obtain ⟨hjl, rfl⟩ := List.getElem?_eq_some_iff.1 hu
  have hp := List.pairwise_iff_getElem.1 h
  rcases Nat.lt_trichotomy i j with hlt | heq | hgt
  · exact absurd hi (hp i j hil hjl hlt x hx y hy)
  · exact heq
  · exact absurd hi (hp j i hjl hil hgt y hy x hx).symm

theorem mem_of_member? {t m : Tree} {s : Step} (h : t.member? s = some m) : m ∈ t.members := by
  obtain ⟨link, i⟩ := s
  cases link
  · exact List.mem_append_left _ (List.mem_of_getElem? h)
  · exact List.mem_append_right _ (List.mem_of_getElem? h)

theorem mem_censusAll_members {t m : Tree} (h : m ∈ t.members) {x : Node} (hx : x ∈ m.census) :
    x ∈ censusAll t.flow + censusAll t.attached := by
  rw [← censusAll_append]
  exact mem_censusAll.2 ⟨m, h, hx⟩

/-- A node lies below one member only. -/
theorem step_unique {t m m' : Tree} (h : Unique t.census) {a b : Step} (ha : t.member? a = some m)
    (hb : t.member? b = some m') {x y : Node} (hx : x ∈ m.census) (hy : y ∈ m'.census) (hi : x.index = y.index) :
    a = b := by
  rw [census_eq] at h
  obtain ⟨hf, hat, hfa⟩ := h.of_cons.2.of_add
  obtain ⟨la, i⟩ := a
  obtain ⟨lb, j⟩ := b
  cases la <;> cases lb
  · have hij : i = j := eq_of_getElem? (pairwise_apart hf) ha hb hx hy hi
    rw [hij]
  · have hx' : x ∈ censusAll t.flow := mem_censusAll.2 ⟨m, List.mem_of_getElem? ha, hx⟩
    have hy' : y ∈ censusAll t.attached := mem_censusAll.2 ⟨m', List.mem_of_getElem? hb, hy⟩
    exact absurd hi (hfa x hx' y hy')
  · have hx' : x ∈ censusAll t.attached := mem_censusAll.2 ⟨m, List.mem_of_getElem? ha, hx⟩
    have hy' : y ∈ censusAll t.flow := mem_censusAll.2 ⟨m', List.mem_of_getElem? hb, hy⟩
    exact absurd hi.symm (hfa y hy' x hx')
  · have hij : i = j := eq_of_getElem? (pairwise_apart hat) ha hb hx hy hi
    rw [hij]

theorem at?_cons {t : Tree} {a : Step} {path : List Step} {s : Tree} (h : t.at? (a :: path) = some s) :
    ∃ m, t.member? a = some m ∧ m.at? path = some s := by
  rw [at?] at h
  exact Option.bind_eq_some_iff.1 h

theorem mem_census_of_at? {t s : Tree} {path : List Step} (h : t.at? path = some s) : s.node ∈ t.census := by
  induction path generalizing t with
  | nil =>
    cases h
    exact node_mem_census s
  | cons a path ih =>
    obtain ⟨m, hm, h⟩ := at?_cons h
    rw [census_eq]
    exact Multiset.mem_cons_of_mem (mem_censusAll_members (mem_of_member? hm) (ih h))

theorem unique_member {t m : Tree} (h : Unique t.census) (hm : m ∈ t.members) : Unique m.census := by
  rw [census_eq, ← censusAll_append] at h
  exact unique_of_mem h.of_cons.2 hm

/-- Two paths to one index are the same path. -/
theorem path_unique {t u v : Tree} (h : Unique t.census) {p q : List Step} (hp : t.at? p = some u)
    (hq : t.at? q = some v) (hi : u.node.index = v.node.index) : p = q := by
  have below {t u : Tree} {a : Step} {path : List Step} (h : Unique t.census) (hp : t.at? (a :: path) = some u) :
      u.node.index ≠ t.node.index := by
    obtain ⟨m, hm, hp⟩ := at?_cons hp
    rw [census_eq] at h
    exact h.of_cons.1 _ (mem_censusAll_members (mem_of_member? hm) (mem_census_of_at? hp))
  induction p generalizing t q with
  | nil =>
    cases hp
    cases q with
    | nil => rfl
    | cons b q => exact absurd hi.symm (below h hq)
  | cons a p ih =>
    cases q with
    | nil =>
      cases hq
      exact absurd hi (below h hp)
    | cons b q =>
      obtain ⟨m, hm, hp'⟩ := at?_cons hp
      obtain ⟨m', hm', hq'⟩ := at?_cons hq
      obtain rfl := step_unique h hm hm' (mem_census_of_at? hp') (mem_census_of_at? hq') hi
      obtain rfl := Option.some.inj (hm.symm.trans hm')
      rw [ih (unique_member h (mem_of_member? hm)) hp' hq']

end FlexRecovery.Tree
