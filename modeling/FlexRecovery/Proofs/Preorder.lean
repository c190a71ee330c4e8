import FlexRecovery.Proofs.Ownership
import Mathlib.Data.Set.Card
import Mathlib.Logic.Relation

/-!
Preorder in a store. Where no node owns itself, not even through others, the walk with a stack ends and lists what a
recursion over the members lists, and what is taken out with a node is what that list holds.
-/

namespace FlexRecovery.Store

open Relation

variable {s : Store} {k : Key}

/-! ### Owners without cycles -/

/-- A node owns its members, of either kind. -/
def Owns (s : Store) (owner k : Key) : Prop := ∃ link, k ∈ s.members owner link

theorem mem_owned {owner : Key} : k ∈ s.children owner ++ s.attached owner ↔ s.Owns owner k := by
  rw [List.mem_append]
  constructor
  · rintro (h | h)
    · exact ⟨.flow, h⟩
    · exact ⟨.attached, h⟩
  · rintro ⟨_ | _, h⟩
    · exact .inl h
    · exact .inr h

def Acyclic (s : Store) : Prop := ∀ k, ¬TransGen s.Owns k k

/-- Ranks that grow from owner to member leave no room for a cycle. -/
theorem acyclic_of_rank (rank : Key → Nat) (h : ∀ e ∈ s.edges, rank e.owner < rank e.member) : s.Acyclic := by
  have grows {j k : Key} (hjk : TransGen s.Owns j k) : rank j < rank k := by
    refine TransGen.trans_induction_on hjk ?_ fun _ _ => lt_trans
    rintro j k ⟨link, hk⟩
    obtain ⟨e, he, rfl, -, rfl⟩ := mem_members.1 hk
    exact h e he
  exact fun k hk => lt_irrefl _ (grows hk)

/-- All that lies below a node. -/
def below (s : Store) (k : Key) : Set Key := {j | TransGen s.Owns k j}

theorem finite_below (s : Store) (k : Key) : (s.below k).Finite := by
  refine (s.edges.map (·.member)).finite_toSet.subset fun j hj => ?_
  obtain ⟨i, -, link, hj⟩ := TransGen.tail'_iff.1 hj
  obtain ⟨e, he, -, -, rfl⟩ := mem_members.1 hj
  exact List.mem_map_of_mem he

theorem Acyclic.ncard_below_lt (h : s.Acyclic) {m : Key} (hm : s.Owns k m) :
    (s.below m).ncard < (s.below k).ncard := by
  refine Set.ncard_lt_ncard ⟨fun j hj => .head hm hj, fun hsub => ?_⟩ (s.finite_below k)
  exact h m (hsub (.single hm))

/-! ### The recursive list -/

/-- A node, then the lists of its flow children, then those of what is attached to it. -/
def preorder (s : Store) (h : s.Acyclic) (k : Key) : List Key :=
  k :: ((s.children k).attach.flatMap (fun c => preorder s h c.1) ++
    (s.attached k).attach.flatMap fun a => preorder s h a.1)
termination_by (s.below k).ncard
decreasing_by
  · exact h.ncard_below_lt ⟨.flow, c.2⟩
  · exact h.ncard_below_lt ⟨.attached, a.2⟩

theorem preorder_eq (h : s.Acyclic) (k : Key) :
    s.preorder h k = k :: (s.children k ++ s.attached k).flatMap (s.preorder h) := by
  rw [preorder, List.flatMap_append]
  simp only [List.flatMap_subtype, List.unattach_attach]

/-- What holds of a node if it holds of its members. -/
theorem Acyclic.induction (h : s.Acyclic) {P : Key → Prop} (step : ∀ k, (∀ m, s.Owns k m → P m) → P k) (k : Key) :
    P k := by
  induction hn : (s.below k).ncard using Nat.strong_induction_on generalizing k with
  | _ n ih =>
    subst hn
    exact step k fun m hm => ih _ (h.ncard_below_lt hm) m rfl

theorem mem_preorder (h : s.Acyclic) {j : Key} : j ∈ s.preorder h k ↔ ReflTransGen s.Owns k j := by
  induction k using h.induction with
  | step k ih =>
    rw [preorder_eq, List.mem_cons, List.mem_flatMap, ReflTransGen.cases_head_iff, eq_comm]
    refine or_congr_right (exists_congr fun m => ?_)
    rw [mem_owned]
    exact and_congr_right fun hm => ih m hm

/-! ### No node twice -/

theorem Tidy.nodup_members (tidy : s.Tidy) (owner : Key) (link : Tree.Link) : (s.members owner link).Nodup := by
  rw [members, ((perm_sortByKey _ _).map _).nodup_iff]
  exact tidy.single.sublist (List.filter_sublist.map _)

theorem Tidy.nodup_owned (tidy : s.Tidy) (k : Key) : (s.children k ++ s.attached k).Nodup := by
  refine List.nodup_append'.2 ⟨tidy.nodup_members k .flow, tidy.nodup_members k .attached, fun m hf ha => ?_⟩
  cases (tidy.one_owner hf ha).2

theorem Tidy.owner_unique (tidy : s.Tidy) {j j' : Key} (hj : s.Owns j k) (hj' : s.Owns j' k) : j' = j := by
  obtain ⟨link, hj⟩ := hj
  obtain ⟨link', hj'⟩ := hj'
  exact (tidy.one_owner hj hj').1

/-- Of two nodes above a third one lies above the other. -/
theorem Tidy.comparable (tidy : s.Tidy) {m m' j : Key} (hm : ReflTransGen s.Owns m j)
    (hm' : ReflTransGen s.Owns m' j) : ReflTransGen s.Owns m m' ∨ ReflTransGen s.Owns m' m := by
  have unique : Relator.RightUnique (Function.swap s.Owns) := fun _ _ _ h h' => (tidy.owner_unique h h').symm
  have total := ReflTransGen.total_of_right_unique unique (reflTransGen_swap.2 hm) (reflTransGen_swap.2 hm')
  exact total.symm.imp reflTransGen_swap.1 reflTransGen_swap.1

/-- A member does not lie below another member of the same owner. -/
theorem Tidy.eq_of_siblings (tidy : s.Tidy) (h : s.Acyclic) {m m' : Key} (hm : s.Owns k m) (hm' : s.Owns k m')
    (hmm : ReflTransGen s.Owns m m') : m = m' := by
  rcases ReflTransGen.cases_tail hmm with heq | ⟨j, hmj, hj⟩
  · exact heq.symm
  · obtain rfl := tidy.owner_unique hj hm'
    exact absurd (TransGen.head' hm hmj) (h _)

theorem Tidy.nodup_preorder (tidy : s.Tidy) (h : s.Acyclic) (k : Key) : (s.preorder h k).Nodup := by
  induction k using h.induction with
  | step k ih =>
    rw [preorder_eq, List.nodup_cons, List.nodup_flatMap]
    refine ⟨fun hk => ?_, fun m hm => ih m (mem_owned.1 hm), ?_⟩
    · obtain ⟨m, hm, hk⟩ := List.mem_flatMap.1 hk
      exact h k (.head' (mem_owned.1 hm) ((mem_preorder h).1 hk))
    · refine (tidy.nodup_owned k).imp_of_mem fun hm hm' hne j hj hj' => hne ?_
      rw [mem_owned] at hm hm'
      rw [mem_preorder] at hj hj'
      rcases tidy.comparable hj hj' with hmm | hmm
      · exact tidy.eq_of_siblings h hm hm' hmm
      · exact (tidy.eq_of_siblings h hm' hm hmm).symm

theorem Tidy.alive_of_mem_preorder (tidy : s.Tidy) (h : s.Acyclic) (alive : s.Alive k) {j : Key}
    (hj : j ∈ s.preorder h k) : s.Alive j := by
  rcases ReflTransGen.cases_tail ((mem_preorder h).1 hj) with rfl | ⟨i, -, link, hj⟩
  · exact alive
  · obtain ⟨e, he, -, -, rfl⟩ := mem_members.1 hj
    exact (tidy.alive e he).2

/-- A list of the nodes below a node is no longer than the store. -/
theorem Tidy.length_preorder_le (tidy : s.Tidy) (h : s.Acyclic) (alive : s.Alive k) :
    (s.preorder h k).length ≤ s.size := by
  have listed : s.preorder h k ⊆ s.nodes.map (·.1) := by
    intro j hj
    by_contra hn
    have dead : s.get? j = none := get?_eq_none.2 fun e he hek => hn (hek ▸ List.mem_map_of_mem he)
    simpa [Alive, dead] using tidy.alive_of_mem_preorder h alive hj
  have le := (List.subperm_of_subset (tidy.nodup_preorder h k) listed).length_le
  rwa [List.length_map] at le

/-! ### The walk with a stack -/

/-- A stack stands for the lists of its nodes, one after another: a turn takes the first node off them. -/
theorem walk_eq (h : s.Acyclic) {budget : Nat} {stack : List Key}
    (enough : (stack.flatMap (s.preorder h)).length ≤ budget) :
    s.walk budget stack = stack.flatMap (s.preorder h) := by
  induction budget generalizing stack with
  | zero => rw [List.length_eq_zero_iff.1 (Nat.le_zero.1 enough), walk]
  | succ budget ih =>
    cases stack with
    | nil => rfl
    | cons k stack =>
      have turn : (k :: stack).flatMap (s.preorder h) =
          k :: (s.children k ++ (s.attached k ++ stack)).flatMap (s.preorder h) := by
        rw [List.flatMap_cons, preorder_eq, List.cons_append, ← List.flatMap_append, List.append_assoc]
      rw [turn, List.length_cons] at enough
      rw [turn, walk, ih (Nat.le_of_succ_le_succ enough)]

theorem Tidy.walk_singleton (tidy : s.Tidy) (h : s.Acyclic) (alive : s.Alive k) {budget : Nat}
    (enough : s.size ≤ budget) : s.walk budget [k] = s.preorder h k := by
  have enough : ([k].flatMap (s.preorder h)).length ≤ budget := by
    rw [List.flatMap_singleton]
    exact (tidy.length_preorder_le h alive).trans enough
  rw [walk_eq h enough, List.flatMap_singleton]

/-! ### Taking out a node and what lies below it -/

/-- What is left without some nodes. -/
def without (s : Store) (ks : List Key) : Store :=
  { s with
    nodes := s.nodes.filter fun e => decide (e.1 ∉ ks)
    edges := s.edges.filter fun e => decide (e.owner ∉ ks) && decide (e.member ∉ ks) }

theorem without_nil (s : Store) : s.without [] = s := by
  simp [without]

theorem without_congr {ks js : List Key} (h : ∀ j, j ∈ ks ↔ j ∈ js) : s.without ks = s.without js := by
  simp only [without, h]

theorem without_append (s : Store) (ks js : List Key) : (s.without ks).without js = s.without (ks ++ js) := by
  simp only [without, List.filter_filter, List.mem_append, not_or, Bool.decide_and]
  congr 1
  · exact List.filter_congr fun e _ => Bool.and_comm ..
  · exact List.filter_congr fun e _ => by ac_rfl

theorem remove_eq (s : Store) (k : Key) : s.remove k = s.without [k] := by
  simp only [remove, without, List.mem_singleton, bne_eq_decide]

theorem get?_without (s : Store) (ks : List Key) (j : Key) :
    (s.without ks).get? j = if j ∈ ks then none else s.get? j := by
  induction ks using List.reverseRecOn with
  | nil => simp [without_nil]
  | append_singleton ks k ih =>
    rw [← without_append, ← remove_eq, get?_remove, Function.update_apply, ih]
    by_cases hk : j = k <;> simp [hk]

theorem members_without (s : Store) (ks : List Key) (owner : Key) (link : Tree.Link) :
    (s.without ks).members owner link = if owner ∈ ks then [] else (s.members owner link).filter (· ∉ ks) := by
  induction ks using List.reverseRecOn with
  | nil => simp [without_nil]
  | append_singleton ks k ih =>
    rw [← without_append, ← remove_eq, members_remove, ih]
    by_cases hk : owner = k
    · simp [hk]
    · by_cases hks : owner ∈ ks
      · simp [hk, hks]
      · rw [if_neg hk, if_neg hks, if_neg (by simp [hk, hks]), List.filter_filter]
        exact List.filter_congr fun j _ => by simp [and_comm]

theorem owns_without {ks : List Key} {j : Key} (hj : (s.without ks).Owns j k) : s.Owns j k := by
  obtain ⟨link, hj⟩ := hj
  rw [members_without] at hj
  split at hj
  · cases hj
  · exact ⟨link, List.mem_of_mem_filter hj⟩

theorem Acyclic.without (h : s.Acyclic) (ks : List Key) : (s.without ks).Acyclic := fun k hk =>
  h k (hk.lift id fun _ _ => owns_without)

/-- Taking out other nodes does not change the list of a node. -/
theorem preorder_without (h : s.Acyclic) {ks : List Key} (apart : ∀ j ∈ s.preorder h k, j ∉ ks) :
    (s.without ks).preorder (h.without ks) k = s.preorder h k := by
  induction k using h.induction with
  | step k ih =>
    rw [preorder_eq h, List.forall_mem_cons] at apart
    obtain ⟨hk, apart⟩ := apart
    have below : ∀ m, s.Owns k m → ∀ j ∈ s.preorder h m, j ∉ ks := fun m hm j hj =>
      apart j (List.mem_flatMap.2 ⟨m, mem_owned.2 hm, hj⟩)
    have same (link : Tree.Link) : (s.without ks).members k link = s.members k link := by
      rw [members_without, if_neg hk, List.filter_eq_self]
      exact fun m hm => decide_eq_true (below m ⟨link, hm⟩ m ((mem_preorder h).2 .refl))
    rw [preorder_eq, preorder_eq, children, attached, same, same]
    exact congrArg _ (List.flatMap_congr fun m hm => ih m (mem_owned.1 hm) (below m (mem_owned.1 hm)))

/-- With enough budget all that is listed is taken out. -/
theorem takeWithin_eq {budget : Nat} (h : s.Acyclic) (single : (s.preorder h k).Nodup)
    (enough : (s.preorder h k).length ≤ budget) :
    takeWithin budget s k = (s.get? k, s.without (s.preorder h k)) := by
  induction budget generalizing s k with
  | zero => rw [preorder_eq] at enough; simp at enough
  | succ budget ih =>
    -- over the members in their order: those before are gone, and this one is listed as it was
    have members (ms gone : List Key) (apart : (gone ++ ms.flatMap (s.preorder h)).Nodup)
        (enough : (ms.flatMap (s.preorder h)).length ≤ budget) :
        ms.foldl (fun s m => (takeWithin budget s m).2) (s.without gone) =
          s.without (gone ++ ms.flatMap (s.preorder h)) := by
      induction ms generalizing gone with
      | nil => simp
      | cons m ms ihs =>
        rw [List.flatMap_cons, ← List.append_assoc] at apart
        rw [List.flatMap_cons, List.length_append] at enough
        have disjoint := (List.nodup_append'.1 (List.nodup_append'.1 apart).1)
        have same : (s.without gone).preorder (h.without gone) m = s.preorder h m :=
          preorder_without h fun j hj hg => disjoint.2.2 hg hj
        have one := ih (h.without gone) (k := m) (by rw [same]; exact disjoint.2.1) (by rw [same]; omega)
        rw [List.foldl_cons, one, same, without_append, ihs _ apart (by omega), List.flatMap_cons, List.append_assoc]
    rw [preorder_eq, List.nodup_cons] at single
    rw [preorder_eq, List.length_cons] at enough
    have emptied := members (s.children k ++ s.attached k) [] single.2 (by omega)
    rw [without_nil, List.nil_append] at emptied
    rw [takeWithin]
    simp only [emptied]
    rw [get?_without, if_neg single.1, remove_eq, without_append]
    refine Prod.ext rfl (without_congr fun j => ?_)
    rw [preorder_eq, List.mem_append, List.mem_singleton, List.mem_cons, or_comm]

/-- All that is listed is gone, and the first of it is missing from the list of its owner. -/
def Shelf.pruned (s : Shelf) (k : Key) (listed : List Key) : Shelf :=
  { s with
    get? := fun j => if j ∈ listed then none else s.get? j
    members := fun owner link => if owner ∈ listed then [] else (s.members owner link).filter (· ≠ k) }

theorem Tidy.shelf_without (tidy : s.Tidy) (h : s.Acyclic) (k : Key) :
    (s.without (s.preorder h k)).shelf = s.shelf.pruned k (s.preorder h k) := by
  refine Shelf.ext (funext fun j => get?_without ..) (funext fun owner => funext fun link => ?_) rfl
  refine (members_without ..).trans (ite_congr rfl (fun _ => rfl) fun outside => List.filter_congr fun j hj => ?_)
  -- the owner of a listed node is listed as well, unless the node is the first one
  have listed : j ∈ s.preorder h k ↔ j = k := by
    rw [mem_preorder] at outside ⊢
    refine ⟨fun hkj => ?_, fun heq => heq ▸ .refl⟩
    rcases ReflTransGen.cases_tail hkj with heq | ⟨i, hki, hij⟩
    · exact heq
    · obtain rfl := tidy.owner_unique hij ⟨link, hj⟩
      exact absurd hki outside
  simp only [listed, ne_eq]

/-- Where no node owns itself, not even through others, the walk from a live node ends and lists it and all that it owns
in preorder, each once. To take it out hands it back and takes out what is listed; of all else only the list of
its owner changes, which it leaves. More budget changes neither. -/
theorem descendants_preorder (tidy : s.Tidy) (h : s.Acyclic) (alive : s.Alive k) :
    s.descendants k = s.preorder h k ∧ (s.preorder h k).Nodup ∧
    (s.takeSubtree k).1 = s.get? k ∧ (s.removeSubtree k).shelf = s.shelf.pruned k (s.preorder h k) ∧
    ∀ budget, s.size ≤ budget →
      s.walk budget [k] = s.descendants k ∧ takeWithin budget s k = (s.get? k, s.removeSubtree k) := by
  have single := tidy.nodup_preorder h k
  have walked {budget : Nat} (enough : s.size ≤ budget) := tidy.walk_singleton h alive enough
  have taken {budget : Nat} (enough : s.size ≤ budget) :=
    takeWithin_eq h single ((tidy.length_preorder_le h alive).trans enough)
  have removed : s.removeSubtree k = s.without (s.preorder h k) := congrArg Prod.snd (taken le_rfl)
  refine ⟨walked le_rfl, single, congrArg Prod.fst (taken le_rfl), ?_, fun budget enough => ⟨?_, ?_⟩⟩
  · rw [removed, tidy.shelf_without h k]
  · exact (walked enough).trans (walked le_rfl).symm
  · rw [removed, taken enough]

/-- A node that has moved below a later sibling, with a child and an attached node of its own. -/
def nested : List Change :=
  [.add root .flow default, .add root .flow default, .add root .attached default, .add 1 .attached default,
    .add 1 .flow default, .push 2 .flow 1]

theorem descendants_preorder_nested :
    let s := (ofRoot default).run nested
    s.Tidy ∧ s.Acyclic ∧ s.Alive 2 ∧ s.descendants 2 = [2, 1, 5, 4] ∧
      (s.removeSubtree 2).shelf = s.shelf.pruned 2 [2, 1, 5, 4] ∧ (s.removeSubtree 2).descendants root = [0, 3] := by
  intro s
  have admitted : Admitted (ofRoot default) nested := ⟨rfl, rfl, rfl, rfl, rfl, ⟨rfl, rfl⟩, trivial⟩
  have tidy : s.Tidy := ((tidy_ofRoot default).run admitted).1
  have acyclic : s.Acyclic := acyclic_of_rank (fun k => [0, 2, 1, 1, 3, 3].getD k 0) (by decide)
  have listed : s.descendants 2 = [2, 1, 5, 4] := by decide
  obtain ⟨preorder, -, -, shelf, -⟩ := descendants_preorder tidy acyclic (k := 2) rfl
  rw [← preorder, listed] at shelf
  exact ⟨tidy, acyclic, rfl, listed, shelf, by decide⟩

end FlexRecovery.Store
