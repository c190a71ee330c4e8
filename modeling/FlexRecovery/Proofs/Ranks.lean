import FlexRecovery.Store
import Mathlib.Data.List.Dedup
import Mathlib.Data.List.Induction
import Mathlib.Data.List.Nodup

/-! What each operation of a store does to the members of its owners: ranks and their holes drop out. -/

namespace FlexRecovery

theorem mem_sortByKey {key : α → Int} {a : α} {as : List α} : a ∈ sortByKey key as ↔ a ∈ as :=
  (perm_sortByKey key as).mem_iff

theorem sortByKey_of_pairwise {key : α → Int} {as : List α} (h : as.Pairwise fun a b => key a ≤ key b) :
    sortByKey key as = as :=
  stableSort_of_pairwise (h.imp fun hab => decide_eq_true hab)

theorem dedup_concat [DecidableEq α] (as : List α) (a : α) :
    (as ++ [a]).dedup = as.dedup.filter (· ≠ a) ++ [a] := by
  induction as with
  | nil => rfl
  | cons b bs ih =>
    by_cases hb : b ∈ bs
    · rw [List.cons_append, List.dedup_cons_of_mem (List.mem_append_left _ hb), List.dedup_cons_of_mem hb, ih]
    · by_cases hba : b = a
      · rw [List.cons_append, List.dedup_cons_of_mem (by simp [hba]), ih, List.dedup_cons_of_notMem hb,
          List.filter_cons_of_neg (by simp [hba])]
      · rw [List.cons_append, List.dedup_cons_of_notMem (by simp [hb, hba]), ih, List.dedup_cons_of_notMem hb,
          List.filter_cons_of_pos (by simp [hba]), List.cons_append]

namespace Store

/-! ### Edges -/

theorem bne_eq_decide (j k : Key) : (j != k) = decide (j ≠ k) := by
  rw [decide_not]
  rfl

/-- The members of some edges in the order of their ranks. -/
def ranked (es : List Edge) : List Key := (sortByKey (fun e => (e.rank : Int)) es).map (·.member)

/-- The edges of one owner and kind. -/
def ofOwner (owner : Key) (link : Tree.Link) (es : List Edge) : List Edge :=
  es.filter fun e => e.owner == owner && e.link == link

theorem members_eq (s : Store) (owner : Key) (link : Tree.Link) :
    s.members owner link = ranked (ofOwner owner link s.edges) := rfl

theorem mem_ofOwner {e : Edge} {owner : Key} {link : Tree.Link} {es : List Edge} :
    e ∈ ofOwner owner link es ↔ e ∈ es ∧ e.owner = owner ∧ e.link = link := by
  simp [ofOwner]

theorem mem_ranked {k : Key} {es : List Edge} : k ∈ ranked es ↔ ∃ e ∈ es, e.member = k := by
  simp [ranked, mem_sortByKey]

theorem mem_members {s : Store} {k owner : Key} {link : Tree.Link} :
    k ∈ s.members owner link ↔ ∃ e ∈ s.edges, e.owner = owner ∧ e.link = link ∧ e.member = k := by
  simp only [members_eq, mem_ranked, mem_ofOwner, and_assoc]

theorem ranked_filter (P : Key → Prop) [DecidablePred P] (es : List Edge) :
    ranked (es.filter fun e => decide (P e.member)) = (ranked es).filter fun k => decide (P k) := by
  rw [ranked, ← filter_sortByKey, ranked, List.filter_map]
  rfl

theorem ranked_concat {es : List Edge} {e : Edge} (h : ∀ d ∈ es, d.rank < e.rank) :
    ranked (es ++ [e]) = ranked es ++ [e.member] := by
  rw [ranked, sortByKey_concat fun d hd => Int.ofNat_le.2 (Nat.le_of_lt (h d hd)), List.map_append]
  rfl

theorem ranked_of_pairwise {es : List Edge} (h : es.Pairwise fun a b => a.rank < b.rank) :
    ranked es = es.map (·.member) :=
  congrArg (List.map _) (sortByKey_of_pairwise (h.imp fun hab => Int.ofNat_le.2 (Nat.le_of_lt hab)))

theorem ofOwner_filter (owner : Key) (link : Tree.Link) (q : Edge → Bool) (es : List Edge) :
    ofOwner owner link (es.filter q) = (ofOwner owner link es).filter q := by
  rw [ofOwner, ofOwner, List.filter_filter, List.filter_filter]
  exact List.filter_congr fun e _ => Bool.and_comm ..

theorem ofOwner_append (owner : Key) (link : Tree.Link) (ds es : List Edge) :
    ofOwner owner link (ds ++ es) = ofOwner owner link ds ++ ofOwner owner link es := List.filter_append ..

theorem ofOwner_eq_self {owner : Key} {link : Tree.Link} {es : List Edge}
    (h : ∀ e ∈ es, e.owner = owner ∧ e.link = link) : ofOwner owner link es = es :=
  List.filter_eq_self.2 fun e he => by simp [h e he]

theorem ofOwner_eq_nil {owner owner' : Key} {link link' : Tree.Link} {es : List Edge}
    (h : ∀ e ∈ es, e.owner = owner ∧ e.link = link) (other : ¬(owner' = owner ∧ link' = link)) :
    ofOwner owner' link' es = [] :=
  List.filter_eq_nil_iff.2 fun e he => by
    obtain ⟨ho, hl⟩ := h e he
    simp only [ho, hl, Bool.and_eq_true, beq_iff_eq]
    exact fun ⟨a, b⟩ => other ⟨a.symm, b.symm⟩

theorem foldl_rank (es : List Edge) (r : Nat) :
    r ≤ es.foldl (fun r e => max r (e.rank + 1)) r ∧
      ∀ e ∈ es, e.rank < es.foldl (fun r e => max r (e.rank + 1)) r := by
  induction es generalizing r with
  | nil => exact ⟨Nat.le_refl _, by simp⟩
  | cons d es ih =>
    obtain ⟨grows, below⟩ := ih (max r (d.rank + 1))
    exact ⟨Nat.le_trans (Nat.le_max_left ..) grows,
      List.forall_mem_cons.2 ⟨Nat.le_trans (Nat.le_max_right ..) grows, below⟩⟩

theorem lt_nextRank {e : Edge} {es : List Edge} (h : e ∈ es) : e.rank < nextRank es := (foldl_rank es 0).2 e h

/-! ### One operation -/

theorem members_detach (s : Store) (k owner : Key) (link : Tree.Link) :
    (s.detach k).members owner link = (s.members owner link).filter (· ≠ k) := by
  have edges : (s.detach k).edges = s.edges.filter fun e => decide (e.member ≠ k) :=
    List.filter_congr fun e _ => bne_eq_decide e.member k
  rw [members_eq, edges, ofOwner_filter, ranked_filter (· ≠ k), members_eq]

/-- An edge that ranks last among those of its owner. -/
theorem members_concat (s : Store) (e : Edge) (h : ∀ d ∈ ofOwner e.owner e.link s.edges, d.rank < e.rank)
    (owner : Key) (link : Tree.Link) :
    members { s with edges := s.edges ++ [e] } owner link =
      if owner = e.owner ∧ link = e.link then s.members owner link ++ [e.member] else s.members owner link := by
  rw [members_eq, ofOwner_append]
  split
  · next here =>
    obtain ⟨rfl, rfl⟩ := here
    rw [ofOwner_eq_self (List.forall_mem_singleton.2 ⟨rfl, rfl⟩), ranked_concat h, members_eq]
  · next other =>
    rw [ofOwner_eq_nil (List.forall_mem_singleton.2 ⟨rfl, rfl⟩) other, List.append_nil, members_eq]

theorem members_push (s : Store) (owner' : Key) (link' : Tree.Link) (k owner : Key) (link : Tree.Link) :
    (s.push owner' link' k).members owner link =
      if owner = owner' ∧ link = link' then (s.members owner link).filter (· ≠ k) ++ [k]
      else (s.members owner link).filter (· ≠ k) := by
  rw [← members_detach]
  exact members_concat (s.detach k) _ (fun d hd => lt_nextRank hd) owner link

theorem members_remove (s : Store) (k owner : Key) (link : Tree.Link) :
    (s.remove k).members owner link = if owner = k then [] else (s.members owner link).filter (· ≠ k) := by
  rw [members_eq, remove, ofOwner_filter]
  split
  · next here =>
    subst here
    rw [List.filter_eq_nil_iff.2 fun e he => by simp [(mem_ofOwner.1 he).2.1]]
    rfl
  · next other =>
    have edges : (ofOwner owner link s.edges).filter (fun e => e.owner != k && e.member != k) =
        (ofOwner owner link s.edges).filter fun e => decide (e.member ≠ k) :=
      List.filter_congr fun e he => by
        rw [(mem_ofOwner.1 he).2.1, bne_iff_ne.2 other, Bool.true_and, bne_eq_decide]
    rw [edges, ranked_filter (· ≠ k), members_eq]

/-! ### A list of children -/

/-- What is placed stands in the order of the last places, and is taken from all others. -/
theorem foldl_place (owner : Key) (s : Store) (order : List Key) :
    ∃ placed : List Edge,
      order.zipIdx.foldl (place owner) s =
        { s with edges := (s.edges.filter fun e => decide (e.member ∉ order)) ++ placed } ∧
      placed.map (·.member) = order.dedup ∧
      (∀ e ∈ placed, (e.owner = owner ∧ e.link = .flow) ∧ e.rank < order.length) ∧
      placed.Pairwise fun a b => a.rank < b.rank := by
  -- over the places from the front: each step takes its node from the edges so far and ranks after all of them
  induction order using List.reverseRecOn with
  | nil => exact ⟨[], by simp, rfl, by simp, .nil⟩
  | append_singleton order k ih =>
    obtain ⟨placed, store, listed, here, sorted⟩ := ih
    have others : ((s.edges.filter fun e => decide (e.member ∉ order)) ++ placed).filter (·.member != k) =
        (s.edges.filter fun e => decide (e.member ∉ order ++ [k])) ++ placed.filter (·.member != k) := by
      rw [List.filter_append, List.filter_filter]
      congr 1
      refine List.filter_congr fun e _ => ?_
      by_cases e.member ∈ order <;> by_cases e.member = k <;> simp [*]
    refine ⟨placed.filter (·.member != k) ++ [⟨owner, k, .flow, order.length⟩], ?_, ?_, ?_, ?_⟩
    · rw [List.zipIdx_append, List.foldl_append, store]
      simp only [Nat.zero_add, List.zipIdx_singleton, List.foldl_cons, List.foldl_nil, place, detach, others,
        List.append_assoc]
    · rw [dedup_concat, ← listed, List.map_append, List.filter_map]
      congr 2
      exact List.filter_congr fun e _ => bne_eq_decide e.member k
    · intro e he
      rw [List.length_append, List.length_singleton]
      rcases List.mem_append.1 he with he | he
      · obtain ⟨at', rank⟩ := here e (List.mem_of_mem_filter he)
        exact ⟨at', Nat.lt_succ_of_lt rank⟩
      · obtain rfl := List.mem_singleton.1 he
        exact ⟨⟨rfl, rfl⟩, Nat.lt_succ_self _⟩
    · refine List.pairwise_append.2 ⟨sorted.filter _, List.pairwise_singleton .., fun a ha b hb => ?_⟩
      obtain rfl := List.mem_singleton.1 hb
      exact (here a (List.mem_of_mem_filter ha)).2

theorem setChildren_eq (s : Store) (owner : Key) (order : List Key) :
    ∃ placed : List Edge,
      s.setChildren owner order =
        { s with edges := (s.edges.filter fun e =>
            decide (e.member ∉ order) && !(e.owner == owner && e.link == .flow)) ++ placed } ∧
      placed.map (·.member) = order.dedup ∧
      (∀ e ∈ placed, e.owner = owner ∧ e.link = .flow) ∧
      placed.Pairwise fun a b => a.rank < b.rank := by
  obtain ⟨placed, store, listed, here, sorted⟩ :=
    foldl_place owner { s with edges := s.edges.filter fun e => !(e.owner == owner && e.link == .flow) } order
  refine ⟨placed, ?_, listed, fun e he => (here e he).1, sorted⟩
  rw [setChildren, store, List.filter_filter]

theorem members_setChildren (s : Store) (owner' : Key) (order : List Key) (owner : Key) (link : Tree.Link) :
    (s.setChildren owner' order).members owner link =
      if owner = owner' ∧ link = .flow then order.dedup
      else (s.members owner link).filter (· ∉ order) := by
  obtain ⟨placed, store, listed, here, sorted⟩ := setChildren_eq s owner' order
  rw [members_eq, store, ofOwner_append, ofOwner_filter]
  split
  · next at' =>
    obtain ⟨rfl, rfl⟩ := at'
    rw [List.filter_eq_nil_iff.2 fun e he => by simp [(mem_ofOwner.1 he).2], List.nil_append, ofOwner_eq_self here,
      ranked_of_pairwise sorted, listed]
  · next other =>
    have edges : (ofOwner owner link s.edges).filter (fun e =>
          decide (e.member ∉ order) && !(e.owner == owner' && e.link == .flow)) =
        (ofOwner owner link s.edges).filter fun e => decide (e.member ∉ order) :=
      List.filter_congr fun e he => by
        obtain ⟨-, rfl, rfl⟩ := mem_ofOwner.1 he
        by_cases ho : e.owner = owner' <;> by_cases hl : e.link = .flow <;> simp_all
    rw [ofOwner_eq_nil here other, List.append_nil, edges, ranked_filter (· ∉ order), members_eq]

end Store

end FlexRecovery
