import FlexRecovery.Proofs.Clearing
import FlexRecovery.Proofs.Folding
import FlexRecovery.Proofs.Loops
import FlexRecovery.Proofs.Paths

/-!
Where each sibling is after nesting. All hosts are chosen before anything moves, and a host may itself move. Since a
host is larger than its guests, the chain of hosts above a sibling ends: with one that stays, or with one that its
host turns away. So the seat of a sibling is found from the top of its chain down, and each sibling has one of its own.
-/

namespace FlexRecovery

/-- The node itself, or the view that an image becomes. -/
def Node.Raised (m n : Node) : Prop := n = m ∨ m.isImage = true ∧ n = m.promoted

theorem Node.Raised.refl (n : Node) : n.Raised n := .inl rfl

theorem Node.Raised.index {m n : Node} (h : m.Raised n) : n.index = m.index := by
  rcases h with rfl | ⟨-, rfl⟩
  · rfl
  · exact index_promoted m

theorem Tree.at?_append (t : Tree) (p q : List Step) : t.at? (p ++ q) = t.at? p >>= (at? · q) := by
  induction p generalizing t with
  | nil => rfl
  | cons s p ih =>
    simp only [List.cons_append, at?, bind, Option.bind_assoc]
    exact congrArg (Option.bind _) (funext ih)

namespace Regroup

open Tree Node

variable {all : List Guest} {g h m : Guest} {behind : Nat} {path path' : List Step} {t : Tree}

theorem mem_taken : m ∈ taken all g ↔ m ∈ all ∧ takesNobody g.tree.node = false ∧ m.host = some g.position := by
  simp [taken]

/-- A guest with those that it takes in, behind its own flow children. -/
def hostTo (own : List Tree) (t : Tree) : Tree := if own.isEmpty then t else (hosting t).addFlow own

theorem raised_hosting (t : Tree) : t.node.Raised (hosting t).node := by
  unfold hosting
  split
  · next hi => exact .inr ⟨hi, rfl⟩
  · exact .refl _

theorem flow_hostTo (own : List Tree) (t : Tree) : (hostTo own t).flow = t.flow ++ own := by
  unfold hostTo
  split
  · next he => rw [List.isEmpty_iff.1 he, List.append_nil]
  · rw [hosting_eq]
    rfl

theorem raised_hostTo (own : List Tree) (t : Tree) :
    t.node.Raised (hostTo own t).node ∧ (hostTo own t).attached = t.attached := by
  unfold hostTo
  split
  · exact ⟨.refl _, rfl⟩
  · refine ⟨raised_hosting t, ?_⟩
    rw [hosting_eq]
    rfl

theorem settled_succ_eq (all : List Guest) (b : Nat) (g : Guest) :
    settled all (b + 1) g = hostTo ((taken all g).map (settled all b)) g.tree := by
  rw [settled]
  cases ht : takesNobody g.tree.node with
  | true => simp [taken, ht, hostTo]
  | false => simp [taken, ht, hostTo]

theorem settled_eq (hall : Hosted all) (hg : g ∈ all) :
    settled all all.length g = hostTo ((taken all g).map (settled all all.length)) g.tree :=
  eq_of_budget (fun g own => hostTo own g.tree) hall (fun _ => rfl) (settled_succ_eq all) hg

/-- Where a guest ends up in its owner, which had some trees attached to it before: it stays, it is turned away, or
it goes to the seat of its host and from there behind the flow children. -/
inductive Seat (all : List Guest) (behind : Nat) : Guest → List Step → Prop
  | stays {g k} (hk : (all.filter (·.host.isNone))[k]? = some g) : Seat all behind g [⟨.flow, k⟩]
  | turnedAway {g k} (hk : (all.filter (isTurnedAway all))[k]? = some g) :
      Seat all behind g [⟨.attached, behind + k⟩]
  | moves {g h k path} (hs : Seat all behind h path) (hk : (taken all h)[k]? = some g) :
      Seat all behind g (path ++ [⟨.flow, h.tree.flow.length + k⟩])

/-- Every chain of hosts ends. -/
theorem exists_seat (hall : Hosted all) (behind : Nat) (hg : g ∈ all) : ∃ path, Seat all behind g path := by
  -- Up the chain: a host is larger than its guest, so more of the siblings are smaller than it.
  induction hr : all.length - rank all g using Nat.strong_induction_on generalizing g with
  | _ r ih =>
    cases hp : g.host with
    | none =>
      obtain ⟨k, hk⟩ := List.getElem?_of_mem (List.mem_filter.2 ⟨hg, by simp [hp]⟩ :
        g ∈ all.filter (·.host.isNone))
      exact ⟨_, .stays hk⟩
    | some p =>
      obtain ⟨h, hh, rfl, ho⟩ := hostOf_eq hall hg hp
      cases ht : takesNobody h.tree.node with
      | true =>
        obtain ⟨k, hk⟩ := List.getElem?_of_mem (List.mem_filter.2 ⟨hg, by simp [isTurnedAway, ho, ht]⟩ :
          g ∈ all.filter (isTurnedAway all))
        exact ⟨_, .turnedAway hk⟩
      | false =>
        have hmem : g ∈ taken all h := mem_taken.2 ⟨hg, ht, hp⟩
        have hlt := rank_lt hg (area_lt_of_mem_taken hall hh hmem).2
        have hle := rank_lt_length hh
        obtain ⟨path, hpath⟩ := ih (all.length - rank all h) (by omega) hh rfl
        obtain ⟨k, hk⟩ := List.getElem?_of_mem hmem
        exact ⟨_, .moves hpath hk⟩

theorem Seat.mem (h : Seat all behind g path) : g ∈ all := by
  cases h with
  | stays hk => exact List.mem_of_mem_filter (List.mem_of_getElem? hk)
  | turnedAway hk => exact List.mem_of_mem_filter (List.mem_of_getElem? hk)
  | moves _ hk => exact List.mem_of_mem_filter (List.mem_of_getElem? hk)

theorem Seat.ne_nil (h : Seat all behind g path) : path ≠ [] := by
  cases h with
  | stays => exact List.cons_ne_nil _ _
  | turnedAway => exact List.cons_ne_nil _ _
  | moves => exact List.append_ne_nil_of_right_ne_nil _ (List.cons_ne_nil _ _)

theorem Seat.append_ne_singleton (h : Seat all behind g path) (a b : Step) : path ++ [a] ≠ [b] := by
  intro he
  have he : path ++ [a] = [] ++ [b] := he
  exact h.ne_nil (List.append_inj' he rfl).1

/-- A guest without a host stays. -/
theorem Seat.of_stays (hs : Seat all behind g path) (hn : g.host = none) :
    ∃ k, (all.filter (·.host.isNone))[k]? = some g ∧ path = [⟨.flow, k⟩] := by
  cases hs with
  | stays hk => exact ⟨_, hk, rfl⟩
  | turnedAway hk =>
    have ht := (List.mem_filter.1 (List.mem_of_getElem? hk)).2
    rw [isTurnedAway, hostOf, hn] at ht
    cases ht
  | moves _ hk =>
    have hp := (mem_taken.1 (List.mem_of_getElem? hk)).2.2
    rw [hn] at hp
    cases hp

theorem isTurnedAway_eq (hall : Hosted all) (hg : g ∈ all) (hh : h ∈ all) (hp : g.host = some h.position) :
    isTurnedAway all g = takesNobody h.tree.node := by
  obtain ⟨h', hh', hpos, ho⟩ := hostOf_eq hall hg hp
  rw [isTurnedAway, ho, List.inj_on_of_nodup_map hall.apart hh' hh hpos]
  rfl

/-- A guest with a host that takes nobody in is turned away. -/
theorem Seat.of_turnedAway (hall : Hosted all) (hs : Seat all behind g path) (hh : h ∈ all)
    (hp : g.host = some h.position) (ht : takesNobody h.tree.node = true) :
    ∃ k, (all.filter (isTurnedAway all))[k]? = some g ∧ path = [⟨.attached, behind + k⟩] := by
  cases hs with
  | stays hk =>
    have hn := (List.mem_filter.1 (List.mem_of_getElem? hk)).2
    rw [hp] at hn
    cases hn
  | turnedAway hk => exact ⟨_, hk, rfl⟩
  | moves hs hk =>
    obtain ⟨-, ht', hp'⟩ := mem_taken.1 (List.mem_of_getElem? hk)
    rw [List.inj_on_of_nodup_map hall.apart hh hs.mem (Option.some.inj (hp.symm.trans hp')), ht'] at ht
    cases ht

/-- A guest with a host that takes others in moves to it, wherever that is. -/
theorem Seat.of_moves (hall : Hosted all) (hs : Seat all behind g path) (hh : h ∈ all)
    (hp : g.host = some h.position) (ht : takesNobody h.tree.node = false) :
    ∃ k way, (taken all h)[k]? = some g ∧ Seat all behind h way ∧
      path = way ++ [⟨.flow, h.tree.flow.length + k⟩] := by
  have hmem := hs.mem
  cases hs with
  | stays hk =>
    have hn := (List.mem_filter.1 (List.mem_of_getElem? hk)).2
    rw [hp] at hn
    cases hn
  | turnedAway hk =>
    have hturned := (List.mem_filter.1 (List.mem_of_getElem? hk)).2
    rw [isTurnedAway_eq hall hmem hh hp, ht] at hturned
    cases hturned
  | moves hs hk =>
    obtain ⟨-, -, hp'⟩ := mem_taken.1 (List.mem_of_getElem? hk)
    obtain rfl := List.inj_on_of_nodup_map hall.apart hh hs.mem (Option.some.inj (hp.symm.trans hp'))
    exact ⟨_, _, hk, hs, rfl⟩

theorem Hosted.getElem?_inj (hall : Hosted all) {p : Guest → Bool} {k l : Nat} (hk : (all.filter p)[k]? = some g)
    (hl : (all.filter p)[l]? = some g) : k = l :=
  (List.getElem?_inj (List.getElem?_eq_some_iff.1 hk).1 (hall.apart.of_map.filter p)).1 (hk.trans hl.symm)

/-- A guest has one seat. -/
theorem Seat.functional (hall : Hosted all) (hs : Seat all behind g path) (hs' : Seat all behind g path') :
    path = path' := by
  induction hs generalizing path' with
  | stays hk =>
    have hn := (List.mem_filter.1 (List.mem_of_getElem? hk)).2
    obtain ⟨l, hl, rfl⟩ := hs'.of_stays (Option.isNone_iff_eq_none.1 hn)
    rw [hall.getElem?_inj hk hl]
  | @turnedAway g k hk =>
    obtain ⟨hg, hturned⟩ := List.mem_filter.1 (List.mem_of_getElem? hk)
    obtain ⟨p, hp⟩ : ∃ p, g.host = some p := by
      apply Option.ne_none_iff_exists'.1
      intro hn
      rw [isTurnedAway, hostOf, hn] at hturned
      cases hturned
    obtain ⟨h, hh, rfl, -⟩ := hostOf_eq hall hg hp
    obtain ⟨l, hl, rfl⟩ := hs'.of_turnedAway hall hh hp (isTurnedAway_eq hall hg hh hp ▸ hturned)
    rw [hall.getElem?_inj hk hl]
  | moves hs hk ih =>
    obtain ⟨-, ht, hp⟩ := mem_taken.1 (List.mem_of_getElem? hk)
    obtain ⟨l, way, hl, hway, rfl⟩ := hs'.of_moves hall hs.mem hp ht
    rw [ih hway, hall.getElem?_inj hk hl]

/-- A seat has one guest. -/
theorem Seat.injective (hs : Seat all behind g path) (hs' : Seat all behind h path) : g = h := by
  -- Paths that end in different links or have different lengths are different, so both guests got here in one way.
  induction hs generalizing h with
  | stays hk =>
    generalize hp : [_] = path at hs'
    cases hs' with
    | stays hk' =>
      cases hp
      exact Option.some.inj (hk.symm.trans hk')
    | turnedAway => cases hp
    | moves hs' => exact absurd hp.symm (hs'.append_ne_singleton _ _)
  | turnedAway hk =>
    generalize hp : [_] = path at hs'
    cases hs' with
    | stays => cases hp
    | turnedAway hk' =>
      have hkk : behind + _ = behind + _ := congrArg Step.position (List.singleton_inj.1 hp)
      rw [Nat.add_left_cancel hkk] at hk
      exact Option.some.inj (hk.symm.trans hk')
    | moves hs' => exact absurd hp.symm (hs'.append_ne_singleton _ _)
  | moves hs hk ih =>
    generalize hp : _ ++ [_] = path at hs'
    cases hs' with
    | stays => exact absurd hp (hs.append_ne_singleton _ _)
    | turnedAway => exact absurd hp (hs.append_ne_singleton _ _)
    | moves hs' hk' =>
      obtain ⟨rfl, hlast⟩ := List.append_inj' hp rfl
      obtain rfl := ih hs'
      have hkk := congrArg Step.position (List.singleton_inj.1 hlast)
      rw [Nat.add_left_cancel hkk] at hk
      exact Option.some.inj (hk.symm.trans hk')

/-- At its seat a guest is settled with those that it took in. -/
theorem Seat.at? (t : Tree) (j : Journal) (hs : Seat (guests t.flow) t.attached.length g path) :
    (nestContained t j).1.at? path = some (settled (guests t.flow) (guests t.flow).length g) := by
  have hall := hosted_guests t.flow
  have hflow : (nestContained t j).1.flow = ((guests t.flow).filter (·.host.isNone)).map
    (settled (guests t.flow) (guests t.flow).length) := rfl
  have hattached : (nestContained t j).1.attached = t.attached ++
    ((guests t.flow).filter (isTurnedAway (guests t.flow))).map
      (settled (guests t.flow) (guests t.flow).length) := rfl
  induction hs with
  | stays hk =>
    simp only [Tree.at?, member?, hflow, List.getElem?_map, hk]
    rfl
  | turnedAway hk =>
    simp only [Tree.at?, member?, hattached, List.getElem?_append_right (Nat.le_add_right _ _),
      Nat.add_sub_cancel_left, List.getElem?_map, hk]
    rfl
  | moves hs hk ih =>
    rw [at?_append, ih]
    simp only [bind, Option.bind_some, Tree.at?, member?, settled_eq hall hs.mem, flow_hostTo,
      List.getElem?_append_right (Nat.le_add_right _ _), Nat.add_sub_cancel_left, List.getElem?_map, hk]
    rfl

theorem rel_refl (l : Multiset Node) : Multiset.Rel Raised l l := Multiset.rel_refl_of_refl_on fun n _ => .refl n

theorem rel_flatMap {α : Type} {part : α → List Tree} {made : α → Tree} {xs : List α}
    (h : ∀ x ∈ xs, Multiset.Rel Raised (censusAll (part x)) (made x).census) :
    Multiset.Rel Raised (censusAll (xs.flatMap part)) (censusAll (xs.map made)) := by
  induction xs with
  | nil => exact rel_refl _
  | cons x xs ih =>
    obtain ⟨hx, hxs⟩ := List.forall_mem_cons.1 h
    rw [List.flatMap_cons, censusAll_append, List.map_cons, censusAll_cons]
    exact hx.add (ih hxs)

theorem rel_hostTo {l : Multiset Node} {own : List Tree} (t : Tree) (h : Multiset.Rel Raised l (censusAll own)) :
    Multiset.Rel Raised (t.census + l) (hostTo own t).census := by
  rw [census_eq (hostTo own t), flow_hostTo, (raised_hostTo own t).2, census_eq t, censusAll_append,
    Multiset.cons_add, add_right_comm]
  exact .cons (raised_hostTo own t).1 (((rel_refl _).add h).add (rel_refl _))

/-- Settling changes no node but the images that take others in, and it neither loses nor doubles one. -/
theorem rel_settled (all : List Guest) (b : Nat) (g : Guest) : Multiset.Rel Raised
    (censusAll ((household all b g).map Guest.tree)) (settled all b g).census := by
  induction b generalizing g with
  | zero =>
    rw [household, List.map_singleton, censusAll_cons, censusAll_nil, add_zero]
    exact rel_refl _
  | succ b ih =>
    rw [household, List.map_cons, List.map_flatMap, censusAll_cons, settled_succ_eq]
    exact rel_hostTo g.tree (rel_flatMap fun m _ => ih m)

theorem rel_nestContained (t : Tree) (j : Journal) : Multiset.Rel Raised t.census (nestContained t j).1.census := by
  let all := guests t.flow
  let settle := settled all all.length
  have hr : (nestContained t j).1.census = t.node ::ₘ (censusAll ((all.filter (isTurnedAway all) ++
      all.filter (·.host.isNone)).map settle) + censusAll t.attached) := by
    change census ⟨t.node, (all.filter (·.host.isNone)).map settle,
      t.attached ++ (all.filter (isTurnedAway all)).map settle⟩ = _
    rw [census_mk, List.map_append, censusAll_append, censusAll_append]
    congr 1
    abel
  rw [hr, census_eq, censusAll_perm (perm_guests t.flow)]
  exact .cons (.refl _) ((rel_flatMap fun g _ => rel_settled all all.length g).add (rel_refl _))

theorem map_index_of_rel {l m : Multiset Node} (h : Multiset.Rel Raised l m) :
    m.map Node.index = l.map Node.index := by
  induction h with
  | zero => rfl
  | cons hab _ ih => rw [Multiset.map_cons, Multiset.map_cons, hab.index, ih]

/-- The sibling at a position with its host. -/
def guest (ts : List Tree) (i : Nat) (s : Tree) : Guest := ⟨i, s, s.box.bestContainer (ts.map Tree.box)⟩

theorem getElem?_guests (ts : List Tree) (i : Nat) : (guests ts)[i]? = ts[i]?.map (guest ts i) := by
  simp only [guests, List.getElem?_map, List.getElem?_zipIdx, Option.map_map, Nat.zero_add]
  rfl

/-- The sibling at `h` is the host of the one at `i`. -/
def IsHost (ts : List Tree) (i h : Nat) : Prop :=
  ∃ s, ts[i]? = some s ∧ s.box.Smallest (ts.map Tree.box) h

/-- A seat for each of the siblings. -/
def Seats (t : Tree) (seat : Nat → List Step) : Prop :=
  ∀ i s, t.flow[i]? = some s → Seat (guests t.flow) t.attached.length (guest t.flow i s) (seat i)

theorem exists_seats (t : Tree) : ∃ seat, Seats t seat := by
  have hex : ∀ i : Nat, ∃ path, ∀ s, t.flow[i]? = some s →
      Seat (guests t.flow) t.attached.length (guest t.flow i s) path := by
    intro i
    cases hs : t.flow[i]? with
    | none => exact ⟨[], nofun⟩
    | some s =>
      have hg : (guests t.flow)[i]? = some (guest t.flow i s) := by
        rw [getElem?_guests, hs]
        rfl
      obtain ⟨path, hpath⟩ := exists_seat (hosted_guests t.flow) t.attached.length (List.mem_of_getElem? hg)
      exact ⟨path, fun u hu => Option.some.inj hu ▸ hpath⟩
  choose seat hseat using hex
  exact ⟨seat, hseat⟩

section seats

variable {seat : Nat → List Step} (hseat : Seats t seat) (j : Journal) {i k : Nat} {s u : Tree}
include hseat

/-- At its seat a sibling has all that it had before, with what it took in behind its flow children. -/
theorem Seats.found (hs : t.flow[i]? = some s) : ∃ u, (nestContained t j).1.at? (seat i) = some u ∧
    s.node.Raised u.node ∧ s.flow <+: u.flow ∧ u.attached = s.attached := by
  refine ⟨_, (hseat i s hs).at? t j, ?_⟩
  rw [settled_eq (hosted_guests t.flow) (hseat i s hs).mem]
  obtain ⟨hnode, hattached⟩ := raised_hostTo
    ((taken (guests t.flow) (guest t.flow i s)).map (settled (guests t.flow) (guests t.flow).length)) s
  refine ⟨hnode, ?_, hattached⟩
  rw [flow_hostTo]
  exact List.prefix_append _ _

theorem Seats.apart (hi : i < t.flow.length) (hk : k < t.flow.length) (h : seat i = seat k) : i = k := by
  have hsi := hseat i _ (List.getElem?_eq_getElem hi)
  rw [h] at hsi
  exact congrArg Guest.position (hsi.injective (hseat k _ (List.getElem?_eq_getElem hk)))

/-- Where no index occurs twice, nothing else has the index of a sibling. -/
theorem Seats.once (hunique : Tree.Unique t.census) (hs : t.flow[i]? = some s)
    (hu : (nestContained t j).1.at? path = some u) (hi : u.node.index = s.node.index) : path = seat i := by
  obtain ⟨v, hv, hnode, -⟩ := hseat.found j hs
  have hunique' : Tree.Unique (nestContained t j).1.census := by
    rw [Tree.Unique, map_index_of_rel (rel_nestContained t j)]
    exact hunique
  exact path_unique hunique' hu hv (hi.trans hnode.index.symm)

/-- A sibling that another one strictly contains goes to the smallest one that does, or is turned away by it. -/
theorem Seats.moves (hs : t.flow[i]? = some s) (hin : ∃ c ∈ t.flow, c.box.strictlyContains s.box = true) :
    ∃ h host, IsHost t.flow i h ∧ t.flow[h]? = some host ∧
      if takesNobody host.node = true then ∃ k, seat i = [⟨.attached, t.attached.length + k⟩]
      else ∃ k, seat i = seat h ++ [⟨.flow, host.flow.length + k⟩] := by
  have hall := hosted_guests t.flow
  obtain ⟨c, hc, hin⟩ := hin
  cases hbest : s.box.bestContainer (t.flow.map Tree.box) with
  | none =>
    have hout := Box.strictlyContains_of_bestContainer_eq_none hbest _ (List.mem_map_of_mem hc)
    rw [hin] at hout
    cases hout
  | some h =>
    have hsmallest := Box.smallest_bestContainer hbest
    obtain ⟨b, hb, -⟩ := id hsmallest
    rw [List.getElem?_map, Option.map_eq_some_iff] at hb
    obtain ⟨host, hhost, rfl⟩ := hb
    refine ⟨h, host, ⟨s, hs, hsmallest⟩, hhost, ?_⟩
    have hmem : guest t.flow h host ∈ guests t.flow := (hseat h host hhost).mem
    split
    · next ht =>
      obtain ⟨k, -, hk⟩ := (hseat i s hs).of_turnedAway hall hmem hbest ht
      exact ⟨k, hk⟩
    · next ht =>
      obtain ⟨k, way, -, hway, hk⟩ := (hseat i s hs).of_moves hall hmem hbest (Bool.eq_false_iff.2 ht)
      rw [hway.functional hall (hseat h host hhost)] at hk
      exact ⟨k, hk⟩

/-- Exactly those that none of the others strictly contains stay. -/
theorem Seats.stays (hs : t.flow[i]? = some s) :
    (∃ k, seat i = [⟨.flow, k⟩]) ↔ ∀ c ∈ t.flow, c.box.strictlyContains s.box = false := by
  constructor
  · rintro ⟨k, hk⟩
    by_contra hcon
    obtain ⟨h, host, -, hhost, hgoes⟩ := hseat.moves hs (by simpa using hcon)
    split at hgoes
    · obtain ⟨l, hl⟩ := hgoes
      cases hk.symm.trans hl
    · obtain ⟨l, hl⟩ := hgoes
      exact (hseat h host hhost).append_ne_singleton _ _ (hl.symm.trans hk)
  · intro hout
    have hnone : (guest t.flow i s).host = none := by
      apply Option.eq_none_iff_forall_ne_some.2
      intro h hbest
      obtain ⟨b, hb, hin⟩ := Box.strictlyContains_bestContainer hbest
      obtain ⟨c, hc, rfl⟩ := List.mem_map.1 (List.mem_of_getElem? hb)
      rw [hout c hc] at hin
      cases hin
    obtain ⟨k, -, hk⟩ := (hseat i s hs).of_stays hnone
    exact ⟨k, hk⟩

end seats

/-- The siblings of an owner in what nesting makes of it, each at its seat. -/
structure Lodged (t r : Tree) (seat : Nat → List Step) : Prop where
  /-- The trees that it had are still in it, and in the same places; an image may have become a view. -/
  found : ∀ i s, t.flow[i]? = some s →
    ∃ u, r.at? (seat i) = some u ∧ s.node.Raised u.node ∧ s.flow <+: u.flow ∧ u.attached = s.attached
  apart : ∀ i k, i < t.flow.length → k < t.flow.length → seat i = seat k → i = k
  /-- A sibling is found nowhere else, where no index occurs twice. -/
  once : Tree.Unique t.census → ∀ i s, t.flow[i]? = some s →
    ∀ path u, r.at? path = some u → u.node.index = s.node.index → path = seat i
  stays : ∀ i s, t.flow[i]? = some s →
    ((∃ k, seat i = [⟨.flow, k⟩]) ↔ ∀ c ∈ t.flow, c.box.strictlyContains s.box = false)
  /-- The others are flow children of their host, wherever that is, or attached to the owner. -/
  moves : ∀ i s, t.flow[i]? = some s → (∃ c ∈ t.flow, c.box.strictlyContains s.box = true) →
    ∃ h host, IsHost t.flow i h ∧ t.flow[h]? = some host ∧
      if takesNobody host.node = true then ∃ k, seat i = [⟨.attached, t.attached.length + k⟩]
      else ∃ k, seat i = seat h ++ [⟨.flow, host.flow.length + k⟩]

theorem lodged_nestContained (t : Tree) (j : Journal) : ∃ seat, Lodged t (nestContained t j).1 seat := by
  obtain ⟨seat, hseat⟩ := exists_seats t
  exact ⟨seat, {
    found := fun _ _ => hseat.found j
    apart := fun _ _ => hseat.apart
    once := fun hunique _ _ hs _ _ => hseat.once j hunique hs
    stays := fun _ _ => hseat.stays
    moves := fun _ _ => hseat.moves }⟩

/-- No chain of hosts comes back to where it starts: the boxes grow. -/
theorem not_transGen_isHost (ts : List Tree) (i : Nat) : ¬Relation.TransGen (IsHost ts) i i := by
  let area (i : Nat) : Nat := ts[i]?.elim 0 (·.box.area)
  have hlt : ∀ i h, IsHost ts i h → area i < area h := by
    rintro i h ⟨s, hs, c, hc, hin, -⟩
    rw [List.getElem?_map, Option.map_eq_some_iff] at hc
    obtain ⟨host, hhost, rfl⟩ := hc
    simp only [area, hs, hhost, Option.elim_some]
    exact Box.area_lt_of_strictlyContains hin
  intro hcycle
  have hself : Relation.TransGen (· < ·) (area i) (area i) := hcycle.lift area hlt
  rw [Relation.transGen_eq_self] at hself
  exact Nat.lt_irrefl _ hself

theorem splitPair_eq_none {α : Type} {r : α → α → Bool} {as : List α} :
    splitPair r as = none ↔ as.Pairwise fun a b => r a b = false := by
  induction as with
  | nil => simp [splitPair]
  | cons a as ih =>
    rw [splitPair, List.pairwise_cons, ← ih, ← splitFirst_eq_none]
    cases splitFirst (r a) as <;> simp

theorem pairwise_collapseEqual (t : Tree) (j : Journal) :
    (collapseEqual t j).1.flow.Pairwise fun a b => a.box.same b.box = false := by
  have hlast := (ends_collapseEqual t j).last
  rw [settleStep, Option.map_eq_none_iff] at hlast
  exact splitPair_eq_none.1 hlast

/-- Nesting is complete and loses nothing. Where equal boxes are collapsed no two siblings have one box. Of any
siblings, exactly those that another one strictly contains leave the flow, to the smallest one that does, or to the
trees attached to the owner if that one takes nobody in. No chain of hosts is a cycle. Of those that stay none strictly
contains another, each sibling is found once, and no node is lost, doubled or changed, but that an image that takes
others in is a view. -/
theorem nestContained_lodges (t : Tree) (j : Journal) : let r := (nestContained t j).1
    ((collapseEqual t j).1.flow.Pairwise fun a b => a.box.same b.box = false) ∧
    (∃ seat, Lodged t r seat) ∧ (∀ i, ¬Relation.TransGen (IsHost t.flow) i i) ∧
    (∀ a ∈ r.flow, ∀ b ∈ r.flow, a.box.strictlyContains b.box = false) ∧
    Multiset.Rel Raised t.census r.census ∧ r.node = t.node ∧ t.attached <+: r.attached :=
  ⟨pairwise_collapseEqual t j, lodged_nestContained t j, not_transGen_isHost t.flow, outside_nestContained t j,
    rel_nestContained t j, rfl, List.prefix_append _ _⟩

end Regroup

end FlexRecovery
