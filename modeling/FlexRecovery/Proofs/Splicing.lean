import FlexRecovery.Proofs.Cleaning
import FlexRecovery.Proofs.Dissolving
import FlexRecovery.Proofs.Paths

/-!
Ghosts, one at a time and all at once. The ghosts of a tree are found first, on a walk that meets an owner before its
members. From the last to the first each one is then taken out of the flow of its owner, which gets its members. What
comes out is said at once: a flow child that is a ghost expands to what its flow children expand to.
-/

namespace FlexRecovery

namespace Tree

mutual

/-- The tree and all trees below it, in the order of `subtrees`, each with the path that leads to it. -/
def walk : Tree → List (List Step × Tree)
  | ⟨n, flow, attached⟩ => ([], ⟨n, flow, attached⟩) :: (walkFrom .flow 0 flow ++ walkFrom .attached 0 attached)

def walkFrom (link : Link) (position : Nat) : List Tree → List (List Step × Tree)
  | [] => []
  | t :: ts => (walk t).map (fun v => (⟨link, position⟩ :: v.1, v.2)) ++ walkFrom link (position + 1) ts

end

/-- Takes the flow child at the end of a path out of the flow. Its owner gets its members, its flow children in its
place. What is attached stays, and so does the root. -/
def splice (t : Tree) : List Step → Tree
  | [] => t
  | [s] =>
    match s.link, t.flow[s.position]? with
    | .flow, some c =>
      ⟨t.node, t.flow.take s.position ++ c.flow ++ t.flow.drop (s.position + 1), t.attached ++ c.attached⟩
    | _, _ => t
  | s :: s' :: path =>
    match t.member? s with
    | some m => t.setMember s (m.splice (s' :: path))
    | none => t

variable {n : Node} {before after flow attached : List Tree} {c t : Tree}

theorem walk_eq (t : Tree) : t.walk = ([], t) :: (walkFrom .flow 0 t.flow ++ walkFrom .attached 0 t.attached) := by
  cases t
  rfl

theorem map_snd_walkFrom (link : Link) (position : Nat) {ts : List Tree}
    (h : ∀ t ∈ ts, t.walk.map Prod.snd = t.subtrees) : (walkFrom link position ts).map Prod.snd = subtreesAll ts := by
  induction ts generalizing position with
  | nil => rfl
  | cons t ts ih =>
    obtain ⟨ht, hts⟩ := List.forall_mem_cons.1 h
    rw [walkFrom, List.map_append, ih _ hts, List.map_map, subtreesAll, ← ht]
    rfl

/-- The walk meets every tree once, in order. -/
theorem map_snd_walk (t : Tree) : t.walk.map Prod.snd = t.subtrees := by
  induction t using induction_members with
  | _ t ih =>
    rw [walk_eq, List.map_cons, List.map_append, map_snd_walkFrom _ _ fun u hu => ih u (List.mem_append_left _ hu),
      map_snd_walkFrom _ _ fun u hu => ih u (List.mem_append_right _ hu), subtrees_eq, subtreesAll_eq, subtreesAll_eq]

theorem mem_walkFrom {link : Link} {position : Nat} {ts : List Tree} {v : List Step × Tree} :
    v ∈ walkFrom link position ts ↔
      ∃ i u w, ts[i]? = some u ∧ w ∈ u.walk ∧ v = (⟨link, position + i⟩ :: w.1, w.2) := by
  induction ts generalizing position with
  | nil => simp [walkFrom]
  | cons t ts ih =>
    rw [walkFrom, List.mem_append, ih, List.mem_map]
    constructor
    · rintro (⟨w, hw, rfl⟩ | ⟨i, u, w, hu, hw, rfl⟩)
      · exact ⟨0, t, w, rfl, hw, rfl⟩
      · exact ⟨i + 1, u, w, hu, hw, by rw [Nat.add_right_comm]; rfl⟩
    · rintro ⟨_ | i, u, w, hu, hw, rfl⟩
      · obtain rfl : t = u := by simpa using hu
        exact .inl ⟨w, hw, rfl⟩
      · exact .inr ⟨i, u, w, hu, hw, by rw [Nat.add_right_comm]; rfl⟩

/-- Each tree stands at the end of its path. -/
theorem at?_of_mem_walk {v : List Step × Tree} (h : v ∈ t.walk) : t.at? v.1 = some v.2 := by
  induction t using induction_members generalizing v with
  | _ t ih =>
    rw [walk_eq, List.mem_cons, List.mem_append, mem_walkFrom, mem_walkFrom] at h
    rcases h with rfl | ⟨i, u, w, hu, hw, rfl⟩ | ⟨i, u, w, hu, hw, rfl⟩
    · rfl
    · rw [at?, member?, Nat.zero_add, hu]
      exact ih u (List.mem_append_left _ (List.mem_of_getElem? hu)) hw
    · rw [at?, member?, Nat.zero_add, hu]
      exact ih u (List.mem_append_right _ (List.mem_of_getElem? hu)) hw

/-- Induction on a tree by all that lies below it. -/
@[elab_as_elim]
theorem induction_below {motive : Tree → Prop} (t : Tree)
    (step : ∀ t, (∀ m ∈ t.members, ∀ s ∈ m.subtrees, motive s) → motive t) : motive t := by
  suffices h : ∀ s ∈ t.subtrees, motive s from h t (self_mem_subtrees t)
  induction t using induction_members with
  | _ t ih =>
    intro s hs
    rcases mem_subtrees.1 hs with rfl | ⟨m, hm, hs⟩
    · exact step s ih
    · exact ih m hm s hs

theorem splice_here : splice ⟨n, before ++ c :: after, attached⟩ [⟨.flow, before.length⟩] =
    ⟨n, before ++ c.flow ++ after, attached ++ c.attached⟩ := by
  simp [splice]

theorem splice_flow {path : List Step} (hp : path ≠ []) :
    splice ⟨n, before ++ c :: after, attached⟩ (⟨.flow, before.length⟩ :: path) =
      ⟨n, before ++ c.splice path :: after, attached⟩ := by
  cases path with
  | nil => exact absurd rfl hp
  | cons s path => simp [splice, member?, setMember]

theorem splice_attached {path : List Step} (hp : path ≠ []) :
    splice ⟨n, flow, before ++ c :: after⟩ (⟨.attached, before.length⟩ :: path) =
      ⟨n, flow, before ++ c.splice path :: after⟩ := by
  cases path with
  | nil => exact absurd rfl hp
  | cons s path => simp [splice, member?, setMember]

end Tree

namespace Ghosts

open Tree

variable {o : Options} {t u : Tree} {ts : List Tree}

/-- The last step of the path leads to a flow child. -/
def hangsInFlow (path : List Step) : Bool := path.getLast?.any (·.link == .flow)

/-- The ghosts of a tree, in order. -/
def ghosts (o : Options) (t : Tree) : List (List Step × Tree) :=
  t.walk.filter fun v => hangsInFlow v.1 && isGhost o v.2

/-- Those among some members of an owner, and below them. -/
def ghostsFrom (o : Options) (link : Link) (position : Nat) (ts : List Tree) : List (List Step × Tree) :=
  (walkFrom link position ts).filter fun v => hangsInFlow v.1 && isGhost o v.2

theorem ghosts_eq (o : Options) (t : Tree) :
    ghosts o t = ghostsFrom o .flow 0 t.flow ++ ghostsFrom o .attached 0 t.attached := by
  rw [ghosts, walk_eq, List.filter_cons_of_neg (by simp [hangsInFlow]), List.filter_append]
  rfl

theorem path_ne_nil {v : List Step × Tree} (h : v ∈ ghosts o t) : v.1 ≠ [] := by
  rintro hnil
  have hv := (List.mem_filter.1 h).2
  rw [hnil] at hv
  cases hv

theorem hangsInFlow_cons {path : List Step} (hp : path ≠ []) (s : Step) :
    hangsInFlow (s :: path) = hangsInFlow path := by
  rw [hangsInFlow, List.getLast?_cons_of_ne_nil hp]
  rfl

theorem ghostsFrom_cons (o : Options) (link : Link) (position : Nat) (t : Tree) (ts : List Tree) :
    ghostsFrom o link position (t :: ts) =
      (if link = .flow ∧ isGhost o t = true then [([⟨link, position⟩], t)] else []) ++
        (ghosts o t).map (fun v => (⟨link, position⟩ :: v.1, v.2)) ++ ghostsFrom o link (position + 1) ts := by
  let below := walkFrom .flow 0 t.flow ++ walkFrom .attached 0 t.attached
  have hbelow : ∀ v ∈ below, v.1 ≠ [] := by
    intro v hv
    rcases List.mem_append.1 hv with hv | hv
    · obtain ⟨i, u, w, -, -, rfl⟩ := mem_walkFrom.1 hv
      exact List.cons_ne_nil _ _
    · obtain ⟨i, u, w, -, -, rfl⟩ := mem_walkFrom.1 hv
      exact List.cons_ne_nil _ _
  have hghosts : ghosts o t = below.filter fun v => hangsInFlow v.1 && isGhost o v.2 := by
    rw [ghosts, walk_eq, List.filter_cons_of_neg (by simp [hangsInFlow])]
  have hsame : below.filter ((fun v => hangsInFlow v.1 && isGhost o v.2) ∘ fun v => (⟨link, position⟩ :: v.1, v.2)) =
      ghosts o t := by
    rw [hghosts]
    exact List.filter_congr fun v hv => by rw [Function.comp_apply, hangsInFlow_cons (hbelow v hv)]
  rw [ghostsFrom, walkFrom, List.filter_append, List.filter_map, walk_eq, List.filter_cons, hsame]
  cases link <;> cases hg : isGhost o t <;> simp [hangsInFlow, hg, ghostsFrom]

/-- One ghost after another, from the last to the first. -/
def spliceAll (gs : List (List Step × Tree)) (t : Tree) : Tree := gs.foldr (fun v u => u.splice v.1) t

theorem spliceAll_append (gs hs : List (List Step × Tree)) (t : Tree) :
    spliceAll (gs ++ hs) t = spliceAll gs (spliceAll hs t) := List.foldr_append

variable {n : Node} {before after flow attached : List Tree} {c : Tree} {gs : List (List Step × Tree)}

/-- Whatever is spliced below a flow child changes that child only. -/
theorem spliceAll_flow (hg : ∀ v ∈ gs, v.1 ≠ []) :
    spliceAll (gs.map fun v => (⟨.flow, before.length⟩ :: v.1, v.2)) ⟨n, before ++ c :: after, attached⟩ =
      ⟨n, before ++ spliceAll gs c :: after, attached⟩ := by
  induction gs with
  | nil => rfl
  | cons v gs ih =>
    obtain ⟨hv, hgs⟩ := List.forall_mem_cons.1 hg
    rw [List.map_cons, spliceAll, List.foldr_cons, ← spliceAll, ih hgs, splice_flow hv]
    rfl

theorem spliceAll_attached (hg : ∀ v ∈ gs, v.1 ≠ []) :
    spliceAll (gs.map fun v => (⟨.attached, before.length⟩ :: v.1, v.2)) ⟨n, flow, before ++ c :: after⟩ =
      ⟨n, flow, before ++ spliceAll gs c :: after⟩ := by
  induction gs with
  | nil => rfl
  | cons v gs ih =>
    obtain ⟨hv, hgs⟩ := List.forall_mem_cons.1 hg
    rw [List.map_cons, spliceAll, List.foldr_cons, ← spliceAll, ih hgs, splice_attached hv]
    rfl

/-- The ghosts among the last flow children and below them: when the turn of a child comes, all that was below it has
been spliced, and the children after it have been replaced. -/
theorem spliceAll_ghostsFrom_flow (n : Node) (before attached : List Tree)
    (h : ∀ c ∈ ts, spliceAll (ghosts o c) c = purged o c) :
    spliceAll (ghostsFrom o .flow before.length ts) ⟨n, before ++ ts, attached⟩ =
      ⟨n, before ++ (unwrapAll o ts).flow, attached ++ (unwrapAll o ts).raised⟩ := by
  induction ts generalizing before with
  | nil => simp [ghostsFrom, walkFrom, spliceAll, unwrapAll]
  | cons c cs ih =>
    obtain ⟨hc, hcs⟩ := List.forall_mem_cons.1 h
    have hrest := ih (before ++ [c]) hcs
    rw [List.length_append, List.length_singleton, List.append_assoc, List.singleton_append, List.append_assoc,
      List.singleton_append] at hrest
    rw [ghostsFrom_cons, spliceAll_append, spliceAll_append, hrest, spliceAll_flow fun v hv => path_ne_nil hv, hc]
    cases hg : isGhost o c with
    | true =>
      rw [if_pos ⟨rfl, rfl⟩, unwrapAll, (unwrap_ghost hg).1, (unwrap_ghost hg).2]
      refine Eq.trans splice_here ?_
      rw [List.append_assoc, List.append_assoc]
    | false =>
      rw [if_neg (by simp), unwrapAll, (unwrap_other hg).1, (unwrap_other hg).2, List.append_nil]
      rfl

theorem spliceAll_ghostsFrom_attached (n : Node) (flow before : List Tree)
    (h : ∀ c ∈ ts, spliceAll (ghosts o c) c = purged o c) :
    spliceAll (ghostsFrom o .attached before.length ts) ⟨n, flow, before ++ ts⟩ =
      ⟨n, flow, before ++ ts.map (purged o)⟩ := by
  induction ts generalizing before with
  | nil => rfl
  | cons c cs ih =>
    obtain ⟨hc, hcs⟩ := List.forall_mem_cons.1 h
    have hrest := ih (before ++ [c]) hcs
    rw [List.length_append, List.length_singleton, List.append_assoc, List.singleton_append, List.append_assoc,
      List.singleton_append] at hrest
    rw [ghostsFrom_cons, if_neg (by simp), List.nil_append, spliceAll_append, hrest,
      spliceAll_attached fun v hv => path_ne_nil hv, hc, List.map_cons]

/-- Taking the ghosts out one at a time gives what unwrapping them all at once gives. -/
theorem spliceAll_ghosts (o : Options) (t : Tree) : spliceAll (ghosts o t) t = purged o t := by
  induction t using induction_members with
  | _ t ih =>
    obtain ⟨n, flow, attached⟩ := t
    have hflow := spliceAll_ghostsFrom_flow n [] (attached.map (purged o))
      fun c hc => ih c (List.mem_append_left attached hc)
    have hattached := spliceAll_ghostsFrom_attached n flow []
      fun c hc => ih c (List.mem_append_right flow hc)
    rw [ghosts_eq, spliceAll_append]
    change spliceAll _
      (spliceAll (ghostsFrom o .attached ([] : List Tree).length attached) ⟨n, flow, [] ++ attached⟩) = _
    rw [hattached]
    exact hflow.trans (by rw [purged_eq, unwrapAttached_flow]; rfl)

theorem count_unwrap (o : Options) (t : Tree) :
    (unwrap o t).count = (remove o t).2 + if isGhost o t then 1 else 0 := by
  obtain ⟨n, flow, attached⟩ := t
  unfold unwrap
  split <;> rfl

theorem count_unwrapAll (h : ∀ t ∈ ts, (remove o t).2 = (ghosts o t).length) (position : Nat) :
    (unwrapAll o ts).count = (ghostsFrom o .flow position ts).length := by
  induction ts generalizing position with
  | nil => rfl
  | cons t ts ih =>
    obtain ⟨ht, hts⟩ := List.forall_mem_cons.1 h
    rw [ghostsFrom_cons, List.length_append, List.length_append, List.length_map, ← ih hts, ← ht]
    change (unwrap o t).count + (unwrapAll o ts).count = _
    rw [count_unwrap]
    cases isGhost o t
    · simp
    · simp [Nat.add_comm]

theorem count_unwrapAttached (h : ∀ t ∈ ts, (remove o t).2 = (ghosts o t).length) (position : Nat) :
    (unwrapAttached o ts).count = (ghostsFrom o .attached position ts).length := by
  induction ts generalizing position with
  | nil => rfl
  | cons t ts ih =>
    obtain ⟨ht, hts⟩ := List.forall_mem_cons.1 h
    rw [ghostsFrom_cons, if_neg (by simp), List.nil_append, List.length_append, List.length_map, ← ih hts, ← ht]
    obtain ⟨n, flow, attached⟩ := t
    rfl

/-- As many nodes are counted as there are ghosts. -/
theorem length_ghosts (o : Options) (t : Tree) : (remove o t).2 = (ghosts o t).length := by
  induction t using induction_members with
  | _ t ih =>
    rw [ghosts_eq, List.length_append, ← count_unwrapAll fun u hu => ih u (List.mem_append_left _ hu),
      ← count_unwrapAttached fun u hu => ih u (List.mem_append_right _ hu)]
    rfl

/-- The nodes of the ghosts. -/
def ghostNodes (gs : List (List Step × Tree)) : Multiset Node := (gs.map fun v => v.2.node : List Node)

theorem ghostNodes_ghostsFrom_cons (o : Options) (link : Link) (position : Nat) (t : Tree) (ts : List Tree) :
    ghostNodes (ghostsFrom o link position (t :: ts)) =
      (if link = .flow ∧ isGhost o t = true then {t.node} else 0) + ghostNodes (ghosts o t) +
        ghostNodes (ghostsFrom o link (position + 1) ts) := by
  rw [ghostsFrom_cons, ghostNodes, List.map_append, List.map_append, ← Multiset.coe_add, ← Multiset.coe_add,
    List.map_map]
  split
  · rfl
  · rfl

theorem census_unwrap (o : Options) (t : Tree) : censusAll (unwrap o t).flow + censusAll (unwrap o t).raised +
    (if isGhost o t then {t.node} else 0) = (purged o t).census := by
  cases hg : isGhost o t with
  | true =>
    rw [(unwrap_ghost hg).1, (unwrap_ghost hg).2, census_eq (purged o t), if_pos rfl, add_comm, Multiset.singleton_add]
    rfl
  | false =>
    rw [(unwrap_other hg).1, (unwrap_other hg).2]
    simp

theorem census_unwrapAll (h : ∀ t ∈ ts, ghostNodes (ghosts o t) + (purged o t).census = t.census) (position : Nat) :
    ghostNodes (ghostsFrom o .flow position ts) +
        (censusAll (unwrapAll o ts).flow + censusAll (unwrapAll o ts).raised) =
      censusAll ts := by
  induction ts generalizing position with
  | nil => rfl
  | cons t ts ih =>
    obtain ⟨ht, hts⟩ := List.forall_mem_cons.1 h
    rw [censusAll_cons, ← ht, ← ih hts (position + 1), ← census_unwrap, ghostNodes_ghostsFrom_cons, unwrapAll,
      censusAll_append, censusAll_append]
    simp only [true_and]
    abel

theorem census_attached (h : ∀ t ∈ ts, ghostNodes (ghosts o t) + (purged o t).census = t.census) (position : Nat) :
    ghostNodes (ghostsFrom o .attached position ts) + censusAll (ts.map (purged o)) = censusAll ts := by
  induction ts generalizing position with
  | nil => rfl
  | cons t ts ih =>
    obtain ⟨ht, hts⟩ := List.forall_mem_cons.1 h
    rw [List.map_cons, censusAll_cons, censusAll_cons, ← ht, ← ih hts (position + 1), ghostNodes_ghostsFrom_cons,
      if_neg (by simp)]
    abel

/-- The ghosts are taken out of a tree and no other node is. -/
theorem census_purged (o : Options) (t : Tree) : ghostNodes (ghosts o t) + (purged o t).census = t.census := by
  induction t using induction_members with
  | _ t ih =>
    have hflow := census_unwrapAll (fun u hu => ih u (List.mem_append_left _ hu)) 0
    have hattached := census_attached (fun u hu => ih u (List.mem_append_right _ hu)) 0
    rw [ghosts_eq, ghostNodes, List.map_append, ← Multiset.coe_add, ← ghostNodes, ← ghostNodes, census_eq t, ← hflow,
      ← hattached, purged_eq, census_mk, censusAll_append, unwrapAttached_flow, ← Multiset.singleton_add,
      ← Multiset.singleton_add]
    abel

/-- A ghost expands to what its flow children expand to, and any other tree to itself. -/
def expansion (o : Options) : Tree → List Tree := dissolve (isGhost o)

mutual

/-- What is attached to a ghost and to the ghosts that it expands over. The last ghost is taken out first. -/
def freed (o : Options) : Tree → List Tree
  | ⟨n, flow, attached⟩ => if isGhost o ⟨n, flow, attached⟩ then attached ++ freedAll o flow else []

def freedAll (o : Options) : List Tree → List Tree
  | [] => []
  | t :: ts => freedAll o ts ++ freed o t

end

theorem freedAll_eq (o : Options) (ts : List Tree) : freedAll o ts = ts.reverse.flatMap (freed o) := by
  induction ts with
  | nil => rfl
  | cons t ts ih => rw [freedAll, ih, List.reverse_cons, List.flatMap_append, List.flatMap_singleton]

theorem expansion_eq (o : Options) (t : Tree) :
    expansion o t = if isGhost o t then t.flow.flatMap (expansion o) else [t] := dissolve_eq _ t

theorem freed_eq (o : Options) (t : Tree) :
    freed o t = if isGhost o t then t.attached ++ t.flow.reverse.flatMap (freed o) else [] := by
  cases t
  rw [freed, freedAll_eq]

theorem unwrapAll_raised (o : Options) (ts : List Tree) :
    (unwrapAll o ts).raised = ts.reverse.flatMap fun t => (unwrap o t).raised := by
  induction ts with
  | nil => rfl
  | cons t ts ih =>
    rw [List.reverse_cons, List.flatMap_append, ← ih, List.flatMap_singleton]
    rfl

/-- What takes the place of a flow child is what it expands to, without the ghosts below. -/
theorem unwrap_eq (o : Options) (t : Tree) : (unwrap o t).flow = (expansion o t).map (purged o) ∧
    (unwrap o t).raised = (freed o t).map (purged o) := by
  induction t using induction_members with
  | _ t ih =>
    rw [expansion_eq, freed_eq]
    cases hg : isGhost o t with
    | false => exact unwrap_other hg
    | true =>
      have hflow : ∀ u ∈ t.flow, u ∈ t.members := fun u hu => List.mem_append_left _ hu
      rw [(unwrap_ghost hg).1, (unwrap_ghost hg).2, if_pos rfl, if_pos rfl, purged_eq, unwrapAll_flow, unwrapAll_raised,
        unwrapAttached_flow, List.map_append, List.map_flatMap, List.map_flatMap]
      refine ⟨List.flatMap_congr fun u hu => (ih u (hflow u hu)).1, congrArg _ (List.flatMap_congr fun u hu => ?_)⟩
      exact (ih u (hflow u (List.mem_reverse.1 hu))).2

/-- What is left of a tree, said by what is left of others. -/
theorem purged_mk (o : Options) (t : Tree) : purged o t =
    ⟨t.node, (t.flow.flatMap (expansion o)).map (purged o),
      (t.attached ++ t.flow.reverse.flatMap (freed o)).map (purged o)⟩ := by
  rw [purged_eq, unwrapAll_flow, unwrapAll_raised, unwrapAttached_flow, List.map_append, List.map_flatMap,
    List.map_flatMap]
  simp only [unwrap_eq]

theorem mem_subtrees_of_mem_freed {s : Tree} (h : s ∈ freed o t) : s ∈ t.subtrees := by
  induction t using induction_members with
  | _ t ih =>
    rw [freed_eq] at h
    split at h
    · rcases List.mem_append.1 h with hs | hs
      · exact mem_subtrees.2 (.inr ⟨s, List.mem_append_right _ hs, self_mem_subtrees s⟩)
      · obtain ⟨u, hu, hs⟩ := List.mem_flatMap.1 hs
        have hu : u ∈ t.members := List.mem_append_left _ (List.mem_reverse.1 hu)
        exact mem_subtrees.2 (.inr ⟨u, hu, ih u hu hs⟩)
    · cases h

/-- Whatever a node is left with as a flow child was below it. -/
theorem below_of_mem_expansion {x : Tree} (h : x ∈ t.flow.flatMap (expansion o)) :
    ∃ m ∈ t.members, x ∈ m.subtrees := by
  obtain ⟨m, hm, hx⟩ := List.mem_flatMap.1 h
  exact ⟨m, List.mem_append_left _ hm, mem_subtrees_of_mem_dissolve hx⟩

theorem below_of_mem_freed {x : Tree} (h : x ∈ t.attached ++ t.flow.reverse.flatMap (freed o)) :
    ∃ m ∈ t.members, x ∈ m.subtrees := by
  rcases List.mem_append.1 h with hx | hx
  · exact ⟨x, List.mem_append_right _ hx, self_mem_subtrees x⟩
  · obtain ⟨m, hm, hx⟩ := List.mem_flatMap.1 hx
    exact ⟨m, List.mem_append_left _ (List.mem_reverse.1 hm), mem_subtrees_of_mem_freed hx⟩

/-- What a tree becomes when its ghosts are spliced all at once. The flow children of a node become what they expand to,
and what is attached to a ghost is attached to the next owner that is none. Nodes do not change. -/
inductive Spliced (o : Options) : Tree → Tree → Prop
  | mk {t : Tree} {flow attached : List Tree} (hf : List.Forall₂ (Spliced o) (t.flow.flatMap (expansion o)) flow)
      (ha : List.Forall₂ (Spliced o) (t.attached ++ t.flow.reverse.flatMap (freed o)) attached) :
      Spliced o t ⟨t.node, flow, attached⟩

theorem eq_map_of_forall₂ {α β : Type} {R : α → β → Prop} {f : α → β} {as : List α} {bs : List β}
    (h : List.Forall₂ R as bs) (hf : ∀ a ∈ as, ∀ b, R a b → b = f a) : bs = as.map f := by
  induction h with
  | nil => rfl
  | cons hab _ ih =>
    obtain ⟨ha, has⟩ := List.forall_mem_cons.1 hf
    rw [List.map_cons, ha _ hab, ih has]

/-- Splicing at once has one result. -/
theorem spliced_iff (o : Options) (t : Tree) : ∀ u, Spliced o t u ↔ u = purged o t := by
  induction t using induction_below with
  | _ t ih =>
    have hflow : ∀ x ∈ t.flow.flatMap (expansion o), ∀ u, Spliced o x u ↔ u = purged o x := by
      intro x hx
      obtain ⟨m, hm, hx⟩ := below_of_mem_expansion hx
      exact ih m hm x hx
    have hattached : ∀ x ∈ t.attached ++ t.flow.reverse.flatMap (freed o), ∀ u, Spliced o x u ↔ u = purged o x := by
      intro x hx
      obtain ⟨m, hm, hx⟩ := below_of_mem_freed hx
      exact ih m hm x hx
    intro u
    rw [purged_mk]
    constructor
    · rintro ⟨hf, ha⟩
      rw [eq_map_of_forall₂ hf fun x hx u => (hflow x hx u).1, eq_map_of_forall₂ ha fun x hx u => (hattached x hx u).1]
    · rintro rfl
      exact ⟨List.forall₂_map_right_iff.2 (List.forall₂_same.2 fun x hx => (hflow x hx _).2 rfl),
        List.forall₂_map_right_iff.2 (List.forall₂_same.2 fun x hx => (hattached x hx _).2 rfl)⟩

/-- A ghost owns flow children, so something comes in its place. -/
theorem expansion_ne_nil (o : Options) (t : Tree) : expansion o t ≠ [] := by
  induction t using induction_members with
  | _ t ih =>
    rw [expansion_eq]
    split
    · next hg =>
      have hne : t.flow ≠ [] := by
        rintro hnil
        simp [isGhost, isLeaf, hnil] at hg
      obtain ⟨c, hc⟩ := List.exists_mem_of_ne_nil _ hne
      exact fun hnil => ih c (List.mem_append_left _ hc) (List.flatMap_eq_nil_iff.1 hnil c hc)
    · exact List.cons_ne_nil _ _

/-- Without the ghosts below it, a tree is a ghost if it was one before. -/
theorem isGhost_purged (o : Options) (t : Tree) : isGhost o (purged o t) = isGhost o t := by
  have hleaf : (purged o t).isLeaf = t.isLeaf := by
    rw [Tree.isLeaf, Tree.isLeaf, Bool.eq_iff_iff, List.isEmpty_iff, List.isEmpty_iff, purged_mk, List.map_eq_nil_iff,
      List.flatMap_eq_nil_iff]
    constructor
    · exact fun h => List.eq_nil_iff_forall_not_mem.2 fun c hc => expansion_ne_nil o c (h c hc)
    · rintro h
      simp [h]
  rw [isGhost, hleaf]
  rfl

theorem ghostsFrom_eq_nil {link : Link} (h : ∀ c ∈ ts, ghosts o c = [] ∧ (link = .flow → isGhost o c = false))
    (position : Nat) : ghostsFrom o link position ts = [] := by
  induction ts generalizing position with
  | nil => rfl
  | cons c cs ih =>
    obtain ⟨⟨hc, hg⟩, hcs⟩ := List.forall_mem_cons.1 h
    rw [ghostsFrom_cons, ih hcs, hc, if_neg fun hf => by simp [hg hf.1] at hf]
    rfl

/-- No ghosts are left. -/
theorem ghosts_purged (o : Options) (t : Tree) : ghosts o (purged o t) = [] := by
  induction t using induction_below with
  | _ t ih =>
    rw [ghosts_eq, purged_mk]
    refine List.append_eq_nil_iff.2 ⟨ghostsFrom_eq_nil (List.forall_mem_map.2 fun x hx => ?_) 0,
      ghostsFrom_eq_nil (List.forall_mem_map.2 fun x hx => ?_) 0⟩
    · obtain ⟨m, hm, hbelow⟩ := below_of_mem_expansion hx
      obtain ⟨c, -, hc⟩ := List.mem_flatMap.1 hx
      exact ⟨ih m hm x hbelow, fun _ => (isGhost_purged o x).trans (of_mem_dissolve hc)⟩
    · obtain ⟨m, hm, hbelow⟩ := below_of_mem_freed hx
      exact ⟨ih m hm x hbelow, nofun⟩

/-- Ghosts are found first, and then taken out one after another, from the last to the first. The tree that is left is
the one that has all of them spliced at once, as many are counted as were found, no other node is lost, and a second
run finds nothing. -/
theorem remove_splices (o : Options) (t : Tree) : let r := remove o t
    r.1 = spliceAll (ghosts o t) t ∧
    (∀ u, Spliced o t u ↔ u = r.1) ∧
    r.2 = (ghosts o t).length ∧
    ((ghosts o t).map (fun v => v.2.node) ++ r.1.nodes).Perm t.nodes ∧
    remove o r.1 = (r.1, 0) := by
  intro r
  have hsecond : remove o r.1 = (r.1, 0) := by
    refine Prod.ext ?_ ?_
    · exact (spliceAll_ghosts o r.1).symm.trans (congrArg (spliceAll · r.1) (ghosts_purged o t))
    · rw [length_ghosts, ghosts_purged]
      rfl
  refine ⟨(spliceAll_ghosts o t).symm, spliced_iff o t, length_ghosts o t, ?_, hsecond⟩
  exact Multiset.coe_eq_coe.1 (census_purged o t)

end Ghosts

end FlexRecovery
