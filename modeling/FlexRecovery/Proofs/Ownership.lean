import FlexRecovery.Proofs.Ranks
import Mathlib.Logic.Function.Basic

/-!
Edges with ranks against lists: whatever was done to a store, it answers what a store answers that keeps the
members of each owner in a list, and each member has one owner.
-/

namespace FlexRecovery.Store

/-! ### A store of lists -/

/-- What a store answers: its nodes by key, and the members of each owner in their order. -/
@[ext]
structure Shelf where
  get? : Key → Option Node
  members : Key → Tree.Link → List Key
  next : Key

def shelf (s : Store) : Shelf := { get? := s.get?, members := s.members, next := s.next }

/-- The operations that are given nodes of a store. -/
inductive Change where
  | insert (n : Node)
  | add (owner : Key) (link : Tree.Link) (n : Node)
  | push (owner : Key) (link : Tree.Link) (k : Key)
  | detach (k : Key)
  | setChildren (owner : Key) (order : List Key)
  | remove (k : Key)

def Alive (s : Store) (k : Key) : Prop := (s.get? k).isSome = true

/-- The nodes that a change names are in the store. -/
def Change.Live (s : Store) : Change → Prop
  | insert _ => True
  | add owner _ _ => s.Alive owner
  | push owner _ k => s.Alive owner ∧ s.Alive k
  | detach k => s.Alive k
  | setChildren owner order => s.Alive owner ∧ ∀ k ∈ order, s.Alive k
  | remove k => s.Alive k

def Change.apply (s : Store) : Change → Store
  | insert n => (s.insert n).1
  | add owner link n => (s.add owner link n).1
  | push owner link k => s.push owner link k
  | detach k => s.detach k
  | setChildren owner order => s.setChildren owner order
  | remove k => s.remove k

/-- The same on lists. Each node that is moved leaves all lists first. -/
def Change.arrange (s : Shelf) : Change → Shelf
  | insert n => { s with get? := Function.update s.get? s.next (some n), next := s.next + 1 }
  | add owner link n =>
    { get? := Function.update s.get? s.next (some n)
      members := fun o l => if o = owner ∧ l = link then s.members o l ++ [s.next] else s.members o l
      next := s.next + 1 }
  | push owner link k =>
    { s with
      members := fun o l =>
        if o = owner ∧ l = link then (s.members o l).filter (· ≠ k) ++ [k] else (s.members o l).filter (· ≠ k) }
  | detach k => { s with members := fun o l => (s.members o l).filter (· ≠ k) }
  | setChildren owner order =>
    { s with
      members := fun o l =>
        if o = owner ∧ l = .flow then order.dedup else (s.members o l).filter (· ∉ order) }
  | remove k =>
    { s with
      get? := Function.update s.get? k none
      members := fun o l => if o = k then [] else (s.members o l).filter (· ≠ k) }

/-- What holds of a store between two operations. -/
structure Tidy (s : Store) : Prop where
  keys : ∀ e ∈ s.nodes, e.1 < s.next
  alive : ∀ e ∈ s.edges, s.Alive e.owner ∧ s.Alive e.member
  single : (s.edges.map (·.member)).Nodup
  ranks : ∀ owner link, ((ofOwner owner link s.edges).map (·.rank)).Nodup

variable {s : Store}

theorem get?_eq_none {k : Key} : s.get? k = none ↔ ∀ e ∈ s.nodes, e.1 ≠ k := by
  rw [get?, List.lookup_eq_none_iff]
  exact forall₂_congr fun _ _ => bne_iff_ne.trans ne_comm

theorem Tidy.lt_next (h : s.Tidy) {k : Key} (hk : s.Alive k) : k < s.next := by
  by_contra hn
  have : s.get? k = none := get?_eq_none.2 fun e he hek => hn (hek ▸ h.keys e he)
  simp [Alive, this] at hk

theorem Tidy.fresh (h : s.Tidy) : ∀ e ∈ s.edges, e.owner ≠ s.next ∧ e.member ≠ s.next := fun e he =>
  ⟨Nat.ne_of_lt (h.lt_next (h.alive e he).1), Nat.ne_of_lt (h.lt_next (h.alive e he).2)⟩

/-! ### One operation -/

theorem Tidy.get?_insert (h : s.Tidy) (n : Node) :
    (s.insert n).1.get? = Function.update s.get? s.next (some n) := by
  have none : s.get? s.next = none := get?_eq_none.2 fun e he => Nat.ne_of_lt (h.keys e he)
  funext k
  by_cases hk : k = s.next
  · subst hk
    rw [Function.update_self, get?, insert, List.lookup_append, show s.nodes.lookup s.next = _ from none]
    simp
  · rw [Function.update_of_ne hk, get?, insert, List.lookup_append]
    simp [List.lookup_cons, beq_eq_false_iff_ne.2 hk, get?]

theorem get?_remove (s : Store) (k : Key) : (s.remove k).get? = Function.update s.get? k none := by
  funext j
  by_cases hj : j = k
  · subst hj
    rw [Function.update_self, get?_eq_none]
    exact fun e he => by simpa using (List.mem_filter.1 he).2
  · rw [Function.update_of_ne hj, get?, get?, remove]
    induction s.nodes with
    | nil => rfl
    | cons e es ih =>
      by_cases he : e.1 = k
      · rw [List.filter_cons_of_neg (by simp [he]), ih, List.lookup_cons, beq_eq_false_iff_ne.2 (he ▸ hj)]
      · rw [List.filter_cons_of_pos (by simp [he]), List.lookup_cons, List.lookup_cons, ih]

theorem Tidy.members_add (h : s.Tidy) (owner' : Key) (link' : Tree.Link) (n : Node) (owner : Key) (link : Tree.Link) :
    (s.add owner' link' n).1.members owner link =
      if owner = owner' ∧ link = link' then s.members owner link ++ [s.next] else s.members owner link := by
  have none : (s.members owner link).filter (· ≠ s.next) = s.members owner link :=
    List.filter_eq_self.2 fun k hk => by
      obtain ⟨e, he, -, -, rfl⟩ := mem_members.1 hk
      simpa using (h.fresh e he).2
  have step := members_push (s.insert n).1 owner' link' s.next owner link
  rwa [show (s.insert n).1.members owner link = s.members owner link from rfl, none] at step

/-! ### What an operation keeps -/

theorem Tidy.insert (h : s.Tidy) (n : Node) : (s.insert n).1.Tidy where
  keys := fun e he => by
    rcases List.mem_append.1 he with he | he
    · exact Nat.lt_succ_of_lt (h.keys e he)
    · rw [List.mem_singleton.1 he]
      exact Nat.lt_succ_self _
  alive := fun e he => by
    obtain ⟨owner, member⟩ := h.fresh e he
    simp only [Alive, h.get?_insert, Function.update_of_ne owner, Function.update_of_ne member]
    exact h.alive e he
  single := h.single
  ranks := h.ranks

theorem Tidy.filter (h : s.Tidy) (q : Edge → Bool) : Tidy { s with edges := s.edges.filter q } where
  keys := h.keys
  alive := fun e he => h.alive e (List.mem_of_mem_filter he)
  single := h.single.sublist (List.filter_sublist.map _)
  ranks := fun owner link => by
    rw [ofOwner_filter]
    exact (h.ranks owner link).sublist (List.filter_sublist.map _)

/-- Members without an owner get one, behind all that it has. -/
theorem Tidy.append (h : s.Tidy) {owner : Key} {link : Tree.Link} {placed : List Edge}
    (here : ∀ e ∈ placed, e.owner = owner ∧ e.link = link) (alive : ∀ e ∈ placed, s.Alive e.owner ∧ s.Alive e.member)
    (single : (placed.map (·.member)).Nodup) (free : ∀ e ∈ s.edges, e.member ∉ placed.map (·.member))
    (sorted : placed.Pairwise fun a b => a.rank < b.rank)
    (behind : ∀ d ∈ ofOwner owner link s.edges, ∀ e ∈ placed, d.rank < e.rank) :
    Tidy { s with edges := s.edges ++ placed } where
  keys := h.keys
  alive := fun e he => (List.mem_append.1 he).elim (h.alive e) (alive e)
  single := by
    rw [List.map_append, List.nodup_append']
    refine ⟨h.single, single, fun k hk => ?_⟩
    obtain ⟨e, he, rfl⟩ := List.mem_map.1 hk
    exact free e he
  ranks := fun owner' link' => by
    rw [ofOwner_append]
    by_cases other : owner' = owner ∧ link' = link
    · obtain ⟨rfl, rfl⟩ := other
      rw [ofOwner_eq_self here, List.map_append, List.nodup_append']
      refine ⟨h.ranks _ _, List.pairwise_map.2 (sorted.imp Nat.ne_of_lt), fun r hr hr' => ?_⟩
      obtain ⟨d, hd, rfl⟩ := List.mem_map.1 hr
      obtain ⟨e, he, rank⟩ := List.mem_map.1 hr'
      exact Nat.ne_of_gt (behind d hd e he) rank
    · rw [ofOwner_eq_nil here other, List.append_nil]
      exact h.ranks _ _

theorem Tidy.push (h : s.Tidy) {owner k : Key} (ho : s.Alive owner) (hk : s.Alive k) (link : Tree.Link) :
    (s.push owner link k).Tidy :=
  (h.filter _).append (List.forall_mem_singleton.2 ⟨rfl, rfl⟩) (List.forall_mem_singleton.2 ⟨ho, hk⟩) (by simp)
    (fun e he => by simpa using (List.mem_filter.1 he).2) (List.pairwise_singleton ..)
    fun d hd e he => by
      obtain rfl := List.mem_singleton.1 he
      exact lt_nextRank hd

theorem Tidy.setChildren (h : s.Tidy) {owner : Key} {order : List Key} (ho : s.Alive owner)
    (hk : ∀ k ∈ order, s.Alive k) : (s.setChildren owner order).Tidy := by
  obtain ⟨placed, store, listed, here, sorted⟩ := setChildren_eq s owner order
  have mem : ∀ {k}, k ∈ placed.map (·.member) ↔ k ∈ order := by simp [listed]
  rw [store]
  refine (h.filter _).append here (fun e he => ⟨(here e he).1 ▸ ho, hk _ (mem.1 (List.mem_map_of_mem he))⟩)
    (listed ▸ List.nodup_dedup order) (fun e he => ?_) sorted fun d hd => ?_
  · simp only [List.mem_filter, Bool.and_eq_true, decide_eq_true_eq] at he
    exact fun hm => he.2.1 (mem.1 hm)
  · obtain ⟨hd, ho, hl⟩ := mem_ofOwner.1 hd
    simp [ho, hl] at hd

theorem Tidy.remove (h : s.Tidy) (k : Key) : (s.remove k).Tidy where
  keys := fun e he => h.keys e (List.mem_of_mem_filter he)
  alive := fun e he => by
    obtain ⟨he, out⟩ := List.mem_filter.1 he
    rw [Bool.and_eq_true, bne_iff_ne, bne_iff_ne] at out
    simp only [Alive, get?_remove, Function.update_of_ne out.1, Function.update_of_ne out.2]
    exact h.alive e he
  single := (h.filter _).single
  ranks := (h.filter _).ranks

theorem Tidy.alive_insert (h : s.Tidy) {k : Key} (hk : s.Alive k) (n : Node) : (s.insert n).1.Alive k := by
  rw [Alive, h.get?_insert, Function.update_of_ne (Nat.ne_of_lt (h.lt_next hk))]
  exact hk

theorem Tidy.apply (h : s.Tidy) (c : Change) (hc : c.Live s) : (c.apply s).Tidy := by
  cases c with
  | insert n => exact h.insert n
  | add owner link n =>
    refine (h.insert n).push (h.alive_insert hc n) ?_ link
    rw [Alive, h.get?_insert, Function.update_self]
    rfl
  | push owner link k => exact h.push hc.1 hc.2 link
  | detach k => exact h.filter _
  | setChildren owner order => exact h.setChildren hc.1 hc.2
  | remove k => exact h.remove k

/-- An operation answers what it answers on lists. -/
theorem Tidy.shelf_apply (h : s.Tidy) (c : Change) : (c.apply s).shelf = c.arrange s.shelf := by
  cases c with
  | insert n => exact Shelf.ext (h.get?_insert n) rfl rfl
  | add owner link n =>
    exact Shelf.ext (h.get?_insert n) (funext fun o => funext fun l => h.members_add owner link n o l) rfl
  | push owner link k => exact Shelf.ext rfl (funext fun o => funext fun l => members_push s owner link k o l) rfl
  | detach k => exact Shelf.ext rfl (funext fun o => funext fun l => members_detach s k o l) rfl
  | setChildren owner order =>
    obtain ⟨placed, store, -⟩ := setChildren_eq s owner order
    have nodes : (s.setChildren owner order).get? = s.get? := by rw [store]; rfl
    have next : (s.setChildren owner order).next = s.next := by rw [store]
    exact Shelf.ext nodes (funext fun o => funext fun l => members_setChildren s owner order o l) next
  | remove k => exact Shelf.ext (get?_remove s k) (funext fun o => funext fun l => members_remove s k o l) rfl

/-! ### Owners -/

theorem Tidy.owner?_eq_some (h : s.Tidy) {k owner : Key} {link : Tree.Link} :
    s.owner? k = some (owner, link) ↔ k ∈ s.members owner link := by
  rw [mem_members, owner?, Option.map_eq_some_iff]
  constructor
  · rintro ⟨e, he, eq⟩
    obtain ⟨rfl, rfl⟩ := Prod.mk.inj eq
    exact ⟨e, List.mem_of_find?_eq_some he, rfl, rfl, by simpa using List.find?_some he⟩
  · rintro ⟨e, he, rfl, rfl, rfl⟩
    obtain ⟨d, hd⟩ := Option.isSome_iff_exists.1 (List.find?_isSome (p := (·.member == e.member)).2 ⟨e, he, by simp⟩)
    -- the edge that is found is this one, as no other has that member
    have : d = e :=
      List.inj_on_of_nodup_map h.single (List.mem_of_find?_eq_some hd) he (by simpa using List.find?_some hd)
    exact ⟨d, hd, by rw [this]⟩

theorem Tidy.owner?_eq_none (h : s.Tidy) {k : Key} (free : ∀ owner link, k ∉ s.members owner link) :
    s.owner? k = none :=
  Option.eq_none_iff_forall_ne_some.2 fun ⟨owner, link⟩ ho => free owner link (h.owner?_eq_some.1 ho)

theorem Tidy.one_owner (h : s.Tidy) {k owner owner' : Key} {link link' : Tree.Link}
    (hk : k ∈ s.members owner link) (hk' : k ∈ s.members owner' link') : owner' = owner ∧ link' = link := by
  have eq := (h.owner?_eq_some.2 hk').symm.trans (h.owner?_eq_some.2 hk)
  exact Prod.mk.inj (Option.some.inj eq)

theorem Tidy.owner?_setChildren (h : s.Tidy) {owner : Key} {order : List Key}
    (live : (Change.setChildren owner order).Live s) {k : Key} (hk : k ∈ s.children owner) (out : k ∉ order) :
    (s.setChildren owner order).owner? k = none := by
  refine (h.setChildren live.1 live.2).owner?_eq_none fun o l => ?_
  rw [members_setChildren]
  split
  · rwa [List.mem_dedup]
  · next other => exact fun hm => other (h.one_owner hk (List.mem_of_mem_filter hm))

theorem Tidy.owner?_remove (h : s.Tidy) {k m : Key} {link : Tree.Link} (hm : m ∈ s.members k link) :
    (s.remove k).owner? m = none := by
  refine (h.remove k).owner?_eq_none fun o l => ?_
  rw [members_remove]
  split
  · exact List.not_mem_nil
  · next other => exact fun hm' => other (h.one_owner hm (List.mem_of_mem_filter hm')).1

theorem Tidy.alive_remove (h : s.Tidy) {k m : Key} {link : Tree.Link} (hm : m ∈ s.members k link) (other : m ≠ k) :
    (s.remove k).Alive m := by
  obtain ⟨e, he, -, -, rfl⟩ := mem_members.1 hm
  rw [Alive, get?_remove, Function.update_of_ne other]
  exact (h.alive e he).2

/-! ### A run -/

/-- An ordered store in which a node has at most one owner. -/
structure Ordered (s : Store) : Prop where
  single : ∀ k, (s.edges.filter (·.member == k)).length ≤ 1
  owner : ∀ k owner link, s.owner? k = some (owner, link) ↔ k ∈ s.members owner link
  ranks : ∀ owner link, (s.edgesFrom owner link).Pairwise fun d e => d.rank ≠ e.rank
  change : ∀ c : Change, c.Live s → (c.apply s).shelf = c.arrange s.shelf
  unlisted : ∀ owner order, (Change.setChildren owner order).Live s → ∀ k ∈ s.children owner, k ∉ order →
    (s.setChildren owner order).owner? k = none
  released : ∀ k link, (Change.remove k).Live s → ∀ m ∈ s.members k link, m ≠ k →
    (s.remove k).Alive m ∧ (s.remove k).owner? m = none

theorem Tidy.ordered (h : s.Tidy) : s.Ordered where
  single := fun k => by
    have := List.nodup_iff_count_le_one.1 h.single k
    rwa [List.count, List.countP_map, List.countP_eq_length_filter] at this
  owner := fun _ _ _ => h.owner?_eq_some
  ranks := fun owner link => List.pairwise_map.1 (h.ranks owner link)
  change := fun c _ => h.shelf_apply c
  unlisted := fun _ _ live _ hk out => h.owner?_setChildren live hk out
  released := fun _ _ _ _ hm other => ⟨h.alive_remove hm other, h.owner?_remove hm⟩

/-- Each change names nodes that are in the store when it is made. -/
def Admitted (s : Store) : List Change → Prop
  | [] => True
  | c :: cs => c.Live s ∧ Admitted (c.apply s) cs

def run (s : Store) (cs : List Change) : Store := cs.foldl Change.apply s

def Shelf.run (s : Shelf) (cs : List Change) : Shelf := cs.foldl Change.arrange s

/-- The root, and nothing under it. -/
def Shelf.ofRoot (n : Node) : Shelf where
  get? k := if k = root then some n else none
  members _ _ := []
  next := 1

theorem tidy_ofRoot (n : Node) : (ofRoot n).Tidy where
  keys := fun e he => by
    rw [List.mem_singleton.1 he]
    exact Nat.zero_lt_one
  alive := fun _ he => absurd he List.not_mem_nil
  single := .nil
  ranks := fun _ _ => .nil

theorem Tidy.run (h : s.Tidy) {cs : List Change} (admitted : Admitted s cs) :
    (s.run cs).Tidy ∧ (s.run cs).shelf = s.shelf.run cs := by
  induction cs generalizing s with
  | nil => exact ⟨h, rfl⟩
  | cons c cs ih =>
    obtain ⟨live, rest⟩ := admitted
    obtain ⟨tidy, shelf⟩ := ih (h.apply c live) rest
    refine ⟨tidy, ?_⟩
    rw [h.shelf_apply c] at shelf
    exact shelf

/-- Two children and an attached node. The second child moves under the first, the first is listed twice and
around the attached one, then it is removed. -/
def moves : List Change :=
  [.add root .flow default, .add root .flow default, .add root .attached default, .push 1 .flow 2,
    .setChildren root [1, 3, 1], .remove 1]

end FlexRecovery.Store
