import FlexRecovery.Proofs.Composed
import FlexRecovery.Proofs.Stages

/-!
Conditions on the members of every owner, from the draft to the regrouped tree. What is asked of a node depends on
how it hangs on its owner: a member that leaves the flow has to meet what is asked of attached nodes from then on.
-/

namespace FlexRecovery

open Node

namespace Tree

variable {Q : Link → Node → Prop} {t : Tree} {n : Node}

/-- Every member of every owner meets what is asked of it there. Nothing is asked of the root. -/
def Standing (Q : Link → Node → Prop) (t : Tree) : Prop :=
  t.Every fun s => (∀ m ∈ s.flow, Q .flow m.node) ∧ ∀ m ∈ s.attached, Q .attached m.node

/-- A member, and whatever lies below it. -/
structure Seated (Q : Link → Node → Prop) (l : Link) (m : Tree) : Prop where
  node : Q l m.node
  below : m.Standing Q

theorem standing_iff : t.Standing Q ↔ (∀ m ∈ t.flow, Seated Q .flow m) ∧ ∀ m ∈ t.attached, Seated Q .attached m := by
  rw [Standing, every_iff]
  constructor
  · rintro ⟨⟨hf, ha⟩, hm⟩
    exact ⟨fun m h => ⟨hf m h, hm m (List.mem_append_left _ h)⟩, fun m h => ⟨ha m h, hm m (List.mem_append_right _ h)⟩⟩
  · rintro ⟨hf, ha⟩
    exact ⟨⟨fun m h => (hf m h).node, fun m h => (ha m h).node⟩,
      fun m h => (List.mem_append.1 h).elim (fun h => (hf m h).below) fun h => (ha m h).below⟩

theorem Standing.flow (h : t.Standing Q) : ∀ m ∈ t.flow, Seated Q .flow m := (standing_iff.1 h).1

theorem Standing.attached (h : t.Standing Q) : ∀ m ∈ t.attached, Seated Q .attached m := (standing_iff.1 h).2

/-- Another node in place of the root. -/
theorem Standing.rooted (h : t.Standing Q) (n : Node) : Standing Q ⟨n, t.flow, t.attached⟩ :=
  standing_iff.2 ⟨h.flow, h.attached⟩

theorem Standing.addFlow (h : t.Standing Q) {ts : List Tree} (ht : ∀ m ∈ ts, Seated Q .flow m) :
    (t.addFlow ts).Standing Q :=
  standing_iff.2 ⟨List.forall_mem_append.2 ⟨h.flow, ht⟩, h.attached⟩

theorem Standing.addAttached (h : t.Standing Q) {ts : List Tree} (ht : ∀ m ∈ ts, Seated Q .attached m) :
    (t.addAttached ts).Standing Q :=
  standing_iff.2 ⟨h.flow, List.forall_mem_append.2 ⟨h.attached, ht⟩⟩

end Tree

open Tree

variable {Q : Link → Node → Prop}

namespace Draft

open Journaled

theorem seated_flowOf {ms : List Member} (h : ∀ m ∈ ms, Seated Q m.1 m.2) : ∀ t ∈ flowOf ms, Seated Q .flow t := by
  intro t ht
  obtain ⟨⟨link, u⟩, hm, he⟩ := List.mem_filterMap.1 ht
  cases link with
  | flow =>
    obtain rfl := Option.some.inj he
    exact h _ hm
  | attached => cases he

theorem seated_attachedOf {ms : List Member} (h : ∀ m ∈ ms, Seated Q m.1 m.2) :
    ∀ t ∈ attachedOf ms, Seated Q .attached t := by
  intro t ht
  obtain ⟨⟨link, u⟩, hm, he⟩ := List.mem_filterMap.1 ht
  cases link with
  | flow => cases he
  | attached =>
    obtain rfl := Option.some.inj he
    exact h _ hm

/-- What is asked of members is met by the nodes that are drafted from layers. -/
structure Drawing (Q : Link → Node → Prop) : Prop where
  node : ∀ cv onPage t box opacity,
    Gives (fun n => Q .attached n ∧ (isChrome onPage t = false → Q .flow n)) (Draft.node cv onPage t box opacity)
  marked : ∀ l n n', Marked n n' → Q l n → Q l n'

theorem Drawing.member (h : Drawing Q) {cv : Canvas} {onPage : Bool} {t : LayerTraits} {n : Node}
    (hn : Q .attached n ∧ (isChrome onPage t = false → Q .flow n)) {ms : List Member}
    (hm : ∀ m ∈ ms, Seated Q m.1 m.2) : Seated Q (linkOf cv onPage t) (assembled n ms) := by
  have hlink : Q (linkOf cv onPage t) n := by
    unfold linkOf
    split
    · exact hn.1
    · next hc =>
      rw [Bool.or_eq_true, not_or, Bool.not_eq_true] at hc
      exact hn.2 hc.1
  have hbelow (n : Node) : Standing Q ⟨n, flowOf ms, attachedOf ms⟩ :=
    standing_iff.2 ⟨seated_flowOf hm, seated_attachedOf hm⟩
  unfold assembled
  split
  · exact ⟨h.marked _ _ _ (marked_marked n) hlink, hbelow _⟩
  · exact ⟨hlink, hbelow _⟩

/-- All members that a layer yields. -/
def Yield.members (y : Yield) : List Member := y.own ++ y.strays

theorem Drawing.yield (h : Drawing Q) {cv : Canvas} {onPage stray : Bool} {t : LayerTraits} {n : Node}
    (hn : Q .attached n ∧ (isChrome onPage t = false → Q .flow n)) {below : List Yield}
    (hb : ∀ y ∈ below, ∀ m ∈ y.members, Seated Q m.1 m.2) :
    ∀ m ∈ Yield.members (
      let member : Member := (linkOf cv onPage t, assembled n (below.flatMap (·.own)))
      let strays := below.flatMap (·.strays)
      if stray then { strays := member :: strays } else { own := [member], strays }), Seated Q m.1 m.2 := by
  have hown : ∀ m ∈ below.flatMap (·.own), Seated Q m.1 m.2 := by
    intro m hm
    obtain ⟨y, hy, hm⟩ := List.mem_flatMap.1 hm
    exact hb y hy m (List.mem_append_left _ hm)
  have hstrays : ∀ m ∈ below.flatMap (·.strays), Seated Q m.1 m.2 := by
    intro m hm
    obtain ⟨y, hy, hm⟩ := List.mem_flatMap.1 hm
    exact hb y hy m (List.mem_append_right _ hm)
  cases stray <;> exact List.forall_mem_cons.2 ⟨h.member hn hown, hstrays⟩

mutual

theorem Drawing.layer (h : Drawing Q) (cv : Canvas) (owner : Box) (onPage : Bool) (inherited : Float32) :
    (l : Layer) → Gives (fun y => ∀ m ∈ y.members, Seated Q m.1 m.2) (layer cv owner onPage inherited l)
  | ⟨t, children⟩ => by
    have none : ∀ m ∈ Yield.members {}, Seated Q m.1 m.2 := by simp [Yield.members]
    rw [Draft.layer]
    dsimp only
    split
    · exact gives_pure none
    split
    · exact fun _ => none
    split
    · exact gives_pure none
    split
    · exact gives_pure none
    · refine .warned _ _ _ fun _ => (h.node cv onPage t _ _).bind fun n hn => ?_
      split
      · exact (Drawing.layers h cv _ false _ children).bind fun below hb => gives_pure (h.yield hn hb)
      · exact gives_pure (h.yield hn (by simp))

theorem Drawing.layers (h : Drawing Q) (cv : Canvas) (owner : Box) (onPage : Bool) (inherited : Float32) :
    (ls : List Layer) → Gives (∀ y ∈ ·, ∀ m ∈ y.members, Seated Q m.1 m.2) (layers cv owner onPage inherited ls)
  | [] => by
    rw [Draft.layers]
    exact gives_pure (by simp)
  | l :: ls => by
    rw [Draft.layers]
    exact (Drawing.layer h cv owner onPage inherited l).bind fun y hy =>
      (Drawing.layers h cv owner onPage inherited ls).bind fun ys hys =>
        gives_pure (List.forall_mem_cons.2 ⟨hy, hys⟩)

end

theorem Drawing.ofPage (h : Drawing Q) (o : Options) (d : Document) : Gives (Standing Q) (ofPage o d) := by
  obtain ⟨width, height, t, children⟩ := d
  refine .bind (P := fun _ => True) (fun _ => trivial) fun n _ => (h.layers _ _ true _ children).bind fun ys hys =>
    gives_pure ?_
  have hm : ∀ m ∈ ys.flatMap fun y => y.own ++ y.strays, Seated Q m.1 m.2 := by
    intro m hm
    obtain ⟨y, hy, hm⟩ := List.mem_flatMap.1 hm
    exact hys y hy m hm
  exact standing_iff.2 ⟨seated_flowOf hm, seated_attachedOf hm⟩

end Draft

namespace Ghosts

/-- Ghosts are flow children, and what takes their place hangs on the new owner as it hung on them. -/
theorem standing_purged (o : Options) {t : Tree} (h : t.Standing Q) : (purged o t).Standing Q := by
  induction t using induction_members with
  | _ t ih =>
    have hp (v : Tree) (hv : v ∈ t.members) (hs : v.Standing Q) : (purged o v).Standing Q := ih v hv hs
    have hunwrap : ∀ v ∈ t.flow, (∀ u ∈ (unwrap o v).flow, Seated Q .flow u) ∧
        ∀ u ∈ (unwrap o v).raised, Seated Q .attached u := by
      intro v hv
      have hs := h.flow v hv
      have hpv := hp v (List.mem_append_left _ hv) hs.below
      cases hg : isGhost o v with
      | true =>
        rw [(unwrap_ghost hg).1, (unwrap_ghost hg).2]
        exact standing_iff.1 hpv
      | false =>
        rw [(unwrap_other hg).1, (unwrap_other hg).2]
        exact ⟨List.forall_mem_singleton.2 ⟨hs.node, hpv⟩, by simp⟩
    have hall (ts : List Tree) (hts : ∀ v ∈ ts, v ∈ t.flow) : (∀ u ∈ (unwrapAll o ts).flow, Seated Q .flow u) ∧
        ∀ u ∈ (unwrapAll o ts).raised, Seated Q .attached u := by
      induction ts with
      | nil => simp [unwrapAll]
      | cons v ts ihs =>
        obtain ⟨hv, hts⟩ := List.forall_mem_cons.1 hts
        obtain ⟨hf, ha⟩ := hunwrap v hv
        obtain ⟨hf', ha'⟩ := ihs hts
        exact ⟨List.forall_mem_append.2 ⟨hf, hf'⟩, List.forall_mem_append.2 ⟨ha', ha⟩⟩
    obtain ⟨hf, ha⟩ := hall t.flow fun _ hv => hv
    rw [purged_eq, unwrapAttached_flow]
    refine standing_iff.2 ⟨hf, List.forall_mem_append.2 ⟨List.forall_mem_map.2 fun v hv => ?_, ha⟩⟩
    exact ⟨(h.attached v hv).node, hp v (List.mem_append_right _ hv) (h.attached v hv).below⟩

end Ghosts

namespace Stacking

/-- What is asked of members, if it does not matter whether they are numbered. Only flow children get the number
of a sibling. -/
structure Stackable (Q : Link → Node → Prop) : Prop where
  numbered : ∀ n k, Q .flow n → Q .flow (numbered n k)
  owning : ∀ l n flow, Q l n → Q l (owning n flow)

theorem node_assign (n : Node) (t : Tree) : (assign n t).node = owning n t.flow := by
  cases t
  rfl

theorem standing_assign (h : Stackable Q) (t : Tree) : ∀ n, t.Standing Q → (assign n t).Standing Q := by
  induction t using induction_members with
  | _ t ih =>
    intro n ht
    obtain ⟨m, flow, attached⟩ := t
    have seated {l : Link} {v : Tree} (hv : v ∈ Tree.members ⟨m, flow, attached⟩) (hs : v.Standing Q) {n : Node}
        (hn : Q l n) : Seated Q l (assign n v) := by
      refine ⟨?_, ih v hv n hs⟩
      rw [node_assign]
      exact h.owning _ _ _ hn
    have hflow (below : Nat) (ts : List Tree) (hts : ∀ u ∈ ts, u ∈ flow) :
        ∀ u ∈ assignFlow below ts, Seated Q .flow u := by
      induction ts generalizing below with
      | nil => simp [assignFlow]
      | cons u us ihs =>
        obtain ⟨hu, hus⟩ := List.forall_mem_cons.1 hts
        obtain ⟨hf, hs⟩ := ht.flow u hu
        have one (k : Nat) := seated (List.mem_append_left _ hu) hs (h.numbered u.node k hf)
        unfold assignFlow
        split
        · exact List.forall_mem_cons.2 ⟨one _, ihs _ hus⟩
        · exact List.forall_mem_cons.2 ⟨one _, ihs _ hus⟩
    have hattached (ts : List Tree) (hts : ∀ u ∈ ts, u ∈ attached) : ∀ u ∈ assignAttached ts, Seated Q .attached u := by
      induction ts with
      | nil => simp [assignAttached]
      | cons u us ihs =>
        obtain ⟨hu, hus⟩ := List.forall_mem_cons.1 hts
        obtain ⟨ha, hs⟩ := ht.attached u hu
        exact List.forall_mem_cons.2 ⟨seated (List.mem_append_right _ hu) hs ha, ihs hus⟩
    exact standing_iff.2 ⟨hflow 0 flow fun _ hu => hu, hattached attached fun _ hu => hu⟩

end Stacking

theorem standing_cleaned (o : Options) (h : o.stacking = true → Stacking.Stackable Q) {t : Tree}
    (ht : t.Standing Q) : (Recovery.cleaned o t).Standing Q := by
  have hnumber (hs : o.stacking = true) {t : Tree} (ht : t.Standing Q) : (Stacking.number t).Standing Q :=
    Stacking.standing_assign (h hs) t t.node ht
  unfold Recovery.cleaned
  dsimp only
  split
  · next hs =>
    split
    · exact hnumber hs (Ghosts.standing_purged o ht)
    · exact hnumber hs ht
  · split
    · exact Ghosts.standing_purged o ht
    · exact ht

/-- Whatever is asked of the root, if it does not matter whether nodes are numbered. -/
theorem node_cleaned (o : Options) (h : o.stacking = true → Stacking.Stackable Q) {l : Link} {t : Tree}
    (ht : Q l t.node) : Q l (Recovery.cleaned o t).node := by
  have hnumber (hs : o.stacking = true) {t : Tree} (h' : Q l t.node) : Q l (Stacking.number t).node := by
    rw [Stacking.number, Stacking.node_assign]
    exact (h hs).owning _ _ _ h'
  unfold Recovery.cleaned
  dsimp only
  split
  · next hs =>
    split
    · exact hnumber hs (t := Ghosts.purged o t) ht
    · exact hnumber hs ht
  · split
    · exact ht
    · exact ht

namespace Regroup

/-- What is asked of members, if regrouping keeps it: it is about the box of a node, its tokens and whether it is
chrome or the page, it survives what is folded in, and flow children pass it on to a container around them. -/
structure Robust (Q : Link → Node → Prop) : Prop where
  reads : ∀ l n n', n'.box = n.box → n'.classes = n.classes → n'.roles.isChrome = n.roles.isChrome →
    n'.hasRole .page = n.hasRole .page → Q l n → Q l n'
  absorb : ∀ l lower upper, Q l lower → Q .flow upper → Q l (lower.absorb upper)
  promoted : ∀ l n, Q l n → Q l n.promoted
  leaves : ∀ n, Q .flow n → Q .attached n
  container : ∀ roles n k, Container roles n k → ∀ ts : List Tree, n.box.Around (ts.map Tree.box) →
    (∀ t ∈ ts, Q .flow t.node) → Q .flow n

variable {k : Nat} {l : Link}

theorem Robust.marked (h : Robust Q) {n n' : Node} (hn : n.Marked n') : Q l n → Q l n' :=
  h.reads l n n' hn.kept.2 hn.classes hn.chrome hn.page

/-- An owner gets its axis. -/
theorem Robust.directed (h : Robust Q) {n : Node} (d : Option Axis) : Q l n → Q l { n with direction := d } :=
  h.reads l _ _ rfl rfl rfl rfl

theorem Robust.leave (h : Robust Q) {x : Tree} (hx : Seated Q .flow x) : Seated Q .attached x :=
  ⟨h.leaves _ hx.node, hx.below⟩

theorem Robust.hosting (h : Robust Q) {x : Tree} (hx : Seated Q l x) : Seated Q l (hosting x) := by
  refine ⟨?_, ?_⟩
  · unfold Regroup.hosting
    split
    · exact h.promoted _ _ hx.node
    · exact hx.node
  · rw [hosting_eq]
    exact hx.below.rooted _

theorem Robust.fused (h : Robust Q) {x y : Tree} (hx : Seated Q .flow x) (hy : Seated Q .flow y) :
    Seated Q .flow (fused x y) :=
  ⟨h.absorb _ _ _ hx.node hy.node, standing_iff.2 ⟨List.forall_mem_append.2 ⟨hx.below.flow, hy.below.flow⟩,
    List.forall_mem_append.2 ⟨hx.below.attached, hy.below.attached⟩⟩⟩

theorem Grouped.seated (hQ : Robust Q) {roles : List Role} {ts us : List Tree} {c c' : Nat}
    (h : Grouped roles ts c us c') (ht : ∀ t ∈ ts, Seated Q .flow t) : ∀ u ∈ us, Seated Q .flow u := by
  induction h with
  | nil => simp
  | own hn _ ih =>
    obtain ⟨hs, hts⟩ := List.forall_mem_cons.1 ht
    exact List.forall_mem_cons.2 ⟨⟨hQ.marked hn hs.node, hs.below.rooted _⟩, ih hts⟩
  | wrapped _ hn hb _ ih =>
    obtain ⟨hg, hts⟩ := List.forall_mem_append.1 ht
    refine List.forall_mem_cons.2 ⟨⟨?_, standing_iff.2 ⟨hg, by simp⟩⟩, ih hts⟩
    exact hQ.container _ _ _ hn _ hb fun t ht => (hg t ht).node

/-- What an owner stands like after a shift; what was asked of the owner itself it still meets. -/
theorem Shift.standing (hQ : Robust Q) {s s' : Tree × Nat} (h : Shift s s') (hs : s.1.Standing Q) :
    s'.1.Standing Q ∧ ∀ l, Q l s.1.node → Q l s'.1.node := by
  obtain ⟨hf, ha⟩ := standing_iff.1 hs
  cases h with
  | reorder h n a k => exact ⟨standing_iff.2 ⟨fun m hm => hf m (h.mem_iff.2 hm), ha⟩, fun _ => id⟩
  | foldUp h f a k =>
    obtain ⟨hc, hf⟩ := List.forall_mem_cons.1 hf
    exact ⟨standing_iff.2 ⟨List.forall_mem_append.2 ⟨hc.below.flow, hf⟩,
      List.forall_mem_append.2 ⟨ha, hc.below.attached⟩⟩, fun l hn => hQ.absorb l _ _ hn hc.node⟩
  | fuse hx hy h n f a k =>
    obtain ⟨hx, hf⟩ := List.forall_mem_cons.1 hf
    obtain ⟨hy, hf⟩ := List.forall_mem_cons.1 hf
    exact ⟨standing_iff.2 ⟨List.forall_mem_cons.2 ⟨hQ.fused hx hy, hf⟩, ha⟩, fun _ => id⟩
  | host h hb n f a k =>
    obtain ⟨hx, hf⟩ := List.forall_mem_cons.1 hf
    obtain ⟨hys, hf⟩ := List.forall_mem_append.1 hf
    have hx := hQ.hosting hx
    exact ⟨standing_iff.2 ⟨List.forall_mem_cons.2 ⟨⟨hx.node, hx.below.addFlow hys⟩, hf⟩, ha⟩, fun _ => id⟩
  | attach h y n f a k =>
    obtain ⟨hx, hf⟩ := List.forall_mem_cons.1 hf
    obtain ⟨hy, hf⟩ := List.forall_mem_cons.1 hf
    have hx := hQ.hosting hx
    have hxy := hx.below.addAttached (List.forall_mem_singleton.2 (hQ.leave hy))
    exact ⟨standing_iff.2 ⟨List.forall_mem_cons.2 ⟨⟨hx.node, hxy⟩, hf⟩, ha⟩, fun _ => id⟩
  | border h y n f a k =>
    obtain ⟨hx, hf⟩ := List.forall_mem_cons.1 hf
    obtain ⟨hy, hf⟩ := List.forall_mem_cons.1 hf
    have hy : Seated Q .attached (y.mapNode (·.addRole .border)) :=
      ⟨hQ.marked (marked_addRole y.node rfl) (hQ.leaves _ hy.node), hy.below.rooted _⟩
    have hxy := hx.below.addAttached (List.forall_mem_singleton.2 hy)
    exact ⟨standing_iff.2 ⟨List.forall_mem_cons.2 ⟨⟨hx.node, hxy⟩, hf⟩, ha⟩, fun _ => id⟩
  | detach y n f a k =>
    obtain ⟨hy, hf⟩ := List.forall_mem_cons.1 hf
    exact ⟨standing_iff.2 ⟨hf, List.forall_mem_append.2 ⟨ha, List.forall_mem_singleton.2 (hQ.leave hy)⟩⟩, fun _ => id⟩
  | enlist hi hl h hlen hm hb n f a =>
    obtain ⟨hx, hf⟩ := List.forall_mem_append.1 hf
    have hmade := hQ.container _ _ _ hm _ hb fun t ht => (hx t ht).node
    exact ⟨standing_iff.2 ⟨List.forall_mem_cons.2 ⟨⟨hmade, standing_iff.2 ⟨h.seated hQ hx, by simp⟩⟩, hf⟩, ha⟩,
      fun _ => id⟩

theorem Shifts.standing (hQ : Robust Q) {s s' : Tree × Nat} (h : Shifts s s') (hs : s.1.Standing Q) :
    s'.1.Standing Q ∧ ∀ l, Q l s.1.node → Q l s'.1.node := by
  induction h with
  | refl => exact ⟨hs, fun _ => id⟩
  | tail _ hs ih =>
    obtain ⟨ht, hf⟩ := hs.standing hQ ih.1
    exact ⟨ht, fun l => hf l ∘ ih.2 l⟩

theorem standing_collapseWrapper (hQ : Robust Q) {t : Tree} (h : t.Standing Q) :
    (collapseWrapper t).Standing Q ∧ ∀ l, Q l t.node → Q l (collapseWrapper t).node := by
  unfold collapseWrapper
  split
  · next only hf =>
    extract_lets n isFixed
    split
    · have ho := (h.flow only (by rw [hf]; exact List.mem_singleton_self _)).below
      exact ⟨standing_iff.2 ⟨ho.flow, List.forall_mem_append.2 ⟨h.attached, ho.attached⟩⟩, fun _ => hQ.directed _⟩
    · exact ⟨h, fun _ => id⟩
  · exact ⟨h, fun _ => id⟩

theorem standing_layOut (hQ : Robust Q) (preferred : Axis) {budget : Nat} {t : Tree} {j : Journal}
    (ht : t.Standing Q) : (layOut preferred budget t j).1.Standing Q ∧
      ∀ l, Q l t.node → Q l (layOut preferred budget t j).1.node := by
  have directed {t : Tree} (ht : t.Standing Q) (d : Option Axis) :
      (collapseWrapper ⟨{ t.node with direction := d }, t.flow, t.attached⟩).Standing Q ∧ ∀ l, Q l t.node →
        Q l (collapseWrapper ⟨{ t.node with direction := d }, t.flow, t.attached⟩).node := by
    obtain ⟨hs, hn⟩ := standing_collapseWrapper hQ (ht.rooted { t.node with direction := d })
    exact ⟨hs, fun l => hn l ∘ hQ.directed d⟩
  induction budget generalizing t j with
  | zero => exact directed ht (some preferred)
  | succ budget ih =>
    unfold layOut
    split
    · exact directed ht (some preferred)
    · next hl =>
      cases haxis : chooseAxis preferred t.flow with
      | some p =>
        obtain ⟨axis, bs⟩ := p
        obtain ⟨hbs, -⟩ := eq_bands_of_chooseAxis haxis
        have hg := grouped_mapM (bandTree axis) (sortByKey fun t => t.box.start axis.cross) bs
          (fun b hb j => grouped_bandTree (ne_nil_of_mem_bands (hbs ▸ hb)) j) j
        have hflow := hg.seated hQ fun u hu => ht.flow u ((perm_flatMap_bands hbs).mem_iff.2 hu)
        have hb : Standing Q ⟨t.node, (bs.mapM (bandTree axis) j).1, t.attached⟩ := standing_iff.2 ⟨hflow, ht.attached⟩
        exact directed hb (some axis)
      | none =>
        obtain ⟨i, o, ho, hperm⟩ := offender?_of_not_length_le_one hl
        obtain ⟨n, flow, attached⟩ := t
        have hs : Shifts (⟨n, flow, attached⟩, j.created) (⟨n, flow.eraseIdx i, attached ++ [o]⟩, j.created) :=
          .reorder hperm (.single (.detach _ _ _ _ _))
        dsimp only
        rw [ho]
        dsimp only
        rw [Journaled.run_bind]
        exact ih (hs.standing hQ ht).1

theorem standing_makeFlex (hQ : Robust Q) {t : Tree} {j : Journal} (ht : t.Standing Q) :
    (makeFlex t j).1.Standing Q ∧ ∀ l, Q l t.node → Q l (makeFlex t j).1.node := by
  unfold makeFlex
  split
  · exact ⟨ht.rooted _, fun _ => hQ.directed none⟩
  · exact standing_layOut hQ _ ht

theorem standing_level (hQ : Robust Q) {t : Tree} {j : Journal} (ht : t.Standing Q) :
    (level t j).1.Standing Q ∧ ∀ l, Q l t.node → Q l (level t j).1.node := by
  cases hp : isPreset t.node with
  | true =>
    rw [level_of_preset hp]
    exact ⟨ht, fun _ => id⟩
  | false =>
    obtain ⟨u, j', hshift, hr⟩ := shifts_level hp j
    obtain ⟨hu, hf⟩ := hshift.standing hQ ht
    obtain ⟨hu', hf'⟩ := standing_makeFlex hQ (j := j') hu
    rw [hr]
    exact ⟨hu', fun l => hf' l ∘ hf l⟩

theorem standing_within (hQ : Robust Q) {budget : Nat} {t : Tree} {j : Journal} (ht : t.Standing Q) :
    (within budget t j).1.Standing Q ∧ ∀ l, Q l t.node → Q l (within budget t j).1.node := by
  induction budget generalizing t j with
  | zero => exact ⟨ht, fun _ => id⟩
  | succ budget ih =>
    cases hc : t.node.isContent with
    | true =>
      have hr : within (budget + 1) t j = (t, j) := by
        rw [within, hc]
        rfl
      rw [hr]
      exact ⟨ht, fun _ => id⟩
    | false =>
      obtain ⟨hl, hn⟩ := standing_level hQ (j := j) ht
      have below {l : Link} {m : Tree} (hm : Seated Q l m) : Journaled.Gives (Seated Q l) (within budget m) :=
        fun j => ⟨(ih hm.below).2 l hm.node, (ih hm.below).1⟩
      rw [run_within hc]
      exact ⟨standing_iff.2 ⟨Journaled.gives_mapM (fun m hm => below (hl.flow m hm)) _,
        Journaled.gives_mapM (fun m hm => below (hl.attached m hm)) _⟩, hn⟩

end Regroup

namespace Recovery

/-- From the cleaned draft to the regrouped tree of a document. -/
theorem standing_regrouped (hQ : Regroup.Robust Q) {o : Options} {d : Document}
    (h : (cleaned o (drafted o d).1).Standing Q) : (regrouped o d).1.Standing Q ∧
      ∀ l, Q l (cleaned o (drafted o d).1).node → Q l (regrouped o d).1.node :=
  Regroup.standing_within hQ h

end Recovery

end FlexRecovery
