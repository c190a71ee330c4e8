import FlexRecovery.Proofs.Faults
import FlexRecovery.Proofs.Grounding
import FlexRecovery.Proofs.Settling

/-!
Position tokens of a resolved tree. What is placed on its owner is absolute and an owner of such members is
relative, whatever it is itself, so an attached node that owns another one is told to be both.
-/

namespace FlexRecovery

open Node Tree

namespace Node

/-- At most one token says how the node is positioned. -/
def SinglyPlaced (n : Node) : Prop :=
  ∀ p ∈ positionings, ∀ q ∈ positionings, p ∈ n.classes.toList → q ∈ n.classes.toList → p = q

instance (n : Node) : Decidable n.SinglyPlaced :=
  inferInstanceAs (Decidable (∀ p ∈ positionings, ∀ q ∈ positionings, _))

/-- No token that says how the node is positioned comes or goes. -/
structure Unmoved (n n' : Node) : Prop where
  chrome : n'.roles.isChrome = n.roles.isChrome
  positions : ∀ p ∈ positionings, p ∈ n'.classes.toList ↔ p ∈ n.classes.toList
  tokens : ∀ t ∈ n.classes.toList, t ∈ n'.classes.toList

variable {o : Options} {n n' : Node}

theorem Unmoved.of_eq (hc : n'.classes = n.classes) (hr : n'.roles.isChrome = n.roles.isChrome) : Unmoved n n' :=
  ⟨hr, fun _ _ => by rw [hc], fun _ ht => hc ▸ ht⟩

theorem Unmoved.trans {a b c : Node} (h : Unmoved a b) (h' : Unmoved b c) : Unmoved a c where
  chrome := h'.chrome.trans h.chrome
  positions := fun p hp => (h'.positions p hp).trans (h.positions p hp)
  tokens := fun t ht => h'.tokens t (h.tokens t ht)

theorem unmoved_push (n : Node) {t : String} (ht : Neutral t) : Unmoved n (n.push t) where
  chrome := rfl
  positions := fun _ hp => Classes.mem_push.trans (or_iff_left fun e => ht.ne hp e.1.symm)
  tokens := fun _ hm => Classes.mem_push.2 (.inl hm)

theorem Grounded.unmoved (h : n.Grounded o) (hn : Unmoved n n') : n'.Grounded o where
  absolute := by
    rw [hn.positions _ (by simp [positionings])]
    exact h.absolute
  fixed := by
    rw [hn.positions _ (by simp [positionings]), hn.chrome]
    exact h.fixed
  relative := by
    rw [hn.positions _ (by simp [positionings])]
    intro hr
    obtain ⟨hs, l, hl⟩ := h.relative hr
    exact ⟨hs, l, hn.tokens _ hl⟩

end Node

namespace Tree

/-- Owns something that is placed on its box; chrome is placed elsewhere. -/
def Hosts (t : Tree) : Prop := ∃ a ∈ t.attached, a.node.roles.isChrome = false

/-- How a resolved tree that hangs on its owner by that link is positioned. -/
structure Positioned (o : Options) (l : Link) (t : Tree) : Prop where
  absolute : "absolute" ∈ t.node.classes.toList ↔ l = .attached ∧ t.node.roles.isChrome = false
  fixed : "fixed" ∈ t.node.classes.toList ↔ l = .attached ∧ t.node.roles.isChrome = true
  hosts : t.Hosts → "relative" ∈ t.node.classes.toList
  relative : "relative" ∈ t.node.classes.toList →
    t.Hosts ∨ (o.stacking = true ∧ ∃ k, Stacking.level k ∈ t.node.classes.toList)

variable {o : Options} {t : Tree}

theorem Positioned.unmoved {l : Link} (h : t.Positioned o l) {n : Node} (hn : Unmoved t.node n) :
    Positioned o l ⟨n, t.flow, t.attached⟩ where
  absolute := by
    rw [hn.positions _ (by simp [positionings]), hn.chrome]
    exact h.absolute
  fixed := by
    rw [hn.positions _ (by simp [positionings]), hn.chrome]
    exact h.fixed
  hosts := fun hh => (hn.positions _ (by simp [positionings])).2 (h.hosts hh)
  relative := fun hr => (h.relative ((hn.positions _ (by simp [positionings])).1 hr)).imp_right
    fun ⟨hs, k, hk⟩ => ⟨hs, k, hn.tokens _ hk⟩

theorem Positioned.singlyPlaced_flow (h : t.Positioned o .flow) : t.node.SinglyPlaced := by
  have ha : "absolute" ∉ t.node.classes.toList := by simp [h.absolute]
  have hf : "fixed" ∉ t.node.classes.toList := by simp [h.fixed]
  have key : ∀ p ∈ positionings, p ∈ t.node.classes.toList → p = "relative" := by
    intro p hp hm
    simp only [positionings, List.mem_cons, List.not_mem_nil, or_false] at hp
    rcases hp with rfl | rfl | rfl
    · rfl
    · exact absurd hm ha
    · exact absurd hm hf
  exact fun p hp q hq hpm hqm => (key p hp hpm).trans (key q hq hqm).symm

/-- An attached tree has a position of its own, so it must not be relative as well. -/
theorem Positioned.singlyPlaced_attached (h : t.Positioned o .attached) :
    t.node.SinglyPlaced ↔ "relative" ∉ t.node.classes.toList := by
  have hone : ("absolute" ∈ t.node.classes.toList ∧ "fixed" ∉ t.node.classes.toList) ∨
      ("absolute" ∉ t.node.classes.toList ∧ "fixed" ∈ t.node.classes.toList) := by
    rw [h.absolute, h.fixed]
    cases t.node.roles.isChrome <;> simp
  simp only [SinglyPlaced, positionings, List.mem_cons, List.not_mem_nil, or_false, forall_eq_or_imp, forall_eq]
  rcases hone with ⟨ha, hf⟩ | ⟨ha, hf⟩ <;> simp [ha, hf]

end Tree

namespace Resolve

open Tree

variable {o : Options}

theorem neutral_of_opens {t : String} (h : Opens (stems ++ fittings) t) : Neutral t := h.neutral (by decide +kernel)

theorem Touches.unmoved {n n' : Node} (h : Touches n n') : Unmoved n n' := by
  induction h with
  | refl => exact .of_eq rfl rfl
  | tail _ h ih =>
    refine ih.trans ?_
    cases h with
    | sizing axis s => cases axis <;> exact .of_eq rfl rfl
    | align => exact .of_eq rfl rfl
    | word h => exact unmoved_push _ (neutral_of_opens h)
    | button => exact .of_eq rfl ((isChrome_addRole _ _).trans (Bool.or_false _))

theorem Fits.unmoved {owner : Box} {n n' : Node} (h : Fits owner n n') : Unmoved n n' := by
  rcases h with h | ⟨axis, h⟩
  · exact Touches.unmoved h
  · exact Unmoved.trans (b := { n with box := _ }) (.of_eq rfl rfl) (Touches.unmoved h)

theorem grounded_overflowWrapper (owner : Node) (index : Nat) (box : Box) :
    (overflowWrapper owner index box).Grounded o := (unplaced_of_empty rfl).grounded rfl

theorem grounded_spacerNode (owner : Box) (axis : Axis) (index : Nat) (before after : Box) :
    (spacerNode owner axis index before after).Grounded o := by
  cases axis <;> exact (unplaced_of_empty rfl).grounded rfl

theorem positioned_leaf {n : Node} (h : n.Grounded o) (hc : n.roles.isChrome = false) (us : List Tree) :
    Positioned o .flow ⟨n, us, []⟩ where
  absolute := iff_of_false h.absolute (by simp)
  fixed := iff_of_false (by rw [h.fixed, hc]; simp) (by simp)
  hosts := fun ⟨_, ha, _⟩ => by cases ha
  relative := fun hr => .inr (h.relative hr)

/-- An owner is relative if it hosts something. -/
theorem positioned_containing {n : Node} {l : Link} (h : n.Grounded o) (hl : l = .attached ↔ n.roles.isChrome = true)
    {attached us rs : List Tree}
    (ha : (attached.any fun a => !a.node.roles.isChrome) = true ↔ Hosts ⟨containing n attached, us, rs⟩) :
    Positioned o l ⟨containing n attached, us, rs⟩ := by
  have hchrome : (containing n attached).roles.isChrome = n.roles.isChrome := by
    unfold containing
    split <;> rfl
  have hmem {p : String} (hp : p ∈ (containing n attached).classes.toList) : p ∈ n.classes.toList ∨
      p = "relative" ∧ Hosts ⟨containing n attached, us, rs⟩ := by
    by_cases hany : (attached.any fun a => !a.node.roles.isChrome) = true
    · rw [containing, if_pos hany] at hp
      exact (Classes.mem_push.1 hp).imp_right fun e => ⟨e.1, ha.1 hany⟩
    · rw [containing, if_neg hany] at hp
      exact .inl hp
  have hkept {p : String} (hp : p ∈ n.classes.toList) : p ∈ (containing n attached).classes.toList := by
    unfold containing
    split
    · exact Classes.mem_push.2 (.inl hp)
    · exact hp
  refine ⟨?_, ?_, ?_, ?_⟩
  · rw [hchrome, hl]
    exact iff_of_false (fun hp => (hmem hp).elim h.absolute fun e => by simp at e) (by simp)
  · rw [hchrome, hl, and_self]
    exact ⟨fun hp => h.fixed.1 ((hmem hp).resolve_right (by simp)), fun hc => hkept (h.fixed.2 hc)⟩
  · intro hh
    have hany := ha.2 hh
    dsimp only
    rw [containing, if_pos hany]
    exact Classes.mem_push.2 (.inr ⟨rfl, by decide⟩)
  · intro hr
    rcases hmem hr with hr | ⟨-, hh⟩
    · obtain ⟨hs, l, hl⟩ := h.relative hr
      exact .inr ⟨hs, l, hkept hl⟩
    · exact .inl hh

section pinning

theorem neutral_pin (axis : Axis) (p : Pin) : ∀ t ∈ p.tokens axis, Neutral t := by
  have hedge : ∀ e ∈ ["left", "right", "top", "bottom"], Neutral e := by decide
  have hstart : Neutral (startEdge axis) := by cases axis <;> exact hedge _ (by simp [startEdge])
  have hstop : Neutral (stopEdge axis) := by cases axis <;> exact hedge _ (by simp [stopEdge])
  have hoffset {e : String} (he : Neutral e) (v : Int) : Neutral (offset e v) := by
    unfold offset
    split
    · exact he.append _
    · exact (he.append _).append _
  have htranslate : Neutral "-translate-" := by decide
  have hsize : Neutral (sizeLetter axis ++ "-") := by cases axis <;> decide
  cases p with
  | start v => exact List.forall_mem_singleton.2 (hoffset hstart v)
  | stop v => exact List.forall_mem_singleton.2 (hoffset hstop v)
  | center =>
    exact List.forall_mem_cons.2 ⟨hstart.append _, List.forall_mem_singleton.2 ((htranslate.append _).append _)⟩
  | extent v => exact List.forall_mem_singleton.2 (hsize.append _)

theorem mem_pinned {owner : Box} {n : Node} {p : String} (hp : p ∈ positionings) :
    p ∈ (pinned owner n).classes.toList ↔ p ∈ n.classes.toList ∨ p = "absolute" := by
  have hneutral : ∀ t ∈ (pins owner n .row).flatMap (Pin.tokens .row) ++ (pins owner n .column).flatMap
      (Pin.tokens .column), Neutral t := by
    intro t ht
    rcases List.mem_append.1 ht with ht | ht <;>
      obtain ⟨a, -, ha⟩ := List.mem_flatMap.1 ht <;> exact neutral_pin _ a t ha
  rw [show (pinned owner n).classes = n.classes.pushAll (positionTokens owner n) from rfl, Classes.mem_pushAll,
    positionTokens, List.mem_cons]
  refine or_congr_right ⟨fun ⟨h, _⟩ => h.resolve_right fun ht => (hneutral p ht).ne hp rfl, ?_⟩
  rintro rfl
  exact ⟨.inl rfl, by decide⟩

theorem positioned_pinned {t : Tree} (h : t.Positioned o .flow) (hc : t.node.roles.isChrome = false) (owner : Box) :
    (t.mapNode (pinned owner)).Positioned o .attached where
  absolute := iff_of_true ((mem_pinned (by simp [positionings])).2 (.inr rfl)) ⟨rfl, hc⟩
  fixed := by
    have hf : "fixed" ∉ (pinned owner t.node).classes.toList := by
      rw [mem_pinned (by simp [positionings]), h.fixed]
      simp
    have hchrome : (pinned owner t.node).roles.isChrome = false := hc
    exact iff_of_false hf fun hp => absurd (hp.2.symm.trans hchrome) (by simp)
  hosts := fun hh => (mem_pinned (by simp [positionings])).2 (.inl (h.hosts hh))
  relative := by
    intro hr
    have hr := ((mem_pinned (by simp [positionings])).1 hr).resolve_right (by decide)
    have hkept {s : String} (hs : s ∈ t.node.classes.toList) : s ∈ (pinned owner t.node).classes.toList :=
      Classes.mem_pushAll.2 (.inl hs)
    exact (h.relative hr).imp_right (And.imp_right (Exists.imp fun _ => hkept))

end pinning

/-- How the members of each owner are positioned. -/
def Placed (o : Options) (t : Tree) : Prop :=
  t.Every fun s => (∀ m ∈ s.flow, m.Positioned o .flow) ∧ ∀ m ∈ s.attached, m.Positioned o .attached

theorem placed_iff {t : Tree} : Placed o t ↔ (∀ m ∈ t.flow, m.Positioned o .flow ∧ Placed o m) ∧
    ∀ m ∈ t.attached, m.Positioned o .attached ∧ Placed o m := by
  rw [Placed, every_iff]
  constructor
  · rintro ⟨⟨hf, ha⟩, hm⟩
    exact ⟨fun m h => ⟨hf m h, hm m (List.mem_append_left _ h)⟩, fun m h => ⟨ha m h, hm m (List.mem_append_right _ h)⟩⟩
  · rintro ⟨hf, ha⟩
    exact ⟨⟨fun m h => (hf m h).1, fun m h => (ha m h).1⟩,
      fun m h => (List.mem_append.1 h).elim (fun h => (hf m h).2) fun h => (ha m h).2⟩

theorem Placed.rooted {t : Tree} (h : Placed o t) (n : Node) : Placed o ⟨n, t.flow, t.attached⟩ := by
  have hm := placed_iff.1 h
  exact placed_iff.2 hm

theorem placed_retouched {l : Link} {t u : Tree} (h : Retouched t u) (ht : t.Positioned o l ∧ Placed o t) :
    u.Positioned o l ∧ Placed o u := by
  obtain ⟨n, hn, rfl⟩ := h
  exact ⟨ht.1.unmoved (Touches.unmoved hn), ht.2.rooted n⟩

/-- The children of an owner stay placed when it is finished, and so is a spacer. -/
theorem placed_laid {owner : Box} {ts us : List Tree} (h : Laid owner ts us)
    (ht : ∀ t ∈ ts, t.Positioned o .flow ∧ Placed o t) : ∀ u ∈ us, u.Positioned o .flow ∧ Placed o u := by
  refine h.forall (fun t u => placed_retouched) (fun axis before after s _ _ hs => ?_) ht
  obtain ⟨-, index, n, hn, rfl⟩ := hs
  have hn := Touches.unmoved hn
  refine ⟨positioned_leaf ((grounded_spacerNode _ _ _ _ _).unmoved hn) ?_ [], placed_iff.2 ⟨by simp, by simp⟩⟩
  rw [hn.chrome]
  cases axis <;> rfl

/-- What a node is resolved to stays chrome or no chrome, and is placed accordingly. -/
structure Outcome (o : Options) (n : Node) (u : Tree) : Prop where
  chrome : u.node.roles.isChrome = n.roles.isChrome
  root : ∀ l, (l = .attached ↔ n.roles.isChrome = true) → u.Positioned o l
  below : Placed o u

/-- Grounded nodes are resolved to trees in which all is placed. -/
def Placing (o : Options) : Settlement := fun t n u => t.Standing (Posed o) → n.Grounded o → Outcome o n u

theorem Outcome.flow {n : Node} {u : Tree} (h : Outcome o n u) (hc : n.roles.isChrome = false) :
    u.Positioned o .flow ∧ Placed o u := ⟨h.root _ (by simp [hc]), h.below⟩

theorem placed_seat {n : Node} {t r : Tree} (h : Seat (Placing o) o n t r) (ht : Seated (Posed o) .flow t) :
    r.Positioned o .flow ∧ Placed o r := by
  have hg := ht.node.grounded
  have hc := ht.node.chrome rfl
  cases h with
  | bare hn h =>
    have hn := hn.unmoved
    exact (h ht.below (hg.unmoved hn)).flow (hn.chrome.trans hc)
  | wrapped ho hn index box hn' h hw hl =>
    have hn := hn.unmoved.trans hn'.unmoved
    have hw := Touches.unmoved hw
    have hr := (h ht.below (hg.unmoved hn)).flow (hn.chrome.trans hc)
    refine ⟨positioned_leaf ((grounded_overflowWrapper _ _ _).unmoved hw) (hw.chrome.trans rfl) _, ?_⟩
    exact placed_iff.2 ⟨placed_laid hl (List.forall_mem_singleton.2 hr), by simp⟩

theorem placed_pinning {owner : Box} {t r : Tree} (h : Pinning (Placing o) owner t r)
    (ht : Seated (Posed o) .attached t) : r.node.roles.isChrome = t.node.roles.isChrome ∧
      r.Positioned o .attached ∧ Placed o r := by
  have hg := ht.node.grounded
  cases h with
  | chrome hc h =>
    have hr := h ht.below hg
    exact ⟨hr.chrome, hr.root _ (by simp [hc]), hr.below⟩
  | @pinned r hc h =>
    have hn := Touches.unmoved (touches_pinPrepared owner t.node)
    have hr := h ht.below (hg.unmoved hn)
    have hrc : r.node.roles.isChrome = false := hr.chrome.trans (hn.chrome.trans hc)
    exact ⟨hrc.trans hc.symm, positioned_pinned (hr.flow (hn.chrome.trans hc)).1 hrc owner, hr.below.rooted _⟩

theorem placing_resolve (o : Options) (t : Tree) (n : Node) (j : Journal) : Placing o t n (resolve o n t j).1 := by
  refine settle_induction o (fun {t n fs n' us rs} hf hn _ hl ha ht hg => ?_) t n j
  have hn := Touches.unmoved hn
  have hflow : ∀ u ∈ us, u.Positioned o .flow ∧ Placed o u := by
    refine placed_laid hl fun r hr => ?_
    obtain ⟨m, hm, hs⟩ := exists_of_mem_right hf hr
    exact placed_seat hs (ht.flow m hm)
  have hattached : ∀ r ∈ rs, ∃ m ∈ t.attached, r.node.roles.isChrome = m.node.roles.isChrome ∧
      r.Positioned o .attached ∧ Placed o r := by
    intro r hr
    obtain ⟨m, hm, hs⟩ := exists_of_mem_right ha hr
    exact ⟨m, hm, placed_pinning hs (ht.attached m hm)⟩
  have hhosts : (t.attached.any fun a => !a.node.roles.isChrome) = true ↔
      Hosts ⟨containing n' t.attached, us, rs⟩ := by
    simp only [List.any_eq_true, Bool.not_eq_true', Hosts]
    constructor
    · rintro ⟨m, hm, hc⟩
      obtain ⟨r, hr, hs⟩ := exists_of_mem_right ha.flip hm
      exact ⟨r, hr, (placed_pinning hs (ht.attached m hm)).1.trans hc⟩
    · rintro ⟨r, hr, hc⟩
      obtain ⟨m, hm, he, -⟩ := hattached r hr
      exact ⟨m, hm, he.symm.trans hc⟩
  have hchrome : (containing n' t.attached).roles.isChrome = n.roles.isChrome := by
    rw [← hn.chrome]
    unfold containing
    split <;> rfl
  refine ⟨hchrome, fun l hl => positioned_containing (hg.unmoved hn) (by rw [hn.chrome]; exact hl) hhosts, ?_⟩
  refine placed_iff.2 ⟨hflow, fun r hr => ?_⟩
  obtain ⟨-, -, -, hr⟩ := hattached r hr
  exact hr

end Resolve

namespace Recovery

variable (o : Options) (d : Document)

theorem outcome_resolved : Resolve.Outcome o (regrouped o d).1.node (resolved o d).1 := by
  obtain ⟨hs, hn⟩ := posed_regrouped o d
  exact Resolve.placing_resolve o _ _ _ hs hn.grounded

/-- The page and all flow children have at most one position. What is attached is fixed if it is chrome, and else
absolute. It is relative besides whenever it owns something that is placed on it, and otherwise at most if it got a
stacking number before it left the flow. -/
theorem positioned_throughout :
    ((resolved o d).1.node.SinglyPlaced ∧ (resolved o d).1.Positioned o .flow) ∧
    ∀ s ∈ (resolved o d).1.subtrees,
      (∀ m ∈ s.flow, m.node.SinglyPlaced ∧ m.Positioned o .flow) ∧
      ∀ m ∈ s.attached, (m.node.SinglyPlaced ↔ "relative" ∉ m.node.classes.toList) ∧ m.Positioned o .attached := by
  have h := outcome_resolved o d
  have hroot := h.flow ((posed_regrouped o d).2.chrome rfl)
  refine ⟨⟨hroot.1.singlyPlaced_flow, hroot.1⟩, fun s hs => ?_⟩
  obtain ⟨hf, ha⟩ := hroot.2 s hs
  exact ⟨fun m hm => ⟨(hf m hm).singlyPlaced_flow, hf m hm⟩, fun m hm => ⟨(ha m hm).singlyPlaced_attached, ha m hm⟩⟩

/-- A badge on a card that is taken out of the flow itself. -/
def badgeOnCard : Document :=
  ⟨400, 400, plainLayer "page" .artboard 0 0 400 400
    [plainLayer "a" .group 10 10 100 100 [plainLayer "b" .shape 20 20 40 40 []]]⟩

theorem relative_absolute_card : ¬∀ r, ofDocument { detached := ["a", "b"] } badgeOnCard = .ok r →
    ∀ n ∈ r.tree.nodes, n.SinglyPlaced := by
  have h : ((ofDocument { detached := ["a", "b"] } badgeOnCard).toOption.any
      fun r => r.tree.nodes.any fun n => !decide n.SinglyPlaced) = true := by decide +kernel
  intro hall
  cases hr : ofDocument { detached := ["a", "b"] } badgeOnCard with
  | error f =>
    rw [hr] at h
    cases h
  | ok r =>
    rw [hr] at h
    obtain ⟨n, hn, hnot⟩ := List.any_eq_true.1 h
    exact absurd (hall r hr n hn) (by simpa using hnot)

end Recovery

end FlexRecovery
