import FlexRecovery.Outline
import FlexRecovery.Output
import FlexRecovery.Proofs.Census
import FlexRecovery.Proofs.Preorder

/-!
What is emitted against the walk of a store. The elements of the output and the lines of the outline come in the order
in which the walk lists the nodes: each shows its node, with as many members, and as deep as it lies.
-/

namespace FlexRecovery

open Tree

/-! ### Lists side by side -/

theorem forall₂_mem {α β : Type} {R : α → β → Prop} {as : List α} {bs : List β} (h : List.Forall₂ R as bs) :
    List.Forall₂ (fun a b => a ∈ as ∧ R a b) as bs :=
  (List.forall₂_and_left ..).2 ⟨fun _ => id, h⟩

theorem join_append (as bs : List String) : String.join (as ++ bs) = String.join as ++ String.join bs := by
  induction as with
  | nil => simp
  | cons a as ih => simp [ih, String.append_assoc]

/-! ### Flattened output -/

namespace Output

mutual

/-- An element and all below it: first itself, then those of its children, then those of what is attached to it. -/
def elements : Output → List Output
  | ⟨tag, id, classes, style, roles, text, source, children, attached⟩ =>
    ⟨tag, id, classes, style, roles, text, source, children, attached⟩ ::
      (elementsAll children ++ elementsAll attached)

def elementsAll : List Output → List Output
  | [] => []
  | o :: os => elements o ++ elementsAll os

end

/-- Without its members. -/
def alone (o : Output) : Output := { o with children := [], attached := [] }

theorem elementsAll_eq (os : List Output) : elementsAll os = os.flatMap elements := by
  induction os with
  | nil => rfl
  | cons o os ih => rw [elementsAll, ih, List.flatMap_cons]

theorem elements_eq (o : Output) :
    o.elements = o :: (o.children.flatMap elements ++ o.attached.flatMap elements) := by
  cases o
  rw [elements, elementsAll_eq, elementsAll_eq]

theorem ofTrees_eq (ts : List Tree) : ofTrees ts = ts.map ofTree := by
  induction ts with
  | nil => rfl
  | cons t ts ih => rw [ofTrees, ih, List.map_cons]

theorem ofTree_eq (t : Tree) :
    ofTree t = { ofNode t.node with children := t.flow.map ofTree, attached := t.attached.map ofTree } := by
  cases t
  rw [ofTree, ofTrees_eq, ofTrees_eq]

theorem alone_ofNode (n : Node) : (ofNode n).alone = ofNode n := by
  cases n with
  | mk _ _ _ _ _ _ _ _ _ _ _ text _ _ _ => rcases text with _ | _ | _ <;> rfl

theorem alone_ofTree (t : Tree) : (ofTree t).alone = ofNode t.node := by
  rw [ofTree_eq, ← alone_ofNode]
  rfl

/-- Each tree below gives its element. -/
theorem elements_ofTree (t : Tree) : (ofTree t).elements = t.subtrees.map ofTree := by
  induction t using induction_members with
  | _ t ih =>
    have lists (ts : List Tree) (below : ∀ u ∈ ts, u ∈ t.members) :
        (ts.map ofTree).flatMap elements = (ts.flatMap subtrees).map ofTree := by
      rw [List.flatMap_map, List.map_flatMap]
      exact List.flatMap_congr fun u hu => ih u (below u hu)
    rw [elements_eq, subtrees_eq, List.map_cons, List.map_append, ← lists _ fun _ => List.mem_append_left _,
      ← lists _ fun _ => List.mem_append_right _, ofTree_eq]

end Output

/-! ### Trees in a store -/

namespace Store

variable {s : Store} {k : Key} {t : Tree}

/-- The store holds that tree at the node: the same nodes with the same members in the same order. -/
inductive Holds (s : Store) : Key → Tree → Prop where
  | tree {k n flow attached} (node : s.get? k = some n) (hflow : List.Forall₂ (Holds s) (s.children k) flow)
      (hattached : List.Forall₂ (Holds s) (s.attached k) attached) : Holds s k ⟨n, flow, attached⟩

theorem holds_iff : s.Holds k t ↔ s.get? k = some t.node ∧ List.Forall₂ s.Holds (s.children k) t.flow ∧
    List.Forall₂ s.Holds (s.attached k) t.attached := by
  constructor
  · rintro ⟨node, flow, attached⟩
    exact ⟨node, flow, attached⟩
  · rintro ⟨node, flow, attached⟩
    cases t
    exact ⟨node, flow, attached⟩

/-- Below a live node without cycles lies a tree. -/
theorem Tidy.exists_holds (tidy : s.Tidy) (h : s.Acyclic) (alive : s.Alive k) : ∃ t, s.Holds k t := by
  induction k using h.induction with
  | step k ih =>
    have trees (ks : List Key) (owned : ∀ m ∈ ks, s.Owns k m) : ∃ ts, List.Forall₂ s.Holds ks ts := by
      induction ks with
      | nil => exact ⟨[], .nil⟩
      | cons m ks ihs =>
        obtain ⟨hm, hks⟩ := List.forall_mem_cons.1 owned
        obtain ⟨t, ht⟩ := ih m hm (tidy.alive_of_mem_preorder h alive ((mem_preorder h).2 (.single hm)))
        obtain ⟨ts, hts⟩ := ihs hks
        exact ⟨t :: ts, .cons ht hts⟩
    obtain ⟨n, node⟩ := Option.isSome_iff_exists.1 alive
    obtain ⟨flow, hflow⟩ := trees (s.children k) fun m hm => ⟨.flow, hm⟩
    obtain ⟨attached, hattached⟩ := trees (s.attached k) fun m hm => ⟨.attached, hm⟩
    exact ⟨⟨n, flow, attached⟩, node, hflow, hattached⟩

/-- And only one. -/
theorem Holds.unique {t' : Tree} (held : s.Holds k t) (held' : s.Holds k t') : t' = t := by
  induction t using induction_members generalizing k t' with
  | _ t ih =>
    have same {ks : List Key} {ts ts' : List Tree} (hts : List.Forall₂ s.Holds ks ts)
        (hts' : List.Forall₂ s.Holds ks ts') (below : ∀ u ∈ ts, u ∈ t.members) : ts' = ts := by
      induction hts generalizing ts' with
      | nil => exact List.forall₂_nil_left_iff.1 hts'
      | cons hu _ ihs =>
        obtain ⟨u', us', hu', hus', rfl⟩ := List.forall₂_cons_left_iff.1 hts'
        obtain ⟨hmem, below⟩ := List.forall_mem_cons.1 below
        rw [ih _ hmem hu hu', ihs hus' below]
    obtain ⟨node, flow, attached⟩ := holds_iff.1 held
    obtain ⟨node', flow', attached'⟩ := holds_iff.1 held'
    have hnode : t'.node = t.node := Option.some.inj (node'.symm.trans node)
    have hflow : t'.flow = t.flow := same flow flow' fun _ => List.mem_append_left _
    have hattached : t'.attached = t.attached := same attached attached' fun _ => List.mem_append_right _
    cases t
    cases t'
    exact congr (congr (congrArg Tree.mk hnode) hflow) hattached

/-- The list of a node lists its tree. -/
theorem Holds.preorder (h : s.Acyclic) (held : s.Holds k t) : List.Forall₂ s.Holds (s.preorder h k) t.subtrees := by
  induction k using h.induction generalizing t with
  | step k ih =>
    obtain ⟨-, flow, attached⟩ := holds_iff.1 held
    rw [preorder_eq, subtrees_eq, ← List.flatMap_append]
    exact .cons held (List.rel_flatMap (forall₂_mem (List.rel_append flow attached)) fun m u hm =>
      ih m (mem_owned.1 hm.1) hm.2)

/-! ### What is shown of a node -/

/-- An element shows its node, and has as many members of either kind. -/
def Shown (s : Store) (o : Output) (k : Key) : Prop :=
  (s.get? k).map Output.ofNode = some o.alone ∧ o.children.length = (s.children k).length ∧
    o.attached.length = (s.attached k).length

theorem Holds.shown (held : s.Holds k t) : s.Shown (Output.ofTree t) k := by
  obtain ⟨node, flow, attached⟩ := holds_iff.1 held
  refine ⟨?_, ?_, ?_⟩
  · rw [node, Output.alone_ofTree, Option.map_some]
  · rw [Output.ofTree_eq, List.length_map, flow.length_eq]
  · rw [Output.ofTree_eq, List.length_map, attached.length_eq]

/-- A node lies that many levels below another one. -/
inductive Under (s : Store) (k : Key) : Nat → Key → Prop where
  | self : Under s k 0 k
  | member {depth j m} (above : Under s k depth j) (owned : s.Owns j m) : Under s k (depth + 1) m

/-- Two spaces for each level, a mark on what is attached to its owner, and the node. -/
def Printed (s : Store) (k : Key) (line : String) (j : Key) : Prop :=
  ∃ depth n, s.Under k depth j ∧ s.get? j = some n ∧
    line = String.ofList (List.replicate (2 * depth) ' ') ++
      (if (s.owner? j).map Prod.snd = some .attached then "@" else "") ++ Outline.body n ++ "\n"

/-- A rendered tree is made of a line for each node, in the order of the list. -/
theorem Holds.printed (tidy : s.Tidy) (h : s.Acyclic) {j : Key} {depth : Nat} {isAttached : Bool}
    (held : s.Holds j t) (under : s.Under k depth j)
    (mark : isAttached = true ↔ (s.owner? j).map Prod.snd = some .attached) :
    ∃ lines, Outline.render depth isAttached t = String.join lines ∧
      List.Forall₂ (s.Printed k) lines (s.preorder h j) := by
  induction j using h.induction generalizing t depth isAttached with
  | step j ih =>
    have members (link : Link) (isAttached : Bool) (hlink : isAttached = true ↔ link = .attached) {ms : List Key}
        {ts : List Tree} (hts : List.Forall₂ s.Holds ms ts) (owned : ∀ m ∈ ms, m ∈ s.members j link) :
        ∃ lines, Outline.renderAll (depth + 1) isAttached ts = String.join lines ∧
          List.Forall₂ (s.Printed k) lines (ms.flatMap (s.preorder h)) := by
      induction hts with
      | nil => exact ⟨[], rfl, .nil⟩
      | cons hu _ ihs =>
        obtain ⟨hm, owned⟩ := List.forall_mem_cons.1 owned
        have marked := tidy.owner?_eq_some.2 hm
        obtain ⟨first, rendered, printed⟩ := ih _ ⟨link, hm⟩ hu (under.member ⟨link, hm⟩) (by rw [marked]; simpa)
        obtain ⟨rest, renderedRest, printedRest⟩ := ihs owned
        refine ⟨first ++ rest, ?_, List.rel_append printed printedRest⟩
        rw [Outline.renderAll, rendered, renderedRest, join_append]
    obtain ⟨n, flow, attached⟩ := t
    obtain ⟨node, hflow, hattached⟩ := holds_iff.1 held
    obtain ⟨below, renderedFlow, printedFlow⟩ :=
      members .flow false (by simp) hflow fun _ => id
    obtain ⟨beside, renderedAttached, printedAttached⟩ :=
      members .attached true (by simp) hattached fun _ => id
    refine ⟨Outline.line depth isAttached n :: (below ++ beside), ?_, ?_⟩
    · rw [Outline.render, renderedFlow, renderedAttached, String.join_cons, join_append, String.append_assoc]
    · rw [preorder_eq, List.flatMap_append]
      refine .cons ⟨depth, n, under, node, ?_⟩ (List.rel_append printedFlow printedAttached)
      rw [Outline.line, if_congr mark rfl rfl]

/-! ### What is emitted -/

/-- Nothing owns that node, and from there no way leads in a circle. -/
structure Rooted (s : Store) (k : Key) : Prop where
  tidy : s.Tidy
  acyclic : s.Acyclic
  alive : s.Alive k
  free : s.owner? k = none

/-- A store holds one tree at a root. What is emitted for that tree, flattened, shows the nodes of the walk in their
order, each with as many members as it has, and the outline is a line for each of them in that order. -/
theorem emitted_in_order (rooted : s.Rooted k) :
    ∃ t, (∀ u, s.Holds k u ↔ u = t) ∧ List.Forall₂ s.Shown (Output.ofTree t).elements (s.descendants k) ∧
      ∃ lines, Outline.ofTree t = String.join lines ∧ List.Forall₂ (s.Printed k) lines (s.descendants k) := by
  obtain ⟨tidy, acyclic, alive, free⟩ := rooted
  obtain ⟨t, held⟩ := tidy.exists_holds acyclic alive
  rw [descendants, tidy.walk_singleton acyclic alive le_rfl]
  refine ⟨t, fun u => ⟨held.unique, fun heq => heq ▸ held⟩, ?_, ?_⟩
  · rw [Output.elements_ofTree, List.forall₂_map_left_iff]
    exact (held.preorder acyclic).flip.imp fun u j hj => hj.shown
  · exact held.printed tidy acyclic .self (by simp [free])

/-- A child with a child and an attached node of its own, a second child and an attached node. -/
theorem emitted_in_order_nested :
    let s := (ofRoot default).run nested
    s.Rooted root ∧ s.descendants root = [0, 2, 1, 5, 4, 3] ∧ ∃ t, (∀ u, s.Holds root u ↔ u = t) ∧
      List.Forall₂ s.Shown (Output.ofTree t).elements [0, 2, 1, 5, 4, 3] ∧
      ∃ lines, Outline.ofTree t = String.join lines ∧ List.Forall₂ (s.Printed root) lines [0, 2, 1, 5, 4, 3] := by
  intro s
  have admitted : Admitted (ofRoot default) nested := ⟨rfl, rfl, rfl, rfl, rfl, ⟨rfl, rfl⟩, trivial⟩
  have rooted : s.Rooted root :=
    { tidy := ((tidy_ofRoot default).run admitted).1
      acyclic := acyclic_of_rank (fun k => [0, 2, 1, 1, 3, 3].getD k 0) (by decide)
      alive := rfl
      free := by decide }
  have listed : s.descendants root = [0, 2, 1, 5, 4, 3] := by decide
  obtain ⟨t, held, shown, printed⟩ := emitted_in_order rooted
  rw [listed] at shown printed
  exact ⟨rooted, listed, t, held, shown, printed⟩

end Store

end FlexRecovery
