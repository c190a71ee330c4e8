import FlexRecovery.Proofs.Nodes
import Mathlib.Data.Multiset.Filter
import Mathlib.Data.Multiset.Range
import Mathlib.Logic.Relation

/-!
A ledger of nodes: those that are live, those that have been removed, and how many have been created. Each
change of a layout tree is a run of four steps on it, so whatever a step keeps is kept by a recovery.
-/

namespace FlexRecovery

structure Ledger where
  live : Multiset Node
  gone : Multiset Node
  created : Nat

namespace Ledger

open Node

/-- A node changes, folds into a container that has its box, leaves its members to its owner, or is made. -/
inductive Step (R : Node → Node → Prop) : Ledger → Ledger → Prop where
  | change {n n' : Node} (h : R n n') (l g k) : Step R ⟨n ::ₘ l, g, k⟩ ⟨n' ::ₘ l, g, k⟩
  | fold {lower upper : Node} (hl : lower.isContent = false) (hu : upper.isContent = false)
      (hb : lower.box.same upper.box = true) (l g k) :
      Step R ⟨lower ::ₘ upper ::ₘ l, g, k⟩ ⟨lower.absorb upper ::ₘ l, upper ::ₘ g, k⟩
  | lift {n : Node} (h : n.IsIdle) (l g k) : Step R ⟨n ::ₘ l, g, k⟩ ⟨l, n ::ₘ g, k⟩
  | make {n : Node} {k : Nat} (h : n.Made k) (l g) : Step R ⟨l, g, k⟩ ⟨n ::ₘ l, g, k + 1⟩

abbrev Steps (R : Node → Node → Prop) : Ledger → Ledger → Prop := Relation.ReflTransGen (Step R)

variable {R S : Node → Node → Prop} {a b : Ledger}

/-- Nodes that take no part in a step stay where they are. -/
theorem Step.frame (h : Step R a b) (x y : Multiset Node) :
    Step R ⟨a.live + x, a.gone + y, a.created⟩ ⟨b.live + x, b.gone + y, b.created⟩ := by
  cases h with
  | change h l g k =>
    simp only [Multiset.cons_add]
    exact .change h _ _ _
  | fold hl hu hb l g k =>
    simp only [Multiset.cons_add]
    exact .fold hl hu hb _ _ _
  | lift h l g k =>
    simp only [Multiset.cons_add]
    exact .lift h _ _ _
  | make h l g =>
    simp only [Multiset.cons_add]
    exact .make h _ _

theorem Steps.frame (h : Steps R a b) (x y : Multiset Node) :
    Steps R ⟨a.live + x, a.gone + y, a.created⟩ ⟨b.live + x, b.gone + y, b.created⟩ := by
  induction h with
  | refl => exact .refl
  | tail _ hs ih => exact ih.tail (hs.frame x y)

theorem Step.mono (hrs : ∀ n n', R n n' → S n n') (h : Step R a b) : Step S a b := by
  cases h with
  | change h l g k => exact .change (hrs _ _ h) l g k
  | fold hl hu hb l g k => exact .fold hl hu hb l g k
  | lift h l g k => exact .lift h l g k
  | make h l g => exact .make h l g

theorem Steps.mono (hrs : ∀ n n', R n n' → S n n') (h : Steps R a b) : Steps S a b := by
  induction h with
  | refl => exact .refl
  | tail _ hs ih => exact ih.tail (hs.mono hrs)

theorem Steps.later (h : Steps Kept a b) : Steps Later a b := Steps.mono (fun _ _ h => h.1) h

/-- All indices that were ever given to a node of the ledger. -/
def tally (a : Ledger) : Multiset Nat := (a.live + a.gone).bind fun n => n.indices

theorem tally_mk (l g : Multiset Node) (k : Nat) :
    tally ⟨l, g, k⟩ = (l.bind fun n => (n.indices : Multiset Nat)) + g.bind fun n => (n.indices : Multiset Nat) :=
  Multiset.add_bind _ _ _

/-- Indices are given out in turn, and none is lost or given twice. -/
theorem Step.tally (hr : ∀ n n', R n n' → Later n n') (h : Step R a b) :
    b.tally + Multiset.range a.created = a.tally + Multiset.range b.created := by
  cases h with
  | change h l g k => simp only [tally_mk, Multiset.cons_bind, (hr _ _ h).indices]
  | @fold lower upper hl hu hb l g k =>
    have hi : (lower.absorb upper).indices = lower.indices :=
      indices_congr (index_absorb _ _) (text_absorb _ _)
    simp only [tally_mk, Multiset.cons_bind, hi]
    abel
  | lift h l g k =>
    simp only [tally_mk, Multiset.cons_bind]
    abel
  | @make n k h l g =>
    have hi : (n.indices : Multiset Nat) = {k} := by rw [indices_of_no_text h.text, h.index]; rfl
    simp only [tally_mk, Multiset.cons_bind, hi, Multiset.range_succ]
    rw [← Multiset.singleton_add k]
    abel

/-- Each index that was given out belongs to one node, live or gone. -/
def Balanced (a : Ledger) : Prop := a.tally = Multiset.range a.created

theorem Step.balanced (hr : ∀ n n', R n n' → Later n n') (h : Step R a b) (ha : a.Balanced) : b.Balanced := by
  have ht := h.tally hr
  rw [show a.tally = Multiset.range a.created from ha, add_comm] at ht
  exact add_left_cancel ht

theorem Steps.balanced (hr : ∀ n n', R n n' → Later n n') (h : Steps R a b) (ha : a.Balanced) : b.Balanced := by
  induction h with
  | refl => exact ha
  | tail _ hs ih => exact hs.balanced hr ih

theorem Balanced.nodup (h : a.Balanced) : ((a.live + a.gone).map Node.index).Nodup := by
  have ht : a.tally.Nodup := by
    rw [show a.tally = Multiset.range a.created from h]
    exact Multiset.nodup_range _
  refine Multiset.nodup_of_le ?_ ht
  unfold tally
  induction a.live + a.gone using Multiset.induction_on with
  | empty => exact le_rfl
  | cons n l ih =>
    rw [Multiset.map_cons, Multiset.cons_bind, ← Multiset.singleton_add]
    exact add_le_add (Multiset.singleton_le.2 n.index_mem_indices) ih

theorem Step.created_le (h : Step R a b) : a.created ≤ b.created := by
  cases h <;> simp

theorem Steps.created_le (h : Steps R a b) : a.created ≤ b.created := by
  induction h with
  | refl => exact le_rfl
  | tail _ hs ih => exact ih.trans hs.created_le

/-- Nothing but an idle container leaves the tree, and a container in whose box another node is left. -/
structure Dropped (all : Multiset Node) (n : Node) : Prop where
  content : n.isContent = false
  reason : n.IsIdle ∨ ∃ m ∈ all, m.index ≠ n.index ∧ m.box.same n.box = true

theorem Dropped.mono {x y : Multiset Node} {n : Node} (h : Dropped x n)
    (hxy : ∀ m ∈ x, ∃ m' ∈ y, m'.index = m.index ∧ m'.box = m.box) : Dropped y n := by
  refine ⟨h.content, h.reason.imp_right ?_⟩
  rintro ⟨m, hm, hi, hb⟩
  obtain ⟨m', hm', hi', hb'⟩ := hxy m hm
  exact ⟨m', hm', hi' ▸ hi, hb' ▸ hb⟩

/-- Where nodes keep their boxes, each node of the ledger is found in it afterwards. -/
theorem Step.remains (hr : ∀ n n', R n n' → Kept n n') (h : Step R a b) :
    ∀ m ∈ a.live + a.gone, ∃ m' ∈ b.live + b.gone, m'.index = m.index ∧ m'.box = m.box := by
  cases h with
  | @change n n' h l g k =>
    have hn := hr _ _ h
    intro m hm
    rcases Multiset.mem_add.1 hm with hm | hm
    · rcases Multiset.mem_cons.1 hm with rfl | hm
      · exact ⟨n', by simp, hn.1.index, hn.2⟩
      · exact ⟨m, by simp [hm], rfl, rfl⟩
    · exact ⟨m, by simp [hm], rfl, rfl⟩
  | @fold lower upper hl hu hb l g k =>
    intro m hm
    simp only [Multiset.mem_add, Multiset.mem_cons] at hm
    rcases hm with (rfl | rfl | hm) | hm
    · exact ⟨m.absorb upper, by simp, index_absorb _ _, box_absorb _ _⟩
    · exact ⟨m, by simp, rfl, rfl⟩
    · exact ⟨m, by simp [hm], rfl, rfl⟩
    · exact ⟨m, by simp [hm], rfl, rfl⟩
  | lift h l g k => exact fun m hm => ⟨m, by simpa [or_assoc, or_left_comm] using hm, rfl, rfl⟩
  | make h l g => exact fun m hm => ⟨m, by simp only [Multiset.mem_add, Multiset.mem_cons] at hm ⊢; tauto, rfl, rfl⟩

theorem Step.dropped (hr : ∀ n n', R n n' → Kept n n') (h : Step R a b) (ha : a.Balanced)
    (hd : ∀ n ∈ a.gone, Dropped (a.live + a.gone) n) : ∀ n ∈ b.gone, Dropped (b.live + b.gone) n := by
  have hm := h.remains hr
  intro n hn
  cases h with
  | change h l g k => exact (hd n hn).mono hm
  | @fold lower upper hl hu hb l g k =>
    rcases Multiset.mem_cons.1 hn with rfl | hn
    · have hnd := ha.nodup
      refine ⟨hu, .inr ⟨lower.absorb n, by simp, ?_, (box_absorb lower n).symm ▸ hb⟩⟩
      intro he
      rw [index_absorb] at he
      simp [he] at hnd
    · exact (hd n hn).mono hm
  | lift h l g k =>
    rcases Multiset.mem_cons.1 hn with rfl | hn
    · exact ⟨h.content, .inl h⟩
    · exact (hd n hn).mono hm
  | make h l g => exact (hd n hn).mono hm

theorem Steps.dropped (hr : ∀ n n', R n n' → Kept n n') (h : Steps R a b) (ha : a.Balanced)
    (hd : ∀ n ∈ a.gone, Dropped (a.live + a.gone) n) : ∀ n ∈ b.gone, Dropped (b.live + b.gone) n := by
  induction h with
  | refl => exact hd
  | tail h hs ih => exact hs.dropped hr (Steps.balanced (fun _ _ h => (hr _ _ h).1) h ha) ih

/-- How many nodes have an index below the bound. -/
def older (k : Nat) (l : Multiset Node) : Nat := l.countP fun n => n.index < k

@[simp] theorem older_cons (k : Nat) (n : Node) (l : Multiset Node) :
    older k (n ::ₘ l) = older k l + if n.index < k then 1 else 0 := Multiset.countP_cons _ _ _

@[simp] theorem older_add (k : Nat) (l m : Multiset Node) : older k (l + m) = older k l + older k m :=
  Multiset.countP_add _ _ _

/-- No step makes a node that is older than the ledger. -/
theorem Step.older_le (hr : ∀ n n', R n n' → Later n n') (h : Step R a b) {k : Nat} (hk : k ≤ a.created) :
    older k b.live ≤ older k a.live := by
  cases h with
  | change h l g c => simp [(hr _ _ h).index]
  | fold hl hu hb l g c => simp [index_absorb]
  | lift h l g c => simp
  | make h l g =>
    simp only [h.index, older_cons] at hk ⊢
    split <;> omega

theorem Steps.older_le (hr : ∀ n n', R n n' → Later n n') (h : Steps R a b) {k : Nat} (hk : k ≤ a.created) :
    older k b.live ≤ older k a.live := by
  induction h with
  | refl => exact le_rfl
  | tail h hs ih => exact (hs.older_le hr (hk.trans (Steps.created_le h))).trans ih

/-- The layers that live nodes stand for. -/
def layers (l : Multiset Node) : Multiset DesignId := l.filterMap Node.id

/-- The live texts. -/
def texts (l : Multiset Node) : Multiset Node := l.filter fun n => n.isText = true

theorem texts_cons_text {n : Node} (h : n.isText = true) (l : Multiset Node) : texts (n ::ₘ l) = n ::ₘ texts l :=
  Multiset.filter_cons_of_pos _ h

theorem texts_cons_other {n : Node} (h : n.isText = false) (l : Multiset Node) : texts (n ::ₘ l) = texts l :=
  Multiset.filter_cons_of_neg _ (by simp [h])

/-- Each text goes through a step as one text. -/
theorem Step.texts (hr : ∀ n n', R n n' → Later n n') (h : Step R a b) :
    Multiset.Rel Later (texts a.live) (texts b.live) := by
  have refl (l : Multiset Node) : Multiset.Rel Later l l := Multiset.rel_refl_of_refl_on fun n _ => Later.refl n
  cases h with
  | @change n n' h l g k =>
    have h := hr _ _ h
    cases ht : n.isText with
    | true =>
      rw [texts_cons_text ht, texts_cons_text (h.isText.trans ht)]
      exact (refl _).cons h
    | false =>
      rw [texts_cons_other ht, texts_cons_other (h.isText.trans ht)]
      exact refl _
  | @fold lower upper hl hu hb l g k =>
    have hl' := isText_of_not_content hl
    rw [texts_cons_other hl', texts_cons_other (isText_of_not_content hu),
      texts_cons_other ((isText_absorb _ _).trans hl')]
    exact refl _
  | @lift n h l g k =>
    rw [texts_cons_other (isText_of_not_content h.content)]
    exact refl _
  | @make n k h l g =>
    rw [texts_cons_other (by simp [Node.isText, h.tag])]
    exact refl _

theorem Steps.texts (hr : ∀ n n', R n n' → Later n n') (h : Steps R a b) :
    Multiset.Rel Later (texts a.live) (texts b.live) := by
  induction h with
  | refl => exact Multiset.rel_refl_of_refl_on fun n _ => Later.refl n
  | tail _ hs ih => exact ih.trans _ (hs.texts hr)

/-- A container never becomes an image. -/
theorem Step.images (hr : ∀ n n', R n n' → Later n n') (h : Step R a b) :
    ∀ n ∈ b.live, n.isImage = true → ∃ m ∈ a.live, m.isImage = true := by
  cases h with
  | @change m m' h l g k =>
    intro n hn hi
    rcases Multiset.mem_cons.1 hn with rfl | hn
    · refine ⟨m, by simp, ?_⟩
      rw [isImage, beq_iff_eq] at hi ⊢
      rcases (hr _ _ h).tag with ht | ⟨ht, -⟩
      · rw [← ht, hi]
      · exact ht
    · exact ⟨n, by simp [hn], hi⟩
  | @fold lower upper hl hu hb l g k =>
    intro n hn hi
    rcases Multiset.mem_cons.1 hn with rfl | hn
    · refine ⟨lower, by simp, ?_⟩
      rw [isImage, tag_absorb] at hi
      exact hi
    · exact ⟨n, by simp [hn], hi⟩
  | lift h l g k => exact fun n hn hi => ⟨n, by simp [hn], hi⟩
  | @make m k h l g =>
    intro n hn hi
    rcases Multiset.mem_cons.1 hn with rfl | hn
    · simp [isImage, h.tag] at hi
    · exact ⟨n, hn, hi⟩

theorem Steps.images (hr : ∀ n n', R n n' → Later n n') (h : Steps R a b) :
    ∀ n ∈ b.live, n.isImage = true → ∃ m ∈ a.live, m.isImage = true := by
  induction h with
  | refl => exact fun n hn hi => ⟨n, hn, hi⟩
  | tail _ hs ih =>
    intro n hn hi
    obtain ⟨m, hm, hi⟩ := hs.images hr n hn hi
    exact ih m hm hi

end Ledger

open Ledger

/-- What some nodes have become, and which of them were dropped on the way. -/
def Sheds (R : Node → Node → Prop) (l : Multiset Node) (k : Nat) (g l' : Multiset Node) (k' : Nat) : Prop :=
  Steps R ⟨l, 0, k⟩ ⟨l', g, k'⟩

namespace Sheds

variable {R : Node → Node → Prop} {l l' m m' x g g' : Multiset Node} {k k' k'' : Nat}

theorem refl (l : Multiset Node) (k : Nat) : Sheds R l k 0 l k := Relation.ReflTransGen.refl

theorem trans (h : Sheds R l k g m k') (h' : Sheds R m k' g' x k'') : Sheds R l k (g + g') x k'' := by
  have hf := Steps.frame h' 0 g
  simp only [add_zero, zero_add] at hf
  rw [add_comm g g']
  exact Relation.ReflTransGen.trans h hf

/-- Nothing was dropped at first. -/
theorem head (h : Sheds R l k 0 m k') (h' : Sheds R m k' g x k'') : Sheds R l k g x k'' := by
  have ht := h.trans h'
  rw [zero_add] at ht
  exact ht

theorem frame (h : Sheds R l k g l' k') (x : Multiset Node) : Sheds R (l + x) k g (l' + x) k' := by
  have hf := Steps.frame h x 0
  simp only [add_zero] at hf
  exact hf

theorem add (h : Sheds R l k g l' k') (h' : Sheds R m k' g' m' k'') : Sheds R (l + m) k (g + g') (l' + m') k'' := by
  have hf := h'.frame l'
  rw [add_comm m, add_comm m'] at hf
  exact (h.frame m).trans hf

/-- A node that stays over others that change. -/
theorem below (h : Sheds R l k g l' k') (n : Node) : Sheds R (n ::ₘ l) k g (n ::ₘ l') k' := by
  have hf := h.frame {n}
  rw [add_comm, Multiset.singleton_add, add_comm, Multiset.singleton_add] at hf
  exact hf

theorem change {n n' : Node} (h : R n n') (l : Multiset Node) (k : Nat) : Sheds R (n ::ₘ l) k 0 (n' ::ₘ l) k :=
  .single (.change h l 0 k)

theorem fold {lower upper : Node} (hl : lower.isContent = false) (hu : upper.isContent = false)
    (hb : lower.box.same upper.box = true) (l : Multiset Node) (k : Nat) :
    Sheds R (lower ::ₘ upper ::ₘ l) k {upper} (lower.absorb upper ::ₘ l) k :=
  .single (.fold hl hu hb l 0 k)

theorem lift {n : Node} (h : n.IsIdle) (l : Multiset Node) (k : Nat) : Sheds R (n ::ₘ l) k {n} l k :=
  .single (.lift h l 0 k)

theorem make {n : Node} (h : n.Made k) (l : Multiset Node) : Sheds R l k 0 (n ::ₘ l) (k + 1) :=
  .single (.make h l 0)

end Sheds

/-- What some nodes have become, whatever was dropped on the way. -/
def Turns (R : Node → Node → Prop) (l : Multiset Node) (k : Nat) (l' : Multiset Node) (k' : Nat) : Prop :=
  ∃ g, Sheds R l k g l' k'

namespace Turns

variable {R : Node → Node → Prop} {l l' m m' x : Multiset Node} {k k' k'' : Nat}

theorem refl (l : Multiset Node) (k : Nat) : Turns R l k l k := ⟨0, .refl l k⟩

theorem trans (h : Turns R l k m k') (h' : Turns R m k' x k'') : Turns R l k x k'' := by
  obtain ⟨g, hs⟩ := h
  obtain ⟨g', hs'⟩ := h'
  exact ⟨g + g', hs.trans hs'⟩

theorem add (h : Turns R l k l' k') (h' : Turns R m k' m' k'') : Turns R (l + m) k (l' + m') k'' := by
  obtain ⟨g, hs⟩ := h
  obtain ⟨g', hs'⟩ := h'
  exact ⟨g + g', hs.add hs'⟩

theorem below (h : Turns R l k l' k') (n : Node) : Turns R (n ::ₘ l) k (n ::ₘ l') k' := by
  obtain ⟨g, hs⟩ := h
  exact ⟨g, hs.below n⟩

theorem change {n n' : Node} (h : R n n') (l : Multiset Node) (k : Nat) : Turns R (n ::ₘ l) k (n' ::ₘ l) k :=
  ⟨0, .change h l k⟩

theorem lift {n : Node} (h : n.IsIdle) (l : Multiset Node) (k : Nat) : Turns R (n ::ₘ l) k l k := ⟨{n}, .lift h l k⟩

theorem created_le (h : Turns R l k l' k') : k ≤ k' := by
  obtain ⟨g, hs⟩ := h
  exact Steps.created_le hs

theorem older_le (hr : ∀ n n', R n n' → n.Later n') (h : Turns R l k l' k') {b : Nat} (hb : b ≤ k) :
    older b l' ≤ older b l := by
  obtain ⟨g, hs⟩ := h
  exact Steps.older_le hr hs hb

end Turns

end FlexRecovery
