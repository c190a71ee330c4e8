import FlexRecovery.Proofs.Flexbox.Declarations
import FlexRecovery.Proofs.Words

/-!
A box that is placed on another one. Its tokens say along each axis how far its edges are from those of its owner, how
large it is, and whether it is moved back by half of itself. Lengths are whole pixels; positions are rational, since a
center is.
-/

namespace FlexRecovery.Flexbox

/-- What one token says along an axis. -/
inductive Inset where
  /-- The leading edge is that far from the owner's. -/
  | start (v : Int)
  /-- The leading edge is at the owner's center. -/
  | middle
  /-- The trailing edge is that far from the owner's. -/
  | stop (v : Int)
  /-- The box is moved back by half of its extent. -/
  | back
  | extent (v : Nat)
  deriving DecidableEq, Repr

/-- A length in pixels; zero has no unit. -/
def length (v : Int) : String := if v = 0 then "0" else px v

namespace Inset

def stem : Axis → Inset → String
  | .row, start _ | .row, middle => "left-"
  | .row, stop _ => "right-"
  | .row, back => "-translate-x-"
  | .row, extent _ => "w-"
  | .column, start _ | .column, middle => "top-"
  | .column, stop _ => "bottom-"
  | .column, back => "-translate-y-"
  | .column, extent _ => "h-"

def value : Inset → String
  | start v | stop v => length v
  | middle | back => "1/2"
  | extent v => px v

def token (axis : Axis) (i : Inset) : String := i.stem axis ++ i.value

end Inset

/-- How the tokens begin that say something along an axis. -/
def insetStems : Axis → List String
  | .row => ["left-", "right-", "-translate-x-", "w-"]
  | .column => ["top-", "bottom-", "-translate-y-", "h-"]

section spans

variable (axis : Axis) (owner : Box) (tokens : List String) (a b : ℚ)

/-- How far a span is moved back. -/
def setback : ℚ := if Inset.back.token axis ∈ tokens then (b - a) / 2 else 0

/-- A span does what a token says. -/
def Inset.Holds (setback a b : ℚ) : Inset → Prop
  | start v => a + setback = owner.start axis + v
  | middle => a + setback = owner.start axis + owner.extent axis / 2
  | stop v => b + setback = owner.stop axis - v
  | back => True
  | extent v => b - a = v

/-- The tokens allow a box that span along the axis on its owner. If one of them cannot be read they allow none. -/
def Allows : Prop :=
  ∀ t ∈ tokens, Opens (insetStems axis) t →
    ∃ i : Inset, i.token axis = t ∧ i.Holds axis owner (setback axis tokens a b) a b

end spans

/-- The tokens put a box back where it was along an axis. A constrained one has both of its edges; a fixed one begins
within the tolerance of its place and has its extent; one that follows its content has the edge that is nearer to its
owner's. -/
def Restores (axis : Axis) (owner box : Box) (tokens : List String) : Option Sizing → Prop
  | some .constrained => ∀ a b, Allows axis owner tokens a b ↔ a = box.start axis ∧ b = box.stop axis
  | some .fixed => ∃ x : ℚ, |x - box.start axis| ≤ Tuning.tolerance ∧
      ∀ a b, Allows axis owner tokens a b ↔ a = x ∧ b = x + box.extent axis
  | some .auto =>
      (box.start axis - owner.start axis ≤ owner.stop axis - box.stop axis ∧
        ∀ a b, Allows axis owner tokens a b ↔ a = box.start axis) ∨
      (owner.stop axis - box.stop axis ≤ box.start axis - owner.start axis ∧
        ∀ a b, Allows axis owner tokens a b ↔ b = box.stop axis)
  | none => False

/-! ### Tokens can be told apart -/

theorem px_injective : Function.Injective px := fun _ _ h =>
  Int.repr_inj.1 ((String.append_right_inj _).1 ((String.append_left_inj _).1 h))

theorem px_ne {t : String} (ht : Bare t) (v : Int) : px v ≠ t := by
  rintro rfl
  simp [Bare, px, String.toList_append] at ht

theorem length_injective : Function.Injective length := by
  intro v w h
  unfold length at h
  split at h <;> split at h
  · omega
  · exact absurd h.symm (px_ne (by decide) w)
  · exact absurd h (px_ne (by decide) v)
  · exact px_injective h

theorem length_ne_half (v : Int) : length v ≠ "1/2" := by
  unfold length
  split
  · decide
  · exact px_ne (by decide) v

namespace Inset

theorem stem_mem (axis : Axis) (i : Inset) : i.stem axis ∈ insetStems axis := by
  cases axis <;> cases i <;> simp [stem, insetStems]

theorem beginsWith_token (axis : Axis) (i : Inset) : beginsWith (i.stem axis) (i.token axis) = true := by
  rw [beginsWith_iff, token, String.toList_append]
  exact List.prefix_append _ _

theorem opens_token (axis : Axis) (i : Inset) : Opens (insetStems axis) (i.token axis) :=
  ⟨i.stem axis, i.stem_mem axis, i.beginsWith_token axis⟩

theorem eq_of_stem {axis : Axis} {i j : Inset} (hs : i.stem axis = j.stem axis) (hv : i.value = j.value) : i = j := by
  have half (v : Int) : "1/2" ≠ length v := (length_ne_half v).symm
  cases axis <;> cases i <;> cases j <;>
    simp_all [stem, value, length_injective.eq_iff, px_injective.eq_iff, length_ne_half]

theorem token_injective (axis : Axis) : Function.Injective (token axis) := by
  intro i j h
  have apart : ∀ s ∈ insetStems axis, ∀ s' ∈ insetStems axis, beginsWith s s' = true → s = s' := by
    cases axis <;> decide
  have stems : i.stem axis = j.stem axis := by
    have hj := h ▸ j.beginsWith_token axis
    rcases beginsWith_or (i.beginsWith_token axis) hj with hb | hb
    · exact apart _ (i.stem_mem axis) _ (j.stem_mem axis) hb
    · exact (apart _ (j.stem_mem axis) _ (i.stem_mem axis) hb).symm
  rw [token, token, stems, String.append_right_inj] at h
  exact eq_of_stem stems h

end Inset

end FlexRecovery.Flexbox
