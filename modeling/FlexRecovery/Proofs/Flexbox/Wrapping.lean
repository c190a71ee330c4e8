import FlexRecovery.Proofs.Flexbox.Line
import FlexRecovery.Tuning

/-!
A flexbox that wraps: each line is packed from the start edge on, and so are the lines, each as high as the highest of
its items. Nothing but the two gaps keeps the items where a design has them.
-/

namespace FlexRecovery.Flexbox

/-- The leading edges of lengths that are packed from a position on, that far apart. -/
def pack (space : Int) : Int → List Int → List Int
  | _, [] => []
  | x, e :: es => x :: pack space (x + e + space) es

/-- That is how items without margins are placed where no space is free. -/
theorem place_eq_pack (space x : Int) (es : List Int) :
    place space x (es.map fun e => ⟨0, e, 0⟩) = (pack space x es).map Int.cast := by
  induction es generalizing x with
  | nil => rfl
  | cons e es ih =>
    rw [List.map_cons, place, pack, List.map_cons, ← ih]
    simp [Item.length]

variable {boxes : List Box} {first b : Box} {k : Nat}

/-- Packed lengths are off by what the first one starts off and by what the gaps before them are off. -/
theorem exists_pack (axis : Axis) (space x : Int) (hfirst : boxes[0]? = some first) (hb : boxes[k]? = some b) :
    ∃ y, (pack space x (boxes.map fun c => (c.extent axis : Int)))[k]? = some y ∧
      |y - b.start axis| ≤
        |x - first.start axis| + (((Box.gaps axis boxes).take k).map fun g => |g - space|).sum := by
  induction boxes generalizing x k first with
  | nil => cases hb
  | cons a boxes ih =>
    obtain rfl := Option.some.inj hfirst
    match k, boxes with
    | 0, _ =>
      obtain rfl := Option.some.inj hb
      exact ⟨x, rfl, by simp⟩
    | k + 1, c :: boxes =>
      obtain ⟨y, hy, hle⟩ := ih (x + a.extent axis + space) rfl hb
      refine ⟨y, hy, hle.trans ?_⟩
      have hoff : x + a.extent axis + space - c.start axis =
          (x - a.start axis) - (c.start axis - a.stop axis - space) := by
        rw [Box.stop_eq]
        ring
      rw [hoff, Box.gaps, List.take_succ_cons, List.map_cons, List.sum_cons, ← add_assoc]
      exact add_le_add_left (abs_sub _ _) _

/-- The height of a line. -/
def tallest (row : List Box) : Nat := (row.map Box.height).foldr max 0

/-- The left edges of the items of a line. -/
def lefts (across : Int) (origin : Box) (row : List Box) : List Int :=
  pack across origin.left (row.map fun b => (b.extent .row : Int))

/-- The top edges of the lines. -/
def tops (along : Int) (origin : Box) (rows : List (List Box)) : List Int :=
  pack along origin.top (rows.map fun row => (tallest row : Int))

/-- Each item lies where the design has it, up to the tolerance for each item before it in its line, and for each line
above it. -/
def Reproduces (across along : Int) (origin : Box) (rows : List (List Box)) : Prop :=
  ∀ (l c : Nat) (row : List Box) (b : Box), rows[l]? = some row → row[c]? = some b →
    ∃ x y, (lefts across origin row)[c]? = some x ∧ (tops along origin rows)[l]? = some y ∧
      |x - b.left| ≤ c * Tuning.tolerance ∧ |y - b.top| ≤ l * Tuning.tolerance

end FlexRecovery.Flexbox
