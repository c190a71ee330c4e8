import FlexRecovery.Json

/-!
Reading records out of JSON values. A record is written as an object or as the array of its fields in
order; a field has a default or is required, and `null` stands only for a value that may be absent.
-/

namespace FlexRecovery.Json

/-- The fields of that record, in order, those that are missing as none. Members of other names are
passed over, but no field may be given twice. -/
def record? (names : List String) (depth : Nat) : Json → Option (List (Option Json))
  | object members =>
    if depth < deepest && members.all (·.1.isSome)
        && names.all (fun n => (members.filter (·.1 == some n)).length ≤ 1) then
      some (names.map fun n => members.lookup (some n))
    else none
  | array items =>
    if depth < deepest && items.length ≤ names.length then
      some (items.map some ++ List.replicate (names.length - items.length) none)
    else none
  | _ => none

/-- A field that may be missing, in which case it has the given value. -/
def field (fallback : α) (read : Json → Option α) : Option Json → Option α
  | none => some fallback
  | some j => read j

/-- A field that may be missing or `null`. -/
def optional (read : Json → Option α) : Option Json → Option (Option α)
  | none | some null => some none
  | some j => (read j).map some

def items? (read : Nat → Json → Option α) (depth : Nat) : Json → Option (List α)
  | array items => if depth < deepest then items.mapM (read (depth + 1)) else none
  | _ => none

/-- A plain name, written as a string or as an object with that one name, which holds `null`. -/
def name? (depth : Nat) : Json → Option String
  | text s => s
  | object [(k, null)] => if depth < deepest then k else none
  | _ => none

def single? : Json → Option Float32
  | number l => l.toSingle?
  | _ => none

end FlexRecovery.Json
