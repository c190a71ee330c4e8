/-! Inline style: property values, sorted by property. -/

namespace FlexRecovery

/-- Each property once, in the order of its code points. -/
structure Style where
  entries : List (String × String) := []
  deriving DecidableEq, Repr, Inhabited

namespace Style

def put (key value : String) : List (String × String) → List (String × String)
  | [] => [(key, value)]
  | (k, v) :: rest =>
    if key < k then (key, value) :: (k, v) :: rest
    else if key = k then (key, value) :: rest
    else (k, v) :: put key value rest

/-- A property that is there already gets the new value. -/
def set (s : Style) (key value : String) : Style := ⟨put key value s.entries⟩

def erase (s : Style) (key : String) : Style := ⟨s.entries.filter (·.1 != key)⟩

def has (s : Style) (key : String) : Bool := s.entries.any (·.1 == key)

/-- The values of `other` replace those that are there. -/
def merge (s other : Style) : Style := other.entries.foldl (fun s (k, v) => s.set k v) s

def isEmpty (s : Style) : Bool := s.entries.isEmpty

end Style

end FlexRecovery
