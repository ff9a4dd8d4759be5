import ChurchScript.Number.Binary64

/-!
# JSON values
-/
namespace ChurchScript

inductive Json where
  | null
  | bool (value : Bool)
  | number (value : Binary64)
  | string (value : String)
  | array (items : List Json)
  | object (members : List (String × Json))
  deriving Repr

namespace Json

/-- The member of an object with a given name, the last one if there are several. -/
def get? (name : String) : Json → Option Json
  | object members => (members.reverse.find? (·.1 == name)).map Prod.snd
  | _ => none

def string? : Json → Option String
  | string value => some value
  | _ => none

theorem sizeOf_lt_of_get? {name : String} {node child : Json} (h : node.get? name = some child) :
    sizeOf child < sizeOf node := by
  unfold get? at h
  split at h
  next members =>
    obtain ⟨member, found, rfl⟩ := Option.map_eq_some_iff.1 h
    have inside := List.mem_reverse.1 (List.mem_of_find?_eq_some found)
    have below := List.sizeOf_lt_of_mem inside
    cases member
    simp only [Prod.mk.sizeOf_spec, object.sizeOf_spec] at below ⊢
    omega
  next => cases h

end Json
end ChurchScript
