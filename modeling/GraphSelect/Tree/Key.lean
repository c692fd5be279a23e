/-!
# Keys of a selection tree

An entry of a selection tree is found under a key: the name of a field, `__typename`, or `on_T` for the part of the
selection that applies to objects of type `T` only.
-/

namespace GraphSelect.Key

/-- The key that asks for the name of an object's type. -/
def typename : String := "__typename"

/-- The characters that a branch key starts with. -/
def branchMark : List Char := ['o', 'n', '_']

/-- The key of the branch for objects of a type. -/
def ofType (type : String) : String := String.ofList (branchMark ++ type.toList)

/-- The type that a branch key names, if the key is one: the mark and at least one more character. -/
def type? (key : String) : Option String :=
  match key.toList with
  | 'o' :: 'n' :: '_' :: c :: rest => some (String.ofList (c :: rest))
  | _ => none

/-- Whether a key is that of a branch. -/
def isBranch (key : String) : Bool := (type? key).isSome

theorem type?_ofType {type : String} (h : type ≠ "") : type? (ofType type) = some type := by
  cases ht : type.toList with
  | nil => exact absurd (String.toList_eq_nil_iff.mp ht) h
  | cons c rest =>
    have : type = String.ofList (c :: rest) := by rw [← ht, String.ofList_toList]
    simp [type?, ofType, branchMark, this]

/-- A branch key is the key of the type it names. -/
theorem ofType_of_type? {key type : String} (h : type? key = some type) : key = ofType type := by
  unfold type? at h
  split at h
  · rename_i c rest hk
    obtain rfl := Option.some.inj h
    have : key = String.ofList ('o' :: 'n' :: '_' :: c :: rest) := by rw [← hk, String.ofList_toList]
    simp [this, ofType, branchMark]
  · simp at h

theorem ofType_injective {s t : String} (h : ofType s = ofType t) : s = t := by
  have := congrArg String.toList h
  simp only [ofType, String.toList_ofList, List.append_cancel_left_eq] at this
  exact String.toList_injective this

/-- No branch key asks for the name of the type. -/
theorem ofType_ne_typename (type : String) : ofType type ≠ typename := by
  intro h
  have := congrArg String.toList h
  simp [ofType, branchMark, typename] at this

end GraphSelect.Key
