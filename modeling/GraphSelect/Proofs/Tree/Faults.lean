import GraphSelect.Proofs.Tree.Encoding

/-!
# What is wrong with a value that is no tree

A value is read as a tree if it is an object and every value that is reached from it through objects is a truth value or
an object. Otherwise there is a first one that is neither, depth first (`Json.FirstFault`), and reading fails with the
keys that lead to it and its kind (`readMembers_cases`). There is one first fault (`FirstFault.unique`), so reading
fails in no other way. What stands behind a fault is not looked at (`exists_error_of_agreesToFault`), and neither are
the items of an array (`readMembers_withoutItems`).

The path of a fault can be kept on the way (`walkJson`): there is one path, to which the key of a member is added before
its value is read, and from which it is taken after that. Wherever a reader comes, its path is that of the place, so the
same is read and the same is reported (`run_walkMembers`).
-/

namespace GraphSelect

namespace Json

/-! ## Faults inside a value -/

/-- A value that is neither a truth value nor an object. -/
def IsFault (value : Json) : Prop := value.kind ≠ .bool ∧ value.kind ≠ .object

/-- A value that is reached from another through objects only, and the keys that lead to it. -/
inductive Reaches : Json → List String → Json → Prop
  | member {members : List (String × Json)} {key : String} {value : Json} : (key, value) ∈ members →
      Reaches (.object members) [key] value
  | inside {members : List (String × Json)} {key : String} {path : List String} {inner value : Json} :
      (key, inner) ∈ members → Reaches inner path value → Reaches (.object members) (key :: path) value

/-- No value that is reached through objects is a fault. -/
def IsSound (value : Json) : Prop := ∀ path inner, value.Reaches path inner → ¬ inner.IsFault

/-- The first fault that is reached from a value through objects, depth first in the order of the members: no member in
front of the one that it stands in is a fault or has one inside. -/
inductive FirstFault : Json → List String → Json → Prop
  | here {key : String} {value : Json} {rest : List (String × Json)} : value.IsFault →
      FirstFault (.object ((key, value) :: rest)) [key] value
  | inside {key : String} {inner value : Json} {path : List String} {rest : List (String × Json)} :
      FirstFault inner path value → FirstFault (.object ((key, inner) :: rest)) (key :: path) value
  | later {key : String} {inner value : Json} {path : List String} {rest : List (String × Json)} :
      ¬ inner.IsFault → inner.IsSound → FirstFault (.object rest) path value →
      FirstFault (.object ((key, inner) :: rest)) path value

/-- Two values with the same members, depth first, up to a fault that they have in common. -/
inductive AgreesToFault : Json → Json → Prop
  | here {key : String} {value : Json} {rest rest' : List (String × Json)} : value.IsFault →
      AgreesToFault (.object ((key, value) :: rest)) (.object ((key, value) :: rest'))
  | inside {key : String} {inner inner' : Json} {rest rest' : List (String × Json)} : AgreesToFault inner inner' →
      AgreesToFault (.object ((key, inner) :: rest)) (.object ((key, inner') :: rest'))
  | later {key : String} {value : Json} {rest rest' : List (String × Json)} :
      AgreesToFault (.object rest) (.object rest') →
      AgreesToFault (.object ((key, value) :: rest)) (.object ((key, value) :: rest'))

mutual

/-- The value with no items in the arrays that are reached through objects. -/
def withoutItems : Json → Json
  | .array _ => .array []
  | .object members => .object (membersWithoutItems members)
  | value => value

/-- The members with no items in the arrays that are reached through objects. -/
def membersWithoutItems : List (String × Json) → List (String × Json)
  | [] => []
  | (key, value) :: members => (key, value.withoutItems) :: membersWithoutItems members

end

/-! ## Laws -/

theorem reaches_cons {key : String} {value inner : Json} {members : List (String × Json)} {path : List String} :
    (object ((key, value) :: members)).Reaches path inner ↔
      (path = [key] ∧ inner = value) ∨ (∃ rest, path = key :: rest ∧ value.Reaches rest inner) ∨
        (object members).Reaches path inner := by
  constructor
  · intro h
    cases h with
    | member hm =>
      rcases List.mem_cons.mp hm with he | hm
      · cases he
        exact .inl ⟨rfl, rfl⟩
      · exact .inr (.inr (.member hm))
    | inside hm h =>
      rcases List.mem_cons.mp hm with he | hm
      · cases he
        exact .inr (.inl ⟨_, rfl, h⟩)
      · exact .inr (.inr (.inside hm h))
  · rintro (⟨rfl, rfl⟩ | ⟨rest, rfl, h⟩ | h)
    · exact .member List.mem_cons_self
    · exact .inside List.mem_cons_self h
    · cases h with
      | member hm => exact .member (List.mem_cons_of_mem _ hm)
      | inside hm h => exact .inside (List.mem_cons_of_mem _ hm) h

theorem isSound_nil : (object []).IsSound := by
  intro path inner h
  cases h with
  | member hm => cases hm
  | inside hm _ => cases hm

theorem isSound_cons {key : String} {value : Json} {members : List (String × Json)} :
    (object ((key, value) :: members)).IsSound ↔ ¬ value.IsFault ∧ value.IsSound ∧ (object members).IsSound := by
  constructor
  · intro h
    exact ⟨h _ _ (reaches_cons.mpr (.inl ⟨rfl, rfl⟩)),
      fun _ _ hr => h _ _ (reaches_cons.mpr (.inr (.inl ⟨_, rfl, hr⟩))),
      fun _ _ hr => h _ _ (reaches_cons.mpr (.inr (.inr hr)))⟩
  · rintro ⟨hvalue, hinner, hrest⟩ path inner h
    rcases reaches_cons.mp h with ⟨_, rfl⟩ | ⟨rest, _, h⟩ | h
    · exact hvalue
    · exact hinner _ _ h
    · exact hrest _ _ h

/-- What is no fault is a truth value or an object. -/
theorem cases_of_not_isFault {value : Json} (h : ¬ value.IsFault) :
    (∃ b, value = .bool b) ∨ ∃ members, value = .object members := by
  cases value with
  | bool b => exact .inl ⟨b, rfl⟩
  | object members => exact .inr ⟨members, rfl⟩
  | null => exact absurd ⟨nofun, nofun⟩ h
  | number _ => exact absurd ⟨nofun, nofun⟩ h
  | string _ => exact absurd ⟨nofun, nofun⟩ h
  | array _ => exact absurd ⟨nofun, nofun⟩ h

/-- Inside a truth value nothing is reached. -/
theorem isSound_bool (b : Bool) : (bool b).IsSound := fun _ _ h => nomatch h

/-- The first fault is a fault that is reached. -/
theorem FirstFault.reaches {value fault : Json} {path : List String} (h : value.FirstFault path fault) :
    value.Reaches path fault ∧ fault.IsFault := by
  induction h with
  | here hfault => exact ⟨reaches_cons.mpr (.inl ⟨rfl, rfl⟩), hfault⟩
  | inside _ ih => exact ⟨reaches_cons.mpr (.inr (.inl ⟨_, rfl, ih.1⟩)), ih.2⟩
  | later _ _ _ ih => exact ⟨reaches_cons.mpr (.inr (.inr ih.1)), ih.2⟩

/-- What has a fault inside is an object, so no fault itself. -/
theorem FirstFault.kind_eq_object {value fault : Json} {path : List String} (h : value.FirstFault path fault) :
    value.kind = .object := by
  cases h <;> rfl

theorem FirstFault.not_isFault {value fault : Json} {path : List String} (h : value.FirstFault path fault) :
    ¬ value.IsFault :=
  fun hfault => hfault.2 h.kind_eq_object

theorem FirstFault.not_isSound {value fault : Json} {path : List String} (h : value.FirstFault path fault) :
    ¬ value.IsSound :=
  fun hsound => hsound _ _ h.reaches.1 h.reaches.2

/-- There is one first fault. -/
theorem FirstFault.unique {value fault : Json} {path : List String} (h : value.FirstFault path fault) :
    ∀ {path' fault'}, value.FirstFault path' fault' → path' = path ∧ fault' = fault := by
  induction h with
  | here hfault =>
    intro path' fault' h'
    cases h' with
    | here _ => exact ⟨rfl, rfl⟩
    | inside h' => exact absurd hfault h'.not_isFault
    | later hno _ _ => exact absurd hfault hno
  | inside h ih =>
    intro path' fault' h'
    cases h' with
    | here hfault => exact absurd hfault h.not_isFault
    | inside h' =>
      obtain ⟨rfl, rfl⟩ := ih h'
      exact ⟨rfl, rfl⟩
    | later _ hsound _ => exact absurd hsound h.not_isSound
  | later hno hsound _ ih =>
    intro path' fault' h'
    cases h' with
    | here hfault => exact absurd hfault hno
    | inside h' => exact absurd hsound h'.not_isSound
    | later _ _ h' => exact ih h'

end Json

/-- A fault as it is reported behind a path. -/
def ShapeFault.behind (path : List String) : ShapeFault → ShapeFault
  | .notASelection rest found => .notASelection (path ++ rest) found
  | fault => fault

namespace Tree

open Json

/-! ## Reading -/

/-- A fault is reported with its key and its kind. -/
theorem readSelection_of_isFault (key : String) {value : Json} (h : value.IsFault) :
    readSelection key value = .error (.notASelection [key] value.kind) := by
  cases value with
  | bool _ => exact absurd rfl h.1
  | object _ => exact absurd rfl h.2
  | null => rfl
  | number _ => rfl
  | string _ => rfl
  | array _ => rfl

/-- A truth value or an object is read as a selection if it is sound, and if it is not, then the first fault in it is
reported behind its key, provided that this is so for the members of the object. -/
theorem readSelection_cases (key : String) {value : Json} (hvalue : ¬ value.IsFault)
    (hinner : ∀ inner, value = .object inner → ((object inner).IsSound ∧ ∃ t, readMembers inner = .ok t) ∨
      ∃ path fault, (object inner).FirstFault path fault ∧
        readMembers inner = .error (.notASelection path fault.kind)) :
    (value.IsSound ∧ ∃ sel, readSelection key value = .ok sel) ∨
      ∃ path fault, value.FirstFault path fault ∧
        readSelection key value = .error (.notASelection (key :: path) fault.kind) := by
  rcases cases_of_not_isFault hvalue with ⟨b, rfl⟩ | ⟨inner, rfl⟩
  · exact .inl ⟨isSound_bool b, _, rfl⟩
  · rw [readSelection]
    rcases hinner inner rfl with ⟨hsound, body, hread⟩ | ⟨path, fault, hfirst, hread⟩
    · exact .inl ⟨hsound, _, by rw [hread]⟩
    · exact .inr ⟨path, fault, hfirst, by rw [hread]⟩

/-- Members are read as a tree if they are sound, and if they are not, then the first fault is reported. -/
theorem readMembers_cases (members : List (String × Json)) :
    ((object members).IsSound ∧ ∃ t, readMembers members = .ok t) ∨
      ∃ path fault, (object members).FirstFault path fault ∧
        readMembers members = .error (.notASelection path fault.kind) := by
  induction members using membersInduction with
  | nil => exact .inl ⟨isSound_nil, _, rfl⟩
  | cons key value members hinner ih =>
    rw [readMembers]
    by_cases hvalue : value.IsFault
    · exact .inr ⟨[key], value, .here hvalue, by rw [readSelection_of_isFault key hvalue]⟩
    · rcases readSelection_cases key hvalue hinner with ⟨hsound, sel, hread⟩ | ⟨path, fault, hfirst, hread⟩
      · rcases ih with ⟨hrest, t, ht⟩ | ⟨path, fault, hfirst, herror⟩
        · exact .inl ⟨isSound_cons.mpr ⟨hvalue, hsound, hrest⟩, _, by rw [hread, ht]⟩
        · exact .inr ⟨path, fault, .later hvalue hsound hfirst, by rw [hread, herror]⟩
      · exact .inr ⟨_, fault, .inside hfirst, by rw [hread]⟩

/-- A value is read as a tree if it is a sound object; if it is an object with a fault, then the first one is
reported, and if it is none, then its kind is. -/
theorem ofJson_cases (value : Json) :
    (value.kind ≠ .object ∧ ofJson value = .error (.notAnObject value.kind)) ∨
    (value.kind = .object ∧ value.IsSound ∧ ∃ t, ofJson value = .ok t) ∨
      (value.kind = .object ∧ ∃ path fault, value.FirstFault path fault ∧
        ofJson value = .error (.notASelection path fault.kind)) := by
  cases value with
  | object members =>
    rcases readMembers_cases members with h | h
    · exact .inr (.inl ⟨rfl, h⟩)
    · exact .inr (.inr ⟨rfl, h⟩)
  | null => exact .inl ⟨nofun, rfl⟩
  | bool _ => exact .inl ⟨nofun, rfl⟩
  | number _ => exact .inl ⟨nofun, rfl⟩
  | string _ => exact .inl ⟨nofun, rfl⟩
  | array _ => exact .inl ⟨nofun, rfl⟩

/-! ## What is not looked at -/

/-- The items of arrays are not looked at. -/
theorem readMembers_withoutItems (members : List (String × Json)) :
    readMembers (membersWithoutItems members) = readMembers members := by
  induction members using membersInduction with
  | nil => rfl
  | cons key value members hinner ih =>
    have hvalue : readSelection key value.withoutItems = readSelection key value := by
      cases value with
      | object inner => rw [withoutItems, readSelection, hinner inner rfl, readSelection]
      | null => rfl
      | bool _ => rfl
      | number _ => rfl
      | string _ => rfl
      | array _ => rfl
    rw [membersWithoutItems, readMembers, hvalue, ih, readMembers]

theorem ofJson_withoutItems (value : Json) : ofJson value.withoutItems = ofJson value := by
  cases value with
  | object members => exact readMembers_withoutItems members
  | null => rfl
  | bool _ => rfl
  | number _ => rfl
  | string _ => rfl
  | array _ => rfl

/-- Whatever stands behind a fault, the same is reported. -/
theorem exists_error_of_agreesToFault {value value' : Json} (h : value.AgreesToFault value') :
    ∃ fault, ofJson value = .error fault ∧ ofJson value' = .error fault := by
  induction h with
  | @here key value rest rest' hvalue =>
    have hread : ∀ members, ofJson (.object ((key, value) :: members)) =
        .error (.notASelection [key] value.kind) := by
      intro members
      rw [ofJson, readMembers, readSelection_of_isFault key hvalue]
    exact ⟨_, hread rest, hread rest'⟩
  | @inside key inner inner' rest rest' hinner ih =>
    obtain ⟨fault, hread, hread'⟩ := ih
    have hobject : ∃ members members', inner = .object members ∧ inner' = .object members' := by
      cases hinner <;> exact ⟨_, _, rfl, rfl⟩
    obtain ⟨members, members', rfl, rfl⟩ := hobject
    rw [ofJson] at hread hread'
    rw [ofJson, ofJson, readMembers, readMembers, readSelection, readSelection, hread, hread']
    cases fault <;> exact ⟨_, rfl, rfl⟩
  | @later key value rest rest' _ ih =>
    obtain ⟨fault, hread, hread'⟩ := ih
    rw [ofJson] at hread hread'
    rw [ofJson, ofJson, readMembers, readMembers, hread, hread']
    cases readSelection key value <;> exact ⟨_, rfl, rfl⟩

/-! ## Reading with one path -/

mutual

/-- Reads members with one path: the key of a member is added to it before the value is read, and taken from it after
that. -/
def walkMembers : List (String × Json) → StateT (List String) (Except ShapeFault) Tree
  | [] => pure .empty
  | (key, value) :: members => do
    modify (· ++ [key])
    let selection ← walkSelection value
    modify List.dropLast
    let rest ← walkMembers members
    pure (cons key selection rest)

/-- Reads the value at the end of the path. A fault is reported with the whole path. -/
def walkSelection : Json → StateT (List String) (Except ShapeFault) Selection
  | .bool selected => pure (.leaf selected)
  | .object members => do
    let body ← walkMembers members
    pure (.branch (roleOf body) body)
  | value => do throw (.notASelection (← get) value.kind)

end

/-- The tree that a value stands for, read with one path, which is empty at first. -/
def walkJson : Json → Except ShapeFault Tree
  | .object members => ((walkMembers members).run []).map Prod.fst
  | value => .error (.notAnObject value.kind)

/-- A value is read at the end of a path as it is under its key, if that is so for the members inside. -/
theorem run_walkSelection (key : String) {value : Json} (path : List String)
    (hinner : ∀ inner, value = .object inner → ∀ path, (walkMembers inner).run path =
      match readMembers inner with
      | .ok t => .ok (t, path)
      | .error fault => .error (fault.behind path)) :
    (walkSelection value).run (path ++ [key]) =
      match readSelection key value with
      | .ok sel => .ok (sel, path ++ [key])
      | .error fault => .error (fault.behind path) := by
  by_cases hvalue : value.IsFault
  · rw [readSelection_of_isFault key hvalue]
    cases value with
    | bool _ => exact absurd rfl hvalue.1
    | object _ => exact absurd rfl hvalue.2
    | null => rfl
    | number _ => rfl
    | string _ => rfl
    | array _ => rfl
  · rcases cases_of_not_isFault hvalue with ⟨b, rfl⟩ | ⟨inner, rfl⟩
    · rfl
    · rw [walkSelection, readSelection, StateT.run_bind, hinner inner rfl]
      cases readMembers inner with
      | ok body => rfl
      | error fault =>
        cases fault with
        | notAnObject found => rfl
        | notASelection rest found => simp [ShapeFault.behind, bind, Except.bind]

/-- Reading members leaves the path as it was, and a fault is reported behind it. -/
theorem run_walkMembers (members : List (String × Json)) (path : List String) :
    (walkMembers members).run path =
      match readMembers members with
      | .ok t => .ok (t, path)
      | .error fault => .error (fault.behind path) := by
  induction members using membersInduction generalizing path with
  | nil => rfl
  | cons key value members hinner ih =>
    have hvalue := run_walkSelection key path fun inner he path => hinner inner he path
    rw [walkMembers, readMembers]
    simp only [StateT.run_bind, StateT.run_modify, pure_bind, hvalue]
    cases readSelection key value with
    | error fault => rfl
    | ok sel =>
      -- The key is taken from the path before the other members are read.
      have hpath : (path ++ [key]).dropLast = path := List.dropLast_concat
      simp only [bind, Except.bind, hpath, ih path]
      cases readMembers members <;> rfl

theorem walkJson_eq_ofJson (value : Json) : walkJson value = ofJson value := by
  cases value with
  | object members =>
    rw [walkJson, run_walkMembers, ofJson]
    cases readMembers members with
    | ok t => rfl
    | error fault => cases fault <;> rfl
  | null => rfl
  | bool _ => rfl
  | number _ => rfl
  | string _ => rfl
  | array _ => rfl

/-! ## Reports -/

theorem joinPath_eq_intercalate : ∀ path : List String, joinPath path = ".".intercalate path
  | [] => rfl
  | [key] => by simp [joinPath, Text.join]
  | key :: next :: path => by
    have hrest := joinPath_eq_intercalate (next :: path)
    rw [joinPath, List.map_cons] at hrest
    rw [String.intercalate_cons_cons, ← hrest, joinPath, List.map_cons, List.map_cons, Text.join]
    · apply String.toList_injective
      simp
    · simp

theorem message_notASelection (path : List String) (found : Json.Kind) :
    (ShapeFault.notASelection path found).message =
      "selection at `" ++ ".".intercalate path ++ "` must be a boolean or an object, found " ++ found.phrase := by
  rw [← joinPath_eq_intercalate]
  rfl

/-- Why a value is not read as a tree. It is no object, and then its kind is reported; or it is an object in which some
value that is reached through objects is neither a truth value nor an object. Of these the first is reported, depth
first in the order of the members: the keys that lead to it, with points between them in the text, and its kind. The
items of arrays are not looked at, and neither is anything behind a value that is neither. A reader with one path, to
which keys are added and from which they are taken, reads the same tree or reports the same. -/
theorem ofJson_faults (value : Json) :
    (∀ found, ofJson value = .error (.notAnObject found) ↔ value.kind ≠ .object ∧ found = value.kind) ∧
    ((∃ path found, ofJson value = .error (.notASelection path found)) ↔
      value.kind = .object ∧ ∃ path fault, value.Reaches path fault ∧ fault.IsFault) ∧
    (∀ path found, ofJson value = .error (.notASelection path found) ↔
      ∃ fault, value.FirstFault path fault ∧ found = fault.kind) ∧
    (∀ path found, (ShapeFault.notASelection path found).message =
      "selection at `" ++ ".".intercalate path ++ "` must be a boolean or an object, found " ++ found.phrase) ∧
    (∀ value', value'.withoutItems = value.withoutItems → ofJson value' = ofJson value) ∧
    (∀ value', value.AgreesToFault value' → ofJson value' = ofJson value) ∧
    walkJson value = ofJson value := by
  refine ⟨fun found => ?_, ?_, fun path found => ?_, fun path found => ?_, fun value' h => ?_, fun value' h => ?_,
    walkJson_eq_ofJson value⟩
  · rcases ofJson_cases value with ⟨hkind, hread⟩ | ⟨hkind, _, t, hread⟩ | ⟨hkind, path, fault, _, hread⟩
    · simp [hread, hkind, eq_comm]
    · simp [hread, hkind]
    · simp [hread, hkind]
  · rcases ofJson_cases value with ⟨hkind, hread⟩ | ⟨hkind, hsound, t, hread⟩ | ⟨hkind, path, fault, hfirst, hread⟩
    · simp [hread, hkind]
    · simpa [hread, hkind, Json.IsSound] using hsound
    · simpa [hread, hkind] using ⟨path, fault, hfirst.reaches⟩
  · rcases ofJson_cases value with ⟨hkind, hread⟩ | ⟨_, hsound, t, hread⟩ | ⟨_, path', fault, hfirst, hread⟩
    · have hno : ∀ fault, ¬ value.FirstFault path fault := fun fault hfirst => hkind hfirst.kind_eq_object
      simp [hread, hno]
    · have hno : ∀ fault, ¬ value.FirstFault path fault := fun fault hfirst => hfirst.not_isSound hsound
      simp [hread, hno]
    · rw [hread]
      constructor
      · intro he
        cases he
        exact ⟨fault, hfirst, rfl⟩
      · rintro ⟨fault', hfirst', rfl⟩
        obtain ⟨rfl, rfl⟩ := hfirst.unique hfirst'
        rfl
  · exact message_notASelection path found
  · rw [← ofJson_withoutItems value', h, ofJson_withoutItems]
  · obtain ⟨fault, hread, hread'⟩ := exists_error_of_agreesToFault h
    rw [hread, hread']

/-- A list under `friends.id`, with a sound member in front of it: both keys are reported, and not the one in front,
whatever the items of the list are and whatever stands behind it. -/
theorem ofJson_faults_friends : ∃ value value' value'' fault : Json,
    value.FirstFault ["friends", "id"] fault ∧ fault = .array [.null, .bool true] ∧
    ofJson value = .error (.notASelection ["friends", "id"] .array) ∧
    (ShapeFault.notASelection ["friends", "id"] .array).message =
      "selection at `friends.id` must be a boolean or an object, found an array" ∧
    value' ≠ value ∧ value'.withoutItems = value.withoutItems ∧ ofJson value' = ofJson value ∧
    value'' ≠ value ∧ value.AgreesToFault value'' ∧ ofJson value'' = ofJson value ∧
    walkJson value = .error (.notASelection ["friends", "id"] .array) ∧
    ofJson fault = .error (.notAnObject .array) := by
  let user : Json := .object [("id", .bool true)]
  let friends (items : List Json) (behind : List (String × Json)) : Json :=
    .object (("name", .bool false) :: ("id", .array items) :: behind)
  let value (items : List Json) (behind : List (String × Json)) : Json :=
    .object [("user", user), ("friends", friends items behind)]
  have hfault : (Json.array [.null, .bool true]).IsFault := ⟨nofun, nofun⟩
  have huser : user.IsSound := isSound_cons.mpr ⟨fun h => h.1 rfl, isSound_bool true, isSound_nil⟩
  have hfirst : (value [.null, .bool true] [("x", .null)]).FirstFault ["friends", "id"] _ :=
    .later (fun h => h.2 rfl) huser (.inside (.later (fun h => h.1 rfl) (isSound_bool false) (.here hfault)))
  have hagrees : (value [.null, .bool true] [("x", .null)]).AgreesToFault (value [.null, .bool true] []) :=
    .later (.inside (.later (.here hfault)))
  obtain ⟨-, -, hread, hmessage, hitems, hbehind, hwalk⟩ := ofJson_faults (value [.null, .bool true] [("x", .null)])
  obtain ⟨hobject, -⟩ := ofJson_faults (.array [.null, .bool true])
  have hreport := (hread _ _).mpr ⟨_, hfirst, rfl⟩
  exact ⟨_, value [] [("x", .null)], _, _, hfirst, rfl, hreport, (hmessage _ _).trans (by decide),
    by simp [value, friends], rfl, hitems _ rfl, by simp [value, friends], hagrees, hbehind _ hagrees,
    hwalk.trans hreport, (hobject _).mpr ⟨nofun, rfl⟩⟩

end Tree

end GraphSelect
