import GraphSelect.Tree.Key

/-!
# Selection trees

A selection tree says which fields of a type are selected. It is a sequence of keyed entries in a fixed order: a leaf
is selected or not, and a branch holds the tree of the type that its key leads to. `insert` and `erase` change one
entry and keep the order of the others.

A tree is a list of entries whose branches hold trees again, written as one inductive type (an entry and the entries
after it), so that every function on trees is structural recursion and every proof one induction. `Distinct` says that
no key occurs twice among the entries of any of its parts; every tree that the library builds has this property.
-/

namespace GraphSelect

/-- What a branch is for: the body of an object field, or one that may hold a part for each type of object. -/
inductive Role where
  | node
  | fragment
deriving DecidableEq, Repr, Inhabited

/-- A selection tree: its entries in order. -/
inductive Tree where
  | empty
  | leaf (key : String) (selected : Bool) (rest : Tree)
  | branch (key : String) (role : Role) (body : Tree) (rest : Tree)
deriving DecidableEq, Repr, Inhabited

/-- The value of one entry. -/
inductive Selection where
  | leaf (selected : Bool)
  | branch (role : Role) (body : Tree)
deriving DecidableEq, Repr, Inhabited

/-- The tree that a selection holds. -/
def Selection.body? : Selection → Option Tree
  | .leaf _ => none
  | .branch _ body => some body

/-- Whether a selection is a selected leaf. -/
def Selection.isSelectedLeaf : Selection → Bool
  | .leaf selected => selected
  | .branch _ _ => false

namespace Tree

/-- The tree with one entry before the entries of another. -/
def cons (key : String) : Selection → Tree → Tree
  | .leaf selected, rest => .leaf key selected rest
  | .branch role body, rest => .branch key role body rest

/-- The entries of a tree, in order. -/
def entries : Tree → List (String × Selection)
  | .empty => []
  | .leaf key selected rest => (key, .leaf selected) :: entries rest
  | .branch key role body rest => (key, .branch role body) :: entries rest

/-- The keys of a tree, in order. -/
def keys : Tree → List String
  | .empty => []
  | .leaf key _ rest => key :: keys rest
  | .branch key _ _ rest => key :: keys rest

/-- The number of entries of a tree. -/
def size : Tree → Nat
  | .empty => 0
  | .leaf _ _ rest => size rest + 1
  | .branch _ _ _ rest => size rest + 1

/-- Whether a tree has no entry. -/
def isEmpty : Tree → Bool
  | .empty => true
  | _ => false

/-- The number of trees along the longest chain of nested branches. -/
def depth : Tree → Nat
  | .empty => 1
  | .leaf _ _ rest => depth rest
  | .branch _ _ body rest => max (depth body + 1) (depth rest)

/-- Whether one of the tree's own keys is a branch key. -/
def hasBranchKey (t : Tree) : Bool := t.keys.any Key.isBranch

/-- No key occurs twice among the entries of the tree or of a tree inside it. -/
def Distinct : Tree → Prop
  | .empty => True
  | .leaf key _ rest => key ∉ rest.keys ∧ rest.Distinct
  | .branch key _ body rest => key ∉ rest.keys ∧ body.Distinct ∧ rest.Distinct

/-! ## Single entries -/

/-- The selection under a key. -/
def get? (key : String) : Tree → Option Selection
  | .empty => none
  | .leaf k selected rest => if k = key then some (.leaf selected) else get? key rest
  | .branch k role body rest => if k = key then some (.branch role body) else get? key rest

/-- The tree with a selection under a key: in the place of the key if the tree has it, at the end if not. -/
def insert (key : String) (selection : Selection) : Tree → Tree
  | .empty => cons key selection .empty
  | .leaf k selected rest =>
    if k = key then cons key selection rest else .leaf k selected (insert key selection rest)
  | .branch k role body rest =>
    if k = key then cons key selection rest else .branch k role body (insert key selection rest)

/-- The tree without the entry under a key. -/
def erase (key : String) : Tree → Tree
  | .empty => .empty
  | .leaf k selected rest => if k = key then rest else .leaf k selected (erase key rest)
  | .branch k role body rest => if k = key then rest else .branch k role body (erase key rest)

/-- The tree after inserting entries from left to right. -/
def insertAll (t : Tree) (entries : List (String × Selection)) : Tree :=
  entries.foldl (fun t (key, selection) => t.insert key selection) t

/-- The tree of some entries: of two with one key, the first gives the place and the last the selection. -/
def ofEntries (entries : List (String × Selection)) : Tree := empty.insertAll entries

/-! ## Comparison up to order -/

/-- Whether every entry of one tree is one of another, whatever the order at each level. -/
def within : Tree → Tree → Bool
  | .empty, _ => true
  | .leaf key selected rest, t => (t.get? key == some (.leaf selected)) && within rest t
  | .branch key role body rest, t =>
    (match t.get? key with
      | some (.branch role' body') => role == role' && body.size == body'.size && within body body'
      | _ => false) && within rest t

/-- Whether two trees have the same entries, whatever the order at each level. -/
def sameEntries (s t : Tree) : Bool := s.size == t.size && s.within t

/-! ## Laws -/

/-- What holds of the empty tree, and of a tree if it holds of the tree in its first entry and of the other entries,
holds of all trees. -/
theorem entryInduction {motive : Tree → Prop} (empty : motive .empty)
    (cons : ∀ key sel rest, (∀ body, sel.body? = some body → motive body) → motive rest →
      motive (Tree.cons key sel rest)) :
    ∀ t, motive t
  | .empty => empty
  | .leaf key selected rest => cons key (.leaf selected) rest (fun _ h => nomatch h) (entryInduction empty cons rest)
  | .branch key role body rest =>
    cons key (.branch role body) rest (fun _ h => Option.some.inj h ▸ entryInduction empty cons body)
      (entryInduction empty cons rest)

theorem isEmpty_iff {t : Tree} : t.isEmpty = true ↔ t = .empty := by
  cases t <;> simp [isEmpty]

@[simp] theorem isEmpty_cons (key : String) (s : Selection) (t : Tree) : (cons key s t).isEmpty = false := by
  cases s <;> rfl

@[simp] theorem entries_cons (key : String) (s : Selection) (t : Tree) :
    (cons key s t).entries = (key, s) :: t.entries := by
  cases s <;> rfl

@[simp] theorem keys_cons (key : String) (s : Selection) (t : Tree) : (cons key s t).keys = key :: t.keys := by
  cases s <;> rfl

theorem get?_cons (key k : String) (s : Selection) (t : Tree) :
    (cons key s t).get? k = if key = k then some s else t.get? k := by
  cases s <;> rfl

theorem insert_cons (key k : String) (s sel : Selection) (t : Tree) :
    (cons k sel t).insert key s = if k = key then cons key s t else cons k sel (t.insert key s) := by
  cases sel <;> rfl

theorem erase_cons (key k : String) (sel : Selection) (t : Tree) :
    (cons k sel t).erase key = if k = key then t else cons k sel (t.erase key) := by
  cases sel <;> rfl

theorem keys_eq_map_entries (t : Tree) : t.keys = t.entries.map Prod.fst := by
  induction t using entryInduction with
  | empty => rfl
  | cons key sel rest _ ih => rw [keys_cons, entries_cons, List.map_cons, ih]

/-- A look-up finds what was inserted last. -/
theorem get?_insert (key k : String) (s : Selection) (t : Tree) :
    (t.insert key s).get? k = if key = k then some s else t.get? k := by
  induction t using entryInduction with
  | empty => rw [insert, get?_cons]
  | cons k' sel rest _ ih =>
    rw [insert_cons, get?_cons]
    by_cases h : k' = key
    · subst h
      by_cases hk : k' = k <;> simp [get?_cons, hk]
    · rw [if_neg h, get?_cons, ih]
      by_cases hk : k' = k
      · subst hk
        simp [Ne.symm h]
      · rw [if_neg hk, if_neg hk]

/-- Inserting keeps the keys and their order, and puts a new key last. -/
theorem keys_insert (key : String) (s : Selection) (t : Tree) :
    (t.insert key s).keys = if key ∈ t.keys then t.keys else t.keys ++ [key] := by
  induction t using entryInduction with
  | empty => simp [insert, keys]
  | cons k sel rest _ ih =>
    rw [insert_cons]
    by_cases h : k = key
    · subst h
      simp
    · rw [if_neg h, keys_cons, keys_cons, ih]
      simp only [List.mem_cons, Ne.symm h, false_or]
      split <;> simp

theorem get?_eq_none_iff {key : String} {t : Tree} : t.get? key = none ↔ key ∉ t.keys := by
  induction t using entryInduction with
  | empty => simp [get?, keys]
  | cons k sel rest _ ih => by_cases h : k = key <;> simp [get?_cons, h, ih, eq_comm (a := key)]

end Tree

/-! ## Distinct keys -/

/-- No key occurs twice in the tree that a selection holds, if it holds one. -/
def Selection.Distinct (s : Selection) : Prop := ∀ body, s.body? = some body → body.Distinct

namespace Tree

theorem distinct_cons {key : String} {s : Selection} {t : Tree} :
    (cons key s t).Distinct ↔ key ∉ t.keys ∧ s.Distinct ∧ t.Distinct := by
  cases s <;> simp [cons, Distinct, Selection.Distinct, Selection.body?]

/-- A selection that is found has distinct keys too. -/
theorem Distinct.get? {key : String} {s : Selection} {t : Tree} (h : t.Distinct) (hs : t.get? key = some s) :
    s.Distinct := by
  induction t using entryInduction with
  | empty => cases hs
  | cons k sel rest _ ih =>
    obtain ⟨_, hsel, hrest⟩ := distinct_cons.mp h
    rw [get?_cons] at hs
    split at hs
    · exact Option.some.inj hs ▸ hsel
    · exact ih hrest hs

/-- Inserting keeps the keys distinct. -/
theorem Distinct.insert {key : String} {s : Selection} {t : Tree} (h : t.Distinct) (hs : s.Distinct) :
    (t.insert key s).Distinct := by
  induction t using entryInduction with
  | empty => exact distinct_cons.mpr ⟨by simp [keys], hs, trivial⟩
  | cons k sel rest _ ih =>
    obtain ⟨hk, hsel, hrest⟩ := distinct_cons.mp h
    rw [insert_cons]
    by_cases hkey : k = key
    · rw [if_pos hkey]
      exact distinct_cons.mpr ⟨hkey ▸ hk, hs, hrest⟩
    · rw [if_neg hkey]
      refine distinct_cons.mpr ⟨?_, hsel, ih hrest⟩
      rw [keys_insert]
      split <;> simp [hk, hkey]

theorem Distinct.insertAll {es : List (String × Selection)} {t : Tree} (h : t.Distinct)
    (hs : ∀ e ∈ es, e.2.Distinct) : (t.insertAll es).Distinct := by
  induction es generalizing t with
  | nil => exact h
  | cons e es ih => exact ih (h.insert (hs e (by simp))) fun e he => hs e (by simp [he])

/-- A tree made of entries has distinct keys. -/
theorem distinct_ofEntries {es : List (String × Selection)} (hs : ∀ e ∈ es, e.2.Distinct) :
    (ofEntries es).Distinct :=
  Distinct.insertAll trivial hs

theorem keys_erase_sublist (key : String) (t : Tree) : (t.erase key).keys.Sublist t.keys := by
  induction t using entryInduction with
  | empty => exact List.Sublist.refl _
  | cons k sel rest _ ih =>
    rw [erase_cons, keys_cons]
    split
    · exact List.sublist_cons_self _ _
    · rw [keys_cons]
      exact ih.cons_cons k

/-- Removing an entry keeps the keys distinct. -/
theorem Distinct.erase {key : String} {t : Tree} (h : t.Distinct) : (t.erase key).Distinct := by
  induction t using entryInduction with
  | empty => trivial
  | cons k sel rest _ ih =>
    obtain ⟨hk, hsel, hrest⟩ := distinct_cons.mp h
    rw [erase_cons]
    split
    · exact hrest
    · exact distinct_cons.mpr ⟨fun hm => hk ((keys_erase_sublist key rest).subset hm), hsel, ih hrest⟩

end Tree

end GraphSelect
