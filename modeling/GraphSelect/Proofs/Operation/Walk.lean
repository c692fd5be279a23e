import GraphSelect.Proofs.Operation.Contribution
import GraphSelect.Proofs.Tree.Entries

/-!
# Operations in one walk

`Schema.operation` asks first how deep a tree nests, then finds what all of it contributes, and puts bodies into the
fixed order at the end. One walk through the tree does the same (`Schema.walk`). It has the draft of a selection set
(`Draft`), goes through the entries once, and is over where it would enter one selection set too many. In a body that is
put into the fixed order the name of the type stands in the draft before the first entry and is passed over when its
entry comes, and fragments are kept back until the last entry.

A walk is over early exactly if the tree nests too deep, whatever it has found before (`isSome_draft?`). If it is not,
then its draft is that of what the tree contributes (`draft?_eq`), by induction on the tree: one entry adds what it
contributes (`Draft.extend_toList`), and a draft that is closed contributes what the sorted items of the body do
(`Entrance.lower_extend`). So it makes the same operation (`operation_eq_walk`).
-/

namespace GraphSelect

/-! ## Drafts -/

/-- A selection set while it is collected: its items, the fragments that are kept back until the last entry, the fields
that were only touched, and whether anything in it is hollow. -/
structure Draft where
  items : List Item := []
  fragments : List Item := []
  touched : List Item := []
  hollow : Bool := false

namespace Draft

/-- The draft before the first entry of a tree. In the fixed order the name of the type comes first, if its leaf is
selected. -/
def start (sorted : Bool) (t : Tree) : Draft :=
  { items := if sorted && (t.get? Key.typename).any Selection.isSelectedLeaf then [.typename] else [] }

/-- The draft with what one entry contributes. In the fixed order fragments are kept back. -/
def add (sorted : Bool) (d : Draft) : Option Contribution → Draft
  | none => d
  | some (.item i) =>
    if sorted && i.isFragment then { d with fragments := d.fragments ++ [i] } else { d with items := d.items ++ [i] }
  | some (.touched i) => { d with touched := d.touched ++ [i] }
  | some .hollow => { d with hollow := true }

/-- The items of a draft after the last entry. -/
def written (d : Draft) : List Item := d.items ++ d.fragments

/-- The items of the root: what is selected, or the touched fields if nothing is. -/
def rootItems (d : Draft) : List Item := if d.written.isEmpty then d.touched else d.written

end Draft

/-- How the tree of an entry is entered: the type that it selects on, whether it is put into the fixed order, what is
written around it, and whether that is shown empty if the tree was only touched. -/
structure Entrance where
  type : String
  sorted : Bool
  write : List Item → Item
  touchable : Bool

/-- What an entry contributes around the draft of its tree. -/
def Entrance.lower (e : Entrance) (d : Draft) : Option Contribution :=
  if ! d.written.isEmpty then some (.item (e.write d.written))
  else if d.hollow || ! d.touched.isEmpty then some .hollow
  else if e.touchable then some (.touched (e.write []))
  else none

namespace Schema

/-- The entrance under a key, if the tree there is entered. -/
def entrance? (s : Schema) (provider : ArgumentProvider) (type key : String) (role : Role) (body : Tree) :
    Option Entrance :=
  match s.meaning? type key with
  | some (.composite f kind) =>
    if body.isEmpty then none
    else some ⟨f.type.base, isSorted kind role, .composite f.name (provider s type f), true⟩
  | some (.branch next kind) => some ⟨next, isSorted kind role, .fragment next, false⟩
  | _ => none

/-- Goes through the entries of a tree with the draft of its selection set. The walk is over where it would enter more
than `levels` selection sets one inside the other. -/
def draft? (s : Schema) (provider : ArgumentProvider) (levels : Nat) (sorted : Bool) (type : String) :
    Tree → Draft → Option Draft
  | .empty, d => some d
  | .leaf key selected rest, d =>
    -- In the fixed order the name of the type is in the draft already.
    if sorted && key = Key.typename then s.draft? provider levels sorted type rest d
    else s.draft? provider levels sorted type rest (d.add sorted (s.leafContribution provider type key selected))
  | .branch key role body rest, d =>
    match s.entrance? provider type key role body with
    | none => s.draft? provider levels sorted type rest d
    | some e =>
      match levels with
      | 0 => none
      | levels + 1 =>
        match s.draft? provider levels e.sorted e.type body (.start e.sorted body) with
        | none => none
        | some inner => s.draft? provider (levels + 1) sorted type rest (d.add sorted (e.lower inner))

/-- The operation that a tree selects on the root type, made in one walk. -/
def walk (s : Schema) (tree : Tree) (o : Options) : Except Error Operation :=
  match s.root? o.kind with
  | none => .error (.operation (.missingRoot o.kind))
  | some root =>
    match s.draft? o.provider nestingLimit false root tree {} with
    | none => .error .recursionLimit
    | some d => .ok ⟨o.kind, if d.rootItems.isEmpty then none else o.name?, d.rootItems⟩

end Schema

/-! ## Drafts of contributions -/

/-- Whether a contribution is the mark for what is around a touched field. -/
def Contribution.isHollow : Contribution → Bool
  | .hollow => true
  | _ => false

/-- What an entry contributes around what its tree contributes. -/
def Entrance.contribution? (e : Entrance) (cs : List Contribution) : Option Contribution :=
  if e.touchable then some (.ofField e.sorted e.write cs) else Contribution.ofBranch e.sorted e.write cs

namespace Draft

/-- The draft with all of some contributions. In the fixed order it has no place for the name of the type. -/
def extend (sorted : Bool) (d : Draft) (cs : List Contribution) : Draft where
  items := d.items ++ if sorted then (Contribution.items cs).filter Item.isField else Contribution.items cs
  fragments := d.fragments ++ if sorted then (Contribution.items cs).filter Item.isFragment else []
  touched := d.touched ++ Contribution.touchedItems cs
  hollow := d.hollow || cs.any Contribution.isHollow

variable (sorted : Bool) (d : Draft)

theorem extend_nil : d.extend sorted [] = d := by
  cases sorted <;> simp [extend]

theorem extend_append (cs ds : List Contribution) :
    d.extend sorted (cs ++ ds) = (d.extend sorted cs).extend sorted ds := by
  cases sorted <;>
    simp [extend, Contribution.items_append, Contribution.touchedItems_append, List.append_assoc, Bool.or_assoc]

/-- What one entry contributes is added, if it is not the name of the type in a body that is put into the fixed
order. -/
theorem extend_toList {c? : Option Contribution}
    (h : sorted = true → (Contribution.items c?.toList).filter Item.isTypename = []) :
    d.extend sorted c?.toList = d.add sorted c? := by
  cases c? with
  | none => exact extend_nil sorted d
  | some c =>
    cases c with
    | touched i => cases sorted <;> simp [extend, add, Contribution.isHollow]
    | hollow => cases sorted <;> simp [extend, add, Contribution.isHollow]
    | item i =>
      cases sorted with
      | false => simp [extend, add, Contribution.isHollow]
      | true =>
        cases i with
        | typename => cases h rfl
        | scalar _ _ => simp [extend, add, Contribution.isHollow, Item.isField, Item.isFragment]
        | composite _ _ _ => simp [extend, add, Contribution.isHollow, Item.isField, Item.isFragment]
        | fragment _ _ => simp [extend, add, Contribution.isHollow, Item.isField, Item.isFragment]

theorem extend_typename : d.extend true [.item .typename] = d := by
  simp [extend, Contribution.isHollow, Item.isField, Item.isFragment]

theorem rootItems_extend (cs : List Contribution) :
    (({} : Draft).extend false cs).rootItems = Schema.rootItems cs := by
  have hwritten : (({} : Draft).extend false cs).written = Contribution.items cs := by simp [extend, written]
  unfold rootItems Schema.rootItems
  rw [hwritten]
  cases Contribution.items cs <;> simp [extend]

end Draft

/-! ## Closed drafts -/

section Closing

variable {t : Tree} {cs : List Contribution}

/-- The name of the type is among some contributions once, if its leaf in a tree is selected, and else not at all. -/
def Tree.NamesType (t : Tree) (cs : List Contribution) : Prop :=
  (Contribution.items cs).filter Item.isTypename = if t.get? Key.typename = some (.leaf true) then [.typename] else []

/-- After the last entry the items stand in the order of the body. -/
theorem Draft.written_extend (h : t.NamesType cs) (sorted : Bool) :
    ((Draft.start sorted t).extend sorted cs).written = Contribution.arrange sorted (Contribution.items cs) := by
  cases sorted with
  | false => simp [written, extend, start, Contribution.arrange]
  | true =>
    have hstart : (t.get? Key.typename).any Selection.isSelectedLeaf = true ↔
        t.get? Key.typename = some (.leaf true) := by
      cases t.get? Key.typename with
      | none => simp
      | some sel => cases sel <;> simp [Selection.isSelectedLeaf]
    simp only [written, extend, start, Contribution.arrange, Contribution.sortItems, Bool.true_and, if_true, hstart]
    rw [h]
    simp [List.append_assoc]

/-- Around a closed draft an entry contributes what it does around the contributions themselves. -/
theorem Entrance.lower_extend (e : Entrance) (h : t.NamesType cs) :
    e.lower ((Draft.start e.sorted t).extend e.sorted cs) = e.contribution? cs := by
  rw [lower, Draft.written_extend h]
  cases hi : Contribution.items cs with
  | cons i is =>
    have hne : (Contribution.arrange e.sorted (i :: is)).isEmpty = false := by
      have hlength := (Contribution.arrange_perm e.sorted (i :: is)).length_eq
      rw [List.isEmpty_eq_false_iff, ← List.length_pos_iff, hlength]
      exact Nat.succ_pos _
    simp [hne, contribution?, Contribution.ofField, Contribution.ofBranch, hi]
  | nil =>
    have hempty : (Contribution.arrange e.sorted []).isEmpty = true := by cases e.sorted <;> rfl
    cases cs with
    | nil => simp [hempty, contribution?, Contribution.ofField, Contribution.ofBranch, Draft.extend, Draft.start]
    | cons c cs =>
      -- What contributes no item is one of the two marks.
      cases c with
      | item i => cases hi
      | touched i =>
        simp [hempty, contribution?, Contribution.ofField, Contribution.ofBranch, hi, Draft.extend, Draft.start]
      | hollow =>
        simp [hempty, contribution?, Contribution.ofField, Contribution.ofBranch, hi, Draft.extend, Draft.start,
          Contribution.isHollow]

end Closing

namespace Schema

open Contribution

variable {s : Schema} {provider : ArgumentProvider}

/-! ## Entries -/

/-- What is entered under a key is the tree that its target is selected on. -/
theorem map_type_entrance? (provider : ArgumentProvider) (type key : String) (role : Role) (body : Tree) :
    (s.entrance? provider type key role body).map Entrance.type = s.target? type key body := by
  unfold entrance? target?
  cases s.meaning? type key with
  | none => rfl
  | some m =>
    cases m with
    | typename => rfl
    | leaf f => rfl
    | composite f kind => cases body.isEmpty <;> rfl
    | branch next kind => rfl

/-- A branch entry contributes, around what is entered under its key, what the entrance does. -/
theorem branchContributions_eq_entrance? (type key : String) (role : Role) (body : Tree) :
    s.branchContributions provider type key role body =
      ((s.entrance? provider type key role body).bind fun e =>
        e.contribution? (s.contributions provider e.type body)).toList := by
  rw [branchContributions_eq, entrance?]
  cases s.meaning? type key with
  | none => rfl
  | some m =>
    cases m with
    | typename => rfl
    | leaf f => rfl
    | composite f kind => cases body.isEmpty <;> rfl
    | branch next kind => rfl

/-- A leaf under another key does not contribute the name of the type. -/
theorem filter_isTypename_leafContribution {key : String} (h : key ≠ Key.typename) (type : String) (selected : Bool) :
    (items (s.leafContribution provider type key selected).toList).filter Item.isTypename = [] := by
  rcases s.leafContribution_cases provider type key selected with ⟨_, hm, _⟩ | ⟨f, _, _, he⟩ | ⟨_, he⟩
  · exact absurd (meaning?_eq_typename_iff.mp hm) h
  · rw [he]
    rfl
  · rw [he]
    rfl

/-- No branch entry contributes the name of the type. -/
theorem filter_isTypename_branchContributions (type key : String) (role : Role) (body : Tree) :
    (items (s.branchContributions provider type key role body)).filter Item.isTypename = [] := by
  rcases s.items_branchContributions_cases provider type key role body with ⟨f, kind, is, _, _, _, he⟩ |
    ⟨next, kind, is, _, _, _, he⟩ | ⟨he, _⟩ <;> rw [he] <;> rfl

/-- What a tree contributes has the name of the type at most once. -/
theorem namesType_contributions (type : String) : ∀ {t : Tree}, t.Distinct →
    t.NamesType (s.contributions provider type t)
  | .empty, _ => rfl
  | .leaf key selected rest, ⟨hkey, hrest⟩ => by
    have ih := namesType_contributions type hrest
    rw [Tree.NamesType] at ih ⊢
    rw [contributions, items_append, List.filter_append, ih, Tree.get?]
    by_cases htypename : key = Key.typename
    · subst htypename
      rw [if_pos rfl, Tree.get?_eq_none_iff.mpr hkey]
      cases selected <;> rfl
    · rw [if_neg htypename, filter_isTypename_leafContribution htypename]
      rfl
  | .branch key role body rest, ⟨hkey, _, hrest⟩ => by
    have ih := namesType_contributions type hrest
    rw [Tree.NamesType] at ih ⊢
    rw [contributions_branch, items_append, List.filter_append, filter_isTypename_branchContributions, ih, Tree.get?]
    by_cases htypename : key = Key.typename
    · subst htypename
      rw [if_pos rfl, Tree.get?_eq_none_iff.mpr hkey]
      rfl
    · rw [if_neg htypename]
      rfl

/-! ## The walk -/

/-- A walk is over early exactly if the tree nests too deep. -/
theorem isSome_draft? : ∀ (t : Tree) (levels : Nat) (sorted : Bool) (type : String) (d : Draft),
    (s.draft? provider levels sorted type t d).isSome ↔ s.nesting type t ≤ levels
  | .empty, levels, sorted, type, d => by simp [draft?, nesting]
  | .leaf key selected rest, levels, sorted, type, d => by
    rw [draft?, nesting]
    split <;> exact isSome_draft? rest levels sorted type _
  | .branch key role body rest, levels, sorted, type, d => by
    rw [draft?, nesting, ← map_type_entrance? provider type key role body]
    cases s.entrance? provider type key role body with
    | none => exact isSome_draft? rest levels sorted type d
    | some e =>
      cases levels with
      | zero => simp
      | succ levels =>
        have hbody := isSome_draft? body levels e.sorted e.type (.start e.sorted body)
        have hmax : max (s.nesting e.type body + 1) (s.nesting type rest) ≤ levels + 1 ↔
            s.nesting e.type body ≤ levels ∧ s.nesting type rest ≤ levels + 1 := by omega
        dsimp only [Option.map_some]
        rw [hmax, ← hbody]
        cases s.draft? provider levels e.sorted e.type body (.start e.sorted body) with
        | none => simp
        | some inner => simpa using isSome_draft? rest (levels + 1) sorted type _

theorem draft?_cases (s : Schema) (provider : ArgumentProvider) (type : String) (t : Tree) (levels : Nat)
    (sorted : Bool) (d : Draft) :
    (levels < s.nesting type t ∧ s.draft? provider levels sorted type t d = none) ∨
      (¬ levels < s.nesting type t ∧ ∃ d', s.draft? provider levels sorted type t d = some d') := by
  have hsome : (s.draft? provider levels sorted type t d).isSome ↔ s.nesting type t ≤ levels :=
    isSome_draft? t levels sorted type d
  cases hd : s.draft? provider levels sorted type t d with
  | none =>
    rw [hd, Option.isSome_none, Bool.false_eq_true, false_iff] at hsome
    exact .inl ⟨Nat.lt_of_not_le hsome, rfl⟩
  | some d' => exact .inr ⟨Nat.not_lt_of_le (hsome.mp (by rw [hd]; rfl)), d', rfl⟩

/-- The draft of a walk that is not over early holds what the tree contributes. -/
theorem draft?_eq : ∀ {t : Tree}, t.Distinct → ∀ {levels : Nat} {sorted : Bool} {type : String} {d d' : Draft},
    s.draft? provider levels sorted type t d = some d' → d' = d.extend sorted (s.contributions provider type t)
  | .empty, _, levels, sorted, type, d, d', h => by
    obtain rfl := Option.some.inj h
    exact (Draft.extend_nil sorted d).symm
  | .leaf key selected rest, ⟨_, hrest⟩, levels, sorted, type, d, d', h => by
    rw [draft?] at h
    rw [contributions, Draft.extend_append]
    split at h
    · rename_i hskip
      obtain ⟨rfl, hkey⟩ := Bool.and_eq_true_iff.mp hskip
      obtain rfl := of_decide_eq_true hkey
      have hentry : d.extend true (s.leafContribution provider type Key.typename selected).toList = d := by
        cases selected with
        | false => exact Draft.extend_nil true d
        | true => exact Draft.extend_typename d
      rw [hentry]
      exact draft?_eq hrest h
    · rename_i hskip
      have hkey : sorted = true → key ≠ Key.typename := fun hsorted he => hskip (by simp [hsorted, he])
      rw [Draft.extend_toList sorted d fun hsorted => filter_isTypename_leafContribution (hkey hsorted) type selected]
      exact draft?_eq hrest h
  | .branch key role body rest, ⟨_, hbody, hrest⟩, levels, sorted, type, d, d', h => by
    rw [draft?] at h
    rw [contributions_branch, branchContributions_eq_entrance?, Draft.extend_append]
    cases he : s.entrance? provider type key role body with
    | none =>
      rw [he] at h
      rw [Option.bind_none, Option.toList_none, Draft.extend_nil]
      exact draft?_eq hrest h
    | some e =>
      rw [he] at h
      cases levels with
      | zero => cases h
      | succ levels =>
        dsimp only at h
        cases hinner : s.draft? provider levels e.sorted e.type body (.start e.sorted body) with
        | none =>
          rw [hinner] at h
          cases h
        | some inner =>
          rw [hinner, draft?_eq hbody hinner] at h
          dsimp only at h
          rw [Entrance.lower_extend e (namesType_contributions e.type hbody)] at h
          have hname : (items (s.branchContributions provider type key role body)).filter Item.isTypename = [] :=
            filter_isTypename_branchContributions type key role body
          rw [branchContributions_eq_entrance?, he, Option.bind_some] at hname
          rw [Option.bind_some, Draft.extend_toList sorted d fun _ => hname]
          exact draft?_eq hrest h

/-- An operation is made in one walk. -/
theorem operation_eq_walk {tree : Tree} (h : tree.Distinct) (o : Options) : s.operation tree o = s.walk tree o := by
  unfold operation walk
  cases s.root? o.kind with
  | none => rfl
  | some root =>
    dsimp only
    rcases draft?_cases s o.provider root tree nestingLimit false {} with ⟨hn, hd⟩ | ⟨hn, d, hd⟩ <;> rw [hd]
    · rw [if_pos hn]
    · dsimp only
      rw [if_neg hn, draft?_eq h hd, Draft.rootItems_extend]

end Schema

end GraphSelect
