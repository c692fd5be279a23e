import GraphSelect.Proofs.Json.Scanning
import GraphSelect.Tree.Encoding

/-!
# Trees as text

The indented text of a tree is read as the JSON value that it was written from, unless the tree is nested deeper than a
reader allows: then reading fails (`readWithin_writeIndented`). Writing and scanning give the tokens of the tree
(`scan_writeLines`), and the machine that reads them takes one entry after the other, with the members so far as its
state (`run_entryTokens`).
-/

namespace GraphSelect

namespace Json

/-- The lines of an object are those of its members, of which the first has no comma in front. -/
theorem writeLines_object (level : Nat) (m : String × Json) (members : List (String × Json)) :
    writeLines level (.object (m :: members)) =
      '{' :: ((writeMemberLines level (m :: members)).tail ++ newLine level ++ ['}']) := by
  simp [writeLines, writeMemberLines]

theorem writeMemberLines_eq_cons (level : Nat) (m : String × Json) (members : List (String × Json)) :
    writeMemberLines level (m :: members) = ',' :: (writeMemberLines level (m :: members)).tail := by
  simp [writeMemberLines]

end Json

namespace Tree

open Json

/-! ## Tokens -/

/-- The tokens of the entries of a tree, each behind a comma. -/
def entryTokens : Tree → List Json.Token
  | .empty => []
  | .leaf key selected rest => .comma :: .string key :: .colon :: .bool selected :: entryTokens rest
  | .branch key _ body rest =>
    .comma :: .string key :: .colon :: .openBrace :: ((entryTokens body).tail ++ .closeBrace :: entryTokens rest)

theorem members_eq_nil_iff {t : Tree} : toJson.members t = [] ↔ t = .empty := by
  cases t <;> simp [toJson.members]

/-- If the entries of a tree are scanned into their tokens, then so is the tree. -/
theorem scan_writeLines_of {t : Tree} {level : Nat}
    (h : ∀ cs, scan (writeMemberLines level (toJson.members t) ++ cs) = entryTokens t ++ scan cs) (cs : List Char) :
    scan (writeLines level t.toJson ++ cs) = .openBrace :: ((entryTokens t).tail ++ .closeBrace :: scan cs) := by
  cases hm : toJson.members t with
  | nil =>
    obtain rfl := members_eq_nil_iff.mp hm
    exact (scan_openBrace _).trans (congrArg _ (scan_closeBrace cs))
  | cons m members =>
    have hrest := h (newLine level ++ '}' :: cs)
    rw [hm, writeMemberLines_eq_cons, List.cons_append, scan_comma, scan_newLine, scan_closeBrace] at hrest
    have htokens : entryTokens t ≠ [] := by
      cases t with
      | empty => cases hm
      | leaf _ _ _ => exact List.cons_ne_nil _ _
      | branch _ _ _ _ => exact List.cons_ne_nil _ _
    have hrest := congrArg List.tail hrest
    rw [List.tail_cons, List.tail_append_of_ne_nil htokens] at hrest
    rw [toJson, hm, writeLines_object, List.cons_append, scan_openBrace, ← hrest]
    simp

theorem scan_writeMemberLines : ∀ (t : Tree) (level : Nat) (cs : List Char),
    scan (writeMemberLines level (toJson.members t) ++ cs) = entryTokens t ++ scan cs
  | .empty, _, _ => rfl
  | .leaf key selected rest, level, cs => by
    simp only [toJson.members, writeMemberLines, List.append_assoc, List.cons_append, List.nil_append, entryTokens]
    rw [scan_comma, scan_newLine, scan_writeString, scan_colon, scan_of_isBlank (by decide), scan_bool,
      scan_writeMemberLines rest]
  | .branch key role body rest, level, cs => by
    have hbody := scan_writeLines_of (scan_writeMemberLines body (level + 1))
    simp only [toJson] at hbody
    simp only [toJson.members, writeMemberLines, List.append_assoc, List.cons_append, List.nil_append, entryTokens]
    rw [scan_comma, scan_newLine, scan_writeString, scan_colon, scan_of_isBlank (by decide), hbody,
      scan_writeMemberLines rest]

/-- The text of a tree is scanned into its tokens. -/
theorem scan_writeLines (t : Tree) (level : Nat) (cs : List Char) :
    scan (writeLines level t.toJson ++ cs) = .openBrace :: ((entryTokens t).tail ++ .closeBrace :: scan cs) :=
  scan_writeLines_of (scan_writeMemberLines t level) cs

/-! ## Reading tokens -/

theorem putMember_of_not_mem {key : String} (value : Json) : ∀ {members : List (String × Json)},
    key ∉ members.map Prod.fst → putMember key value members = members ++ [(key, value)]
  | [], _ => rfl
  | (k, v) :: members, h => by
    rw [List.map_cons, List.mem_cons, not_or] at h
    rw [putMember, if_neg (Ne.symm h.1), putMember_of_not_mem value h.2, List.cons_append]

theorem one_le_depth : ∀ t : Tree, 1 ≤ t.depth
  | .empty => Nat.le_refl _
  | .leaf _ _ rest => one_le_depth rest
  | .branch _ _ _ rest => Nat.le_trans (one_le_depth rest) (Nat.le_max_right _ _)

/-- The keys of a tree are new to some members. -/
def NewTo (t : Tree) (members : List (String × Json)) : Prop := ∀ key ∈ t.keys, key ∉ members.map Prod.fst

theorem newTo_nil (t : Tree) : t.NewTo [] := fun _ _ => List.not_mem_nil

/-- The keys behind the first are new to the members with the first key. -/
theorem NewTo.append {rest : Tree} {members : List (String × Json)} (h : rest.NewTo members) {key : String}
    {value : Json} (hkey : key ∉ rest.keys) : rest.NewTo (members ++ [(key, value)]) := by
  intro k hk hm
  rw [List.map_append, List.mem_append] at hm
  rcases hm with hm | hm
  · exact h k hk hm
  · obtain rfl := List.mem_singleton.mp hm
    exact hkey hk

variable {limit : Nat}

/-- An object starts if there is room for it. -/
theorem run_openBrace (stack : List Frame) (ts : List Json.Token) :
    run limit ⟨.value, stack⟩ (.openBrace :: ts) =
      if stack.length < limit then run limit ⟨.firstKey, stack⟩ ts else .error .malformed := by
  by_cases h : stack.length < limit <;> simp [run, step, startValue, h]

/-- There is room for a tree if there is for the tree of its first branch, one level down, and for the others. -/
theorem ite_room {α : Type} {n a b : Nat} {x y : α} :
    (if n + 1 + a ≤ limit then if n + b ≤ limit then x else y else y) =
      if n + max (a + 1) b ≤ limit then x else y := by
  by_cases ha : n + 1 + a ≤ limit
  · by_cases hb : n + b ≤ limit
    · rw [if_pos ha, if_pos hb, if_pos (by omega)]
    · rw [if_pos ha, if_neg hb, if_neg (by omega)]
  · rw [if_neg ha, if_neg (by omega)]

mutual

/-- Behind a value for a key, the tokens of a tree complete the object with its members, unless it is too deep. -/
theorem run_entryTokens : ∀ {t : Tree}, t.Distinct → ∀ {key : String} {value : Json}
    {members members' : List (String × Json)} {stack : List Frame}, stack.length < limit →
    putMember key value members = members' → t.NewTo members' → ∀ ts : List Json.Token,
    run limit ⟨.done value, .object members key :: stack⟩ (entryTokens t ++ .closeBrace :: ts) =
      if stack.length + t.depth ≤ limit then run limit ⟨.done (.object (members' ++ toJson.members t)), stack⟩ ts
      else .error .malformed
  | .empty, _, key, value, members, members', stack, hstack, hput, _, ts => by
    have hroom : stack.length + Tree.empty.depth ≤ limit := hstack
    rw [if_pos hroom, toJson.members, List.append_nil, ← hput]
    rfl
  | .leaf k b rest, hd, key, value, members, members', stack, hstack, hput, hnew, ts => by
    obtain ⟨hk, hd⟩ := hd
    obtain ⟨hknew, hrest⟩ := List.forall_mem_cons.mp hnew
    have hrun := run_entryTokens hd hstack (putMember_of_not_mem (.bool b) hknew) (NewTo.append hrest hk) ts
    rw [List.append_assoc, List.singleton_append] at hrun
    rw [depth, toJson.members, ← hrun, ← hput]
    rfl
  | .branch k role body rest, hd, key, value, members, members', stack, hstack, hput, hnew, ts => by
    obtain ⟨hk, hdbody, hd⟩ := hd
    obtain ⟨hknew, hrest⟩ := List.forall_mem_cons.mp hnew
    have hrun := run_entryTokens hd hstack (putMember_of_not_mem body.toJson hknew) (NewTo.append hrest hk) ts
    have hbody := run_tokens hdbody (.object members' k :: stack) (entryTokens rest ++ .closeBrace :: ts)
    rw [hrun, List.length_cons, ite_room, List.append_assoc, List.singleton_append] at hbody
    rw [depth, toJson.members]
    refine Eq.trans ?_ hbody
    rw [entryTokens, ← hput]
    simp only [List.cons_append, List.append_assoc]
    rfl

/-- The tokens of a tree are read as the tree, unless it is too deep. -/
theorem run_tokens : ∀ {t : Tree}, t.Distinct → ∀ (stack : List Frame) (ts : List Json.Token),
    run limit ⟨.value, stack⟩ (.openBrace :: ((entryTokens t).tail ++ .closeBrace :: ts)) =
      if stack.length + t.depth ≤ limit then run limit ⟨.done t.toJson, stack⟩ ts else .error .malformed
  | .empty, _, stack, ts => run_openBrace stack (.closeBrace :: ts)
  | .leaf k b rest, hd, stack, ts => by
    obtain ⟨hk, hd⟩ := hd
    rw [run_openBrace]
    by_cases hstack : stack.length < limit
    · rw [if_pos hstack]
      have hput : putMember k (.bool b) [] = [(k, .bool b)] := rfl
      exact run_entryTokens hd hstack hput (NewTo.append (newTo_nil rest) hk) ts
    · have := one_le_depth (.leaf k b rest)
      rw [if_neg hstack, if_neg (by omega)]
  | .branch k role body rest, hd, stack, ts => by
    obtain ⟨hk, hdbody, hd⟩ := hd
    rw [run_openBrace]
    by_cases hstack : stack.length < limit
    · have hput : putMember k body.toJson [] = [(k, body.toJson)] := rfl
      have hrun := run_entryTokens hd hstack hput (NewTo.append (newTo_nil rest) hk) ts
      have hbody := run_tokens hdbody (.object [] k :: stack) (entryTokens rest ++ .closeBrace :: ts)
      rw [hrun, List.length_cons, ite_room] at hbody
      rw [if_pos hstack, depth]
      refine Eq.trans ?_ hbody
      rw [entryTokens]
      simp only [List.cons_append, List.append_assoc, List.tail_cons]
      rfl
    · have := one_le_depth (.branch k role body rest)
      rw [if_neg hstack, if_neg (by omega)]

end

/-! ## Reading texts -/

/-- The indented text of a tree is read as the value that it was written from, if the tree is not too deep. Blanks may
follow the text. -/
theorem readWithin_writeIndented {t : Tree} (hd : t.Distinct) {blanks : String}
    (hblanks : ∀ c ∈ blanks.toList, isBlank c = true) (limit : Nat) :
    readWithin limit (t.toJson.writeIndented ++ blanks) =
      if t.depth ≤ limit then .ok t.toJson else .error .malformed := by
  have hend : scan blanks.toList = [] := by
    have := scan_blanks hblanks []
    rwa [List.append_nil, scan] at this
  have hscan : scan (t.toJson.writeIndented ++ blanks).toList =
      .openBrace :: ((entryTokens t).tail ++ [.closeBrace]) := by
    rw [String.toList_append, writeIndented, String.toList_ofList, scan_writeLines, hend]
  have hrun : run limit .start (.openBrace :: ((entryTokens t).tail ++ [.closeBrace])) =
      if 0 + t.depth ≤ limit then run limit ⟨.done t.toJson, []⟩ [] else .error .malformed := run_tokens hd [] []
  rw [readWithin, readFirst, hscan, hrun, Nat.zero_add]
  by_cases h : t.depth ≤ limit
  · rw [if_pos h, if_pos h]
    rfl
  · rw [if_neg h, if_neg h]

end Tree

end GraphSelect
