import GraphSelect.Cache
import GraphSelect.Proofs.Schema.Validity
import Mathlib.Data.Finset.Card
import Mathlib.Data.List.Induction
import Mathlib.Data.List.Nodup

/-!
# What a cache holds

A cache that starts empty is asked for the schemas of texts, one call after the other (`after`). At any time it holds
precisely the valid texts that were used last, as many as fit (`holds_after`): a call for a text that is held moves it
to the front, a call for another valid text puts it there, and a call for an invalid text changes nothing
(`getOrParse_cases`).

So the order of all valid texts by their last use (`recent`) tells the whole history: what is held is its first part.
-/

namespace GraphSelect

namespace Cache

/-! ## Single calls -/

/-- A text is held exactly if it is found. -/
theorem mem_texts_iff {c : Cache} {text : String} : text ∈ c.texts ↔ (c.entries.lookup text).isSome := by
  rw [texts, List.mem_map, List.lookup_isSome_iff]
  exact ⟨fun ⟨e, he, h⟩ => ⟨e, he, by simp [h]⟩, fun ⟨e, he, h⟩ => ⟨e, he, (eq_of_beq h).symm⟩⟩

/-- What a call does: it answers with what is held for the text and moves that to the front; or it parses the text, and
either answers with the problems, or puts a new schema in front and lets go of what no longer fits. -/
theorem getOrParse_cases (c : Cache) (text : String) :
    (∃ i, (text, i) ∈ c.entries ∧
      c.getOrParse text = (.ok i, { c with entries := toFront text i c.entries })) ∨
    (text ∉ c.texts ∧ ∃ problems, Schema.parse text = .error problems ∧ c.getOrParse text = (.error problems, c)) ∨
    (text ∉ c.texts ∧ ∃ s, Schema.parse text = .ok s ∧
      c.getOrParse text = (.ok ⟨c.parsed, s⟩,
        { c with entries := ((text, ⟨c.parsed, s⟩) :: c.entries).take c.capacity, parsed := c.parsed + 1 })) := by
  unfold getOrParse lookup
  cases hlookup : c.entries.lookup text with
  | some i =>
    obtain ⟨before, behind, he, _⟩ := List.lookup_eq_some_iff.mp hlookup
    exact .inl ⟨i, he ▸ List.mem_append_right _ List.mem_cons_self, rfl⟩
  | none =>
    have hnot : text ∉ c.texts := by simp [mem_texts_iff, hlookup]
    refine .inr ?_
    cases hparse : Schema.parse text with
    | error problems => exact .inl ⟨hnot, problems, rfl, rfl⟩
    | ok s => exact .inr ⟨hnot, s, rfl, by simp [number, offer, lookup, hlookup]⟩

/-- A call with a way to parse that may have effects. -/
def getOrParseWith {m : Type → Type} [Monad m] (parse : String → m (Except (List Diagnostic) Schema)) (c : Cache)
    (text : String) : m (Except (List Diagnostic) Instance × Cache) := do
  match c.lookup text with
  | some (i, c) => pure (.ok i, c)
  | none =>
    match ← parse text with
    | .error problems => pure (.error problems, c)
    | .ok s =>
      let (i, c) := c.number s
      let (i, c) := c.offer text i
      pure (.ok i, c)

theorem getOrParseWith_id (c : Cache) (text : String) :
    (c.getOrParseWith (m := Id) Schema.parse text).run = c.getOrParse text := by
  unfold getOrParseWith getOrParse
  cases c.lookup text with
  | some found => rfl
  | none => cases Schema.parse text <;> rfl

/-- Parsing that puts each parsed text in front of a log. -/
def parseLogged (text : String) : StateM (List String) (Except (List Diagnostic) Schema) := do
  modify (text :: ·)
  pure (Schema.parse text)

/-- A call parses its text exactly if it is not held. -/
theorem run_getOrParseWith_parseLogged (c : Cache) (text : String) (log : List String) :
    (c.getOrParseWith parseLogged text).run log =
      (c.getOrParse text, if text ∈ c.texts then log else text :: log) := by
  unfold getOrParseWith getOrParse lookup
  cases hlookup : c.entries.lookup text with
  | some i =>
    simp only [mem_texts_iff, hlookup, Option.isSome_some, if_true]
    rfl
  | none =>
    cases hparse : Schema.parse text <;>
      simp only [parseLogged, mem_texts_iff, hlookup, hparse, Option.isSome_none, Bool.false_eq_true, if_false] <;> rfl

/-! ## Order of use -/

/-- Whether a text is that of a schema. -/
def isSchemaText (text : String) : Bool := (Schema.parse text).toOption.isSome

/-- The different valid texts of some calls, the last used first. -/
def recent (calls : List String) : List String := (calls.filter isSchemaText).dedup.reverse

/-- Of repeated items the last is kept. -/
theorem dedup_append_singleton (a : String) : ∀ l : List String, (l ++ [a]).dedup = l.dedup.filter (· ≠ a) ++ [a]
  | [] => rfl
  | b :: l => by
    have ih := dedup_append_singleton a l
    by_cases hb : b ∈ l
    · rw [List.cons_append, List.dedup_cons_of_mem hb, List.dedup_cons_of_mem (List.mem_append_left _ hb), ih]
    · rw [List.cons_append, List.dedup_cons_of_notMem hb]
      by_cases he : b = a
      · subst he
        rw [List.dedup_cons_of_mem (List.mem_append_right _ (List.mem_singleton_self b)), ih,
          List.filter_cons_of_neg (by simp)]
      · rw [List.dedup_cons_of_notMem (by simp [hb, he]), ih, List.filter_cons_of_pos (by simpa using he),
          List.cons_append]

/-- A call with a valid text puts it in front, and any other call changes nothing. -/
theorem recent_append (calls : List String) (text : String) :
    recent (calls ++ [text]) =
      if isSchemaText text then text :: (recent calls).filter (· ≠ text) else recent calls := by
  unfold recent
  rw [List.filter_append]
  by_cases h : isSchemaText text = true
  · rw [if_pos h, List.filter_cons_of_pos h, List.filter_nil, dedup_append_singleton, List.reverse_append,
      List.filter_reverse]
    rfl
  · rw [if_neg h, List.filter_cons_of_neg h, List.filter_nil, List.append_nil]

theorem recent_nodup (calls : List String) : (recent calls).Nodup :=
  List.nodup_reverse.mpr (List.nodup_dedup _)

/-! ## Keeping the first of a list -/

/-- If one of the first `n + 1` items is taken out, the first `n` of the others are left of them. -/
theorem filter_take_succ {a : String} : ∀ {l : List String} {n : Nat}, l.Nodup → a ∈ l.take (n + 1) →
    (l.take (n + 1)).filter (· ≠ a) = (l.filter (· ≠ a)).take n
  | b :: l, n, hd, h => by
    obtain ⟨hb, hd⟩ := List.nodup_cons.mp hd
    rw [List.take_succ_cons] at h ⊢
    by_cases he : b = a
    · subst he
      have hself : ∀ {m : List String}, b ∉ m → m.filter (· ≠ b) = m := by
        intro m hm
        exact List.filter_eq_self.mpr fun c hc => by simpa using fun he : c = b => hm (he ▸ hc)
      rw [List.filter_cons_of_neg (by simp), List.filter_cons_of_neg (by simp), hself hb,
        hself fun hm => hb (List.mem_of_mem_take hm)]
    · have hm : a ∈ l.take n := (List.mem_cons.mp h).resolve_left (Ne.symm he)
      cases n with
      | zero => cases hm
      | succ n =>
        rw [List.filter_cons_of_pos (by simpa using he), List.filter_cons_of_pos (by simpa using he),
          filter_take_succ hd hm, List.take_succ_cons]

/-- What is not among the first `n` items can be taken out of all without changing these. -/
theorem take_filter_of_not_mem {a : String} : ∀ {l : List String} {n : Nat}, a ∉ l.take n →
    (l.filter (· ≠ a)).take n = l.take n
  | _, 0, _ => by rw [List.take_zero, List.take_zero]
  | [], _ + 1, _ => rfl
  | b :: l, n + 1, h => by
    rw [List.take_succ_cons, List.mem_cons, not_or] at h
    rw [List.filter_cons_of_pos (by simpa using Ne.symm h.1), List.take_succ_cons, List.take_succ_cons,
      take_filter_of_not_mem h.2]

/-! ## All calls -/

theorem map_toFront (text : String) (i : Instance) (entries : List (String × Instance)) :
    (toFront text i entries).map Prod.fst = text :: (entries.map Prod.fst).filter (· ≠ text) := by
  rw [toFront, List.map_cons, List.filter_map]
  rfl

/-- A cache holds the first of some texts, as many as fit, each with its schema. -/
structure Holds (c : Cache) (used : List String) : Prop where
  texts_eq : c.texts = used.take c.capacity
  parse_eq : ∀ e ∈ c.entries, Schema.parse e.1 = .ok e.2.schema

/-- What a call leaves is held in the order of use again. -/
theorem Holds.getOrParse {c : Cache} {calls : List String} (h : c.Holds (recent calls)) (text : String) :
    (c.getOrParse text).2.Holds (recent (calls ++ [text])) := by
  rw [recent_append]
  rcases c.getOrParse_cases text with ⟨i, hi, he⟩ | ⟨_, problems, hparse, he⟩ | ⟨hnot, s, hparse, he⟩ <;> rw [he]
  · have hvalid : isSchemaText text = true := by
      rw [isSchemaText, h.parse_eq _ hi]
      rfl
    rw [if_pos hvalid]
    have hm : text ∈ c.texts := List.mem_map_of_mem (f := Prod.fst) hi
    constructor
    · rw [h.texts_eq] at hm
      obtain ⟨n, hn⟩ : ∃ n, c.capacity = n + 1 :=
        Nat.exists_eq_succ_of_ne_zero fun hn => by simp [hn] at hm
      have htexts : c.entries.map Prod.fst = (recent calls).take (n + 1) := hn ▸ h.texts_eq
      rw [hn] at hm
      show (toFront text i c.entries).map Prod.fst = (text :: (recent calls).filter (· ≠ text)).take c.capacity
      rw [map_toFront, hn, htexts, List.take_succ_cons, filter_take_succ (recent_nodup calls) hm]
    · intro e he
      rcases List.mem_cons.mp he with rfl | he
      · exact h.parse_eq _ hi
      · exact h.parse_eq _ (List.mem_filter.mp he).1
  · rw [isSchemaText, hparse]
    exact h
  · have hvalid : isSchemaText text = true := by
      rw [isSchemaText, hparse]
      rfl
    rw [if_pos hvalid]
    constructor
    · rw [h.texts_eq] at hnot
      show (((text, _) :: c.entries).take c.capacity).map Prod.fst = (text :: _).take c.capacity
      cases hn : c.capacity with
      | zero => rfl
      | succ n =>
        have hless : text ∉ (recent calls).take n := fun hm =>
          hnot (List.take_subset_take_left _ (by omega) hm)
        have htexts : c.entries.map Prod.fst = (recent calls).take (n + 1) := hn ▸ h.texts_eq
        rw [List.take_succ_cons, List.take_succ_cons, List.map_cons, List.map_take, htexts, List.take_take,
          Nat.min_eq_left (Nat.le_succ n), take_filter_of_not_mem hless]
    · intro e he
      rcases List.mem_cons.mp (List.mem_of_mem_take he) with rfl | he
      · exact hparse
      · exact h.parse_eq _ he

/-- The cache with room for `n` schemas after some calls. -/
def after (n : Nat) (calls : List String) : Cache := calls.foldl (fun c text => (c.getOrParse text).2) (empty n)

/-- What a call is answered after some others. -/
def answer (n : Nat) (calls : List String) (text : String) : Except (List Diagnostic) Instance :=
  ((after n calls).getOrParse text).1

theorem after_append (n : Nat) (calls : List String) (text : String) :
    after n (calls ++ [text]) = ((after n calls).getOrParse text).2 := by
  rw [after, List.foldl_append]
  rfl

theorem capacity_after (n : Nat) (calls : List String) : (after n calls).capacity = n := by
  induction calls using List.reverseRecOn with
  | nil => rfl
  | append_singleton calls text ih =>
    rw [after_append]
    rcases (after n calls).getOrParse_cases text with ⟨i, _, he⟩ | ⟨_, _, _, he⟩ | ⟨_, _, _, he⟩ <;> rw [he] <;>
      exact ih

/-- A cache holds what was used last. -/
theorem holds_after (n : Nat) (calls : List String) : (after n calls).Holds (recent calls) := by
  induction calls using List.reverseRecOn with
  | nil => exact ⟨List.take_nil.symm, fun e he => nomatch he⟩
  | append_singleton calls text ih =>
    rw [after_append]
    exact ih.getOrParse text

/-- As many texts are held as fit, or all. -/
theorem size_after (n : Nat) (calls : List String) :
    (after n calls).size = min n (calls.filter isSchemaText).toFinset.card := by
  have htexts := congrArg List.length (holds_after n calls).texts_eq
  rw [capacity_after, List.length_take, recent, List.length_reverse, ← List.card_toFinset] at htexts
  rw [← htexts, texts, List.length_map, size]

/-! ## Instances -/

/-- The call for a text after `before` put an instance into the cache, and the instance was held for the text until all
of the calls `between` were made. -/
structure Stays (n : Nat) (before : List String) (text : String) (i : Instance) (between : List String) : Prop where
  new : text ∉ (after n before).texts
  answer_eq : answer n before text = .ok i
  held : ∀ start, start <+: between → (text, i) ∈ (after n (before ++ text :: start)).entries

theorem Stays.append {n : Nat} {before between : List String} {text last : String} {i : Instance}
    (h : Stays n before text i between)
    (hheld : (text, i) ∈ (after n (before ++ text :: (between ++ [last]))).entries) :
    Stays n before text i (between ++ [last]) := by
  refine ⟨h.new, h.answer_eq, fun start hstart => ?_⟩
  rcases List.prefix_concat_iff.mp hstart with rfl | hstart
  · exact hheld
  · exact h.held start hstart

/-- What is held was put in by a call, and stayed. -/
theorem exists_stays {n : Nat} {calls : List String} {text : String} {i : Instance}
    (h : (text, i) ∈ (after n calls).entries) :
    ∃ before between, calls = before ++ text :: between ∧ Stays n before text i between := by
  induction calls using List.reverseRecOn with
  | nil => cases h
  | append_singleton calls last ih =>
    have hstays : (text, i) ∈ (after n calls).entries →
        ∃ before between, calls ++ [last] = before ++ text :: between ∧ Stays n before text i between := by
      intro hheld
      obtain ⟨before, between, rfl, hstays⟩ := ih hheld
      rw [List.append_assoc, List.cons_append] at h ⊢
      exact ⟨before, between ++ [last], rfl, hstays.append h⟩
    have hafter := h
    rw [after_append] at h
    rcases (after n calls).getOrParse_cases last with ⟨j, hj, he⟩ | ⟨_, _, _, he⟩ | ⟨hnew, s, _, he⟩ <;> rw [he] at h
    · rcases List.mem_cons.mp h with h | h
      · cases h
        exact hstays hj
      · exact hstays (List.mem_filter.mp h).1
    · exact hstays h
    · rcases List.mem_cons.mp (List.mem_of_mem_take h) with h | h
      · cases h
        refine ⟨calls, [], rfl, hnew, by rw [answer, he], fun start hstart => ?_⟩
        rw [List.prefix_nil.mp hstart]
        exact hafter
      · exact hstays h

/-- The numbers of the instances that are held were given before. -/
def IsNumbered (c : Cache) : Prop := ∀ e ∈ c.entries, e.2.number < c.parsed

/-- A call gives numbers one after the other, and answers with one that was given. -/
theorem IsNumbered.getOrParse {c : Cache} (h : c.IsNumbered) (text : String) :
    (c.getOrParse text).2.IsNumbered ∧ c.parsed ≤ (c.getOrParse text).2.parsed ∧
      ∀ i, (c.getOrParse text).1 = .ok i → i.number < (c.getOrParse text).2.parsed := by
  rcases c.getOrParse_cases text with ⟨i, hi, he⟩ | ⟨_, problems, _, he⟩ | ⟨_, s, _, he⟩ <;> rw [he]
  · refine ⟨fun e he => ?_, Nat.le_refl _, fun j hj => ?_⟩
    · rcases List.mem_cons.mp he with rfl | he
      · exact h _ hi
      · exact h _ (List.mem_filter.mp he).1
    · cases hj
      exact h _ hi
  · exact ⟨h, Nat.le_refl _, fun j hj => nomatch hj⟩
  · refine ⟨fun e he => ?_, Nat.le_succ _, fun j hj => ?_⟩
    · rcases List.mem_cons.mp (List.mem_of_mem_take he) with rfl | he
      · exact Nat.lt_succ_self _
      · exact Nat.lt_succ_of_lt (h _ he)
    · cases hj
      exact Nat.lt_succ_self _

theorem isNumbered_after (n : Nat) (calls : List String) : (after n calls).IsNumbered := by
  induction calls using List.reverseRecOn with
  | nil => exact fun e he => nomatch he
  | append_singleton calls text ih =>
    rw [after_append]
    exact (ih.getOrParse text).1

/-- Every instance that was ever answered has a number that was given before the next call. -/
theorem number_lt_parsed {n : Nat} {before : List String} {text : String} {i : Instance}
    (h : answer n before text = .ok i) (behind : List String) :
    i.number < (after n (before ++ text :: behind)).parsed := by
  induction behind using List.reverseRecOn with
  | nil =>
    rw [after_append]
    exact ((isNumbered_after n before).getOrParse text).2.2 i h
  | append_singleton behind last ih =>
    rw [← List.cons_append, ← List.append_assoc, after_append]
    exact Nat.lt_of_lt_of_le ih ((isNumbered_after n _).getOrParse last).2.1

/-! ## Answers -/

/-- A text that is held is answered with the instance that was put in for it and has stayed. -/
theorem answer_of_mem {n : Nat} {calls : List String} {text : String} (h : text ∈ (after n calls).texts) :
    ∃ before between i, calls = before ++ text :: between ∧ Stays n before text i between ∧
      answer n calls text = .ok i := by
  rcases (after n calls).getOrParse_cases text with ⟨i, hi, he⟩ | ⟨hnot, _⟩ | ⟨hnot, _⟩
  · obtain ⟨before, between, hcalls, hstays⟩ := exists_stays hi
    exact ⟨before, between, i, hcalls, hstays, by rw [answer, he]⟩
  · exact absurd h hnot
  · exact absurd h hnot

/-- A valid text that is not held is answered with an instance that no call was answered before. -/
theorem answer_of_not_mem {n : Nat} {calls : List String} {text : String} {s : Schema}
    (h : text ∉ (after n calls).texts) (hparse : Schema.parse text = .ok s) :
    ∃ i, answer n calls text = .ok i ∧ i.schema = s ∧ ∀ before other behind j, calls = before ++ other :: behind →
      answer n before other = .ok j → j.number ≠ i.number := by
  rcases (after n calls).getOrParse_cases text with ⟨i, hi, _⟩ | ⟨_, problems, herror, _⟩ | ⟨_, s', hok, he⟩
  · exact absurd (List.mem_map_of_mem (f := Prod.fst) hi) h
  · cases hparse.symm.trans herror
  · cases hparse.symm.trans hok
    refine ⟨_, by rw [answer, he], rfl, fun before other behind j hcalls hj => ?_⟩
    subst hcalls
    exact Nat.ne_of_lt (number_lt_parsed hj behind)

/-- A text that is not valid is answered with its problems and changes nothing. -/
theorem Holds.getOrParse_of_error {c : Cache} {used : List String} (h : c.Holds used) {text : String}
    {problems : List Diagnostic} (hparse : Schema.parse text = .error problems) :
    c.getOrParse text = (.error problems, c) := by
  rcases c.getOrParse_cases text with ⟨i, hi, _⟩ | ⟨_, problems', herror, he⟩ | ⟨_, s, hok, _⟩
  · cases hparse.symm.trans (h.parse_eq _ hi)
  · cases hparse.symm.trans herror
    exact he
  · cases hparse.symm.trans hok

/-- After any calls, a cache with room for `n` schemas holds the different valid texts that were used last, each with
its schema: `n` of them, or all. The next call parses its text exactly if it is not held. If it is held, then the answer
is the one to the call that put it in, and has stayed since. If it is not, then the answer is a schema that was never
answered before. A text that is not valid is answered with its problems and changes nothing. -/
theorem getOrParse_after (n : Nat) (calls : List String) (text : String) :
    ((after n calls).texts = (recent calls).take n ∧
      (∀ e ∈ (after n calls).entries, Schema.parse e.1 = .ok e.2.schema) ∧
      (after n calls).size = min n (calls.filter isSchemaText).toFinset.card) ∧
    (∀ log, ((after n calls).getOrParseWith parseLogged text).run log =
      ((after n calls).getOrParse text, if text ∈ (after n calls).texts then log else text :: log)) ∧
    (text ∈ (after n calls).texts → ∃ before between i, calls = before ++ text :: between ∧
      Stays n before text i between ∧ answer n calls text = .ok i) ∧
    (∀ s, text ∉ (after n calls).texts → Schema.parse text = .ok s → ∃ i, answer n calls text = .ok i ∧ i.schema = s ∧
      ∀ before other behind j, calls = before ++ other :: behind → answer n before other = .ok j →
        j.number ≠ i.number) ∧
    ∀ problems, Schema.parse text = .error problems →
      (after n calls).getOrParse text = (.error problems, after n calls) := by
  have hholds := holds_after n calls
  have htexts := hholds.texts_eq
  rw [capacity_after] at htexts
  exact ⟨⟨htexts, hholds.parse_eq, size_after n calls⟩, run_getOrParseWith_parseLogged _ _, answer_of_mem,
    fun _ => answer_of_not_mem, fun _ => hholds.getOrParse_of_error⟩

/-- With room for one schema, a text that was followed by another is parsed again, and has the only schema then. -/
theorem getOrParse_after_evicted : ∃ i j, answer 1 [] "type Query { a: Int }" = .ok i ∧
    answer 1 ["type Query { a: Int }", "type Query { b: Int }"] "type Query { a: Int }" = .ok j ∧
    i.number ≠ j.number ∧
    (after 1 ["type Query { a: Int }", "type Query { b: Int }", "type Query { a: Int }"]).texts =
      ["type Query { a: Int }"] := by
  have ha : isSchemaText "type Query { a: Int }" = true := by decide +kernel
  have hb : isSchemaText "type Query { b: Int }" = true := by decide +kernel
  have hrecent : recent ["type Query { a: Int }", "type Query { b: Int }"] =
      ["type Query { b: Int }", "type Query { a: Int }"] := by
    rw [recent, List.filter_cons_of_pos ha, List.filter_cons_of_pos hb]
    decide
  have hrecent' : recent ["type Query { a: Int }", "type Query { b: Int }", "type Query { a: Int }"] =
      ["type Query { a: Int }", "type Query { b: Int }"] := by
    rw [recent, List.filter_cons_of_pos ha, List.filter_cons_of_pos hb, List.filter_cons_of_pos ha]
    decide
  obtain ⟨s, hs⟩ := Option.isSome_iff_exists.mp ha
  have hs := Schema.eq_ok_of_toOption_eq_some hs
  obtain ⟨i, hi, -, -⟩ := (getOrParse_after 1 [] _).2.2.2.1 s List.not_mem_nil hs
  have hheld := getOrParse_after 1 ["type Query { a: Int }", "type Query { b: Int }"] "type Query { a: Int }"
  have hnot : "type Query { a: Int }" ∉ (after 1 ["type Query { a: Int }", "type Query { b: Int }"]).texts := by
    rw [hheld.1.1, hrecent]
    decide
  obtain ⟨j, hj, -, hfresh⟩ := hheld.2.2.2.1 s hnot hs
  refine ⟨i, j, hi, hj, hfresh [] _ _ i rfl hi, ?_⟩
  rw [(getOrParse_after 1 _ "").1.1, hrecent']
  rfl

end Cache

end GraphSelect
