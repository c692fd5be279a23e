import GraphSelect.Proofs.Cache
import Mathlib.Data.List.Count
import Mathlib.Logic.Function.Basic
import Mathlib.Logic.Function.Iterate

/-!
# Calls that share a cache

Several calls can share one cache. A call looks its text up; if it finds nothing, it parses the text; and what it parsed
it offers to the cache, which may hold a schema for the text by then. Each of these is one step (`advance`), and between
two steps of a call any steps of others may come. A call whose steps are not interrupted is `getOrParse`
(`iterate_advance`).

Whatever the order of the steps (`run`), the cache stays in order (`sound_run`): no text is held twice, and each has a
schema that was parsed from it. A schema is not replaced while its text is held (`mem_entries_append`). So all calls for
a text are answered with one schema until the text is let go (`eq_of_completes`).
-/

namespace GraphSelect

namespace Cache

/-! ## Steps of a call -/

/-- How far a call has come: it has done nothing, has found nothing, has parsed its text, or is answered. -/
inductive Phase where
  | ready
  | missed
  | parsed (i : Instance)
  | done (answer : Except (List Diagnostic) Instance)

/-- The instance that a call has parsed or is answered with. -/
def Phase.instance? : Phase → Option Instance
  | .parsed i => some i
  | .done (.ok i) => some i
  | _ => none

/-- How many steps a call has before it, at most. -/
def Phase.left : Phase → Nat
  | .ready => 3
  | .missed => 2
  | .parsed _ => 1
  | .done _ => 0

/-- The next step of a call for a text: to look it up, to parse it, or to offer what was parsed. -/
def advance (c : Cache) (text : String) : Phase → Phase × Cache
  | .ready =>
    match c.lookup text with
    | some (i, c) => (.done (.ok i), c)
    | none => (.missed, c)
  | .missed =>
    match Schema.parse text with
    | .error problems => (.done (.error problems), c)
    | .ok s => (.parsed (c.number s).1, (c.number s).2)
  | .parsed i => (.done (.ok (c.offer text i).1), (c.offer text i).2)
  | .done answer => (.done answer, c)

/-- The steps of a call that nothing comes between are those of `getOrParse`. -/
theorem iterate_advance (c : Cache) (text : String) :
    (fun x : Phase × Cache => x.2.advance text x.1)^[3] (.ready, c) =
      (.done (c.getOrParse text).1, (c.getOrParse text).2) := by
  simp only [Function.iterate_succ, Function.iterate_zero, Function.comp_apply, id]
  rw [advance, getOrParse]
  cases c.lookup text with
  | some found => rfl
  | none =>
    dsimp only
    rw [advance]
    cases Schema.parse text with
    | error problems => rfl
    | ok s => rfl

/-- What a step does: it answers with what is held for the text and moves that to the front; or it changes nothing; or
it numbers a new schema; or it puts the schema that was parsed in front and lets go of what no longer fits. -/
theorem advance_cases (c : Cache) (text : String) (p : Phase) :
    (∃ i, (p = .ready ∨ ∃ j, p = .parsed j) ∧ (text, i) ∈ c.entries ∧
      c.advance text p = (.done (.ok i), { c with entries := toFront text i c.entries })) ∨
    (p = .ready ∧ text ∉ c.texts ∧ c.advance text p = (.missed, c)) ∨
    (∃ problems, p = .missed ∧ Schema.parse text = .error problems ∧
      c.advance text p = (.done (.error problems), c)) ∨
    (∃ s, p = .missed ∧ Schema.parse text = .ok s ∧
      c.advance text p = (.parsed ⟨c.parsed, s⟩, { c with parsed := c.parsed + 1 })) ∨
    (∃ i, p = .parsed i ∧ text ∉ c.texts ∧
      c.advance text p = (.done (.ok i), { c with entries := ((text, i) :: c.entries).take c.capacity })) ∨
    (∃ answer, p = .done answer ∧ c.advance text p = (p, c)) := by
  have hlookup : (∃ i, (text, i) ∈ c.entries ∧
        c.lookup text = some (i, { c with entries := toFront text i c.entries })) ∨
      (text ∉ c.texts ∧ c.lookup text = none) := by
    unfold lookup
    cases he : c.entries.lookup text with
    | some i =>
      obtain ⟨before, behind, hentries, _⟩ := List.lookup_eq_some_iff.mp he
      exact .inl ⟨i, hentries ▸ List.mem_append_right _ List.mem_cons_self, rfl⟩
    | none => exact .inr ⟨by simp [mem_texts_iff, he], rfl⟩
  cases p with
  | ready =>
    rcases hlookup with ⟨i, hi, he⟩ | ⟨hnot, he⟩
    · exact .inl ⟨i, .inl rfl, hi, by rw [advance, he]⟩
    · exact .inr (.inl ⟨rfl, hnot, by rw [advance, he]⟩)
  | missed =>
    rw [advance]
    cases hparse : Schema.parse text with
    | error problems => exact .inr (.inr (.inl ⟨problems, rfl, rfl, rfl⟩))
    | ok s => exact .inr (.inr (.inr (.inl ⟨s, rfl, rfl, rfl⟩)))
  | parsed j =>
    rcases hlookup with ⟨i, hi, he⟩ | ⟨hnot, he⟩
    · exact .inl ⟨i, .inr ⟨j, rfl⟩, hi, by rw [advance, offer, he]⟩
    · exact .inr (.inr (.inr (.inr (.inl ⟨j, rfl, hnot, by rw [advance, offer, he]⟩))))
  | done answer => exact .inr (.inr (.inr (.inr (.inr ⟨answer, rfl, rfl⟩))))

theorem left_advance (c : Cache) (text : String) (p : Phase) : (c.advance text p).1.left ≤ p.left - 1 := by
  rcases c.advance_cases text p with ⟨i, hp, _, he⟩ | ⟨rfl, _, he⟩ | ⟨_, rfl, _, he⟩ | ⟨_, rfl, _, he⟩ |
    ⟨_, rfl, _, he⟩ | ⟨_, rfl, he⟩ <;> rw [he]
  · exact Nat.zero_le _
  · exact Nat.le_refl _
  · exact Nat.zero_le _
  · exact Nat.le_refl _
  · exact Nat.zero_le _
  · exact Nat.zero_le _

/-! ## Caches in order -/

/-- A cache is in order: no text is held twice, no more are held than fit, each has a schema that was parsed from it,
and the numbers of these schemas were given before. -/
structure IsSound (c : Cache) : Prop where
  nodup : c.texts.Nodup
  size_le : c.size ≤ c.capacity
  parse_eq : ∀ e ∈ c.entries, Schema.parse e.1 = .ok e.2.schema
  numbered : c.IsNumbered

/-- A text has one instance. -/
theorem IsSound.eq_of_mem {c : Cache} (h : c.IsSound) {text : String} {i j : Instance} (hi : (text, i) ∈ c.entries)
    (hj : (text, j) ∈ c.entries) : i = j :=
  (Prod.mk.inj (List.inj_on_of_nodup_map h.nodup hi hj rfl)).2

/-- Moving an entry to the front moves entries and nothing else. -/
theorem toFront_perm {text : String} {i : Instance} {entries : List (String × Instance)}
    (hd : (entries.map Prod.fst).Nodup) (hi : (text, i) ∈ entries) : (toFront text i entries).Perm entries := by
  obtain ⟨before, behind, rfl⟩ := List.append_of_mem hi
  rw [List.map_append, List.map_cons, List.nodup_append, List.nodup_cons] at hd
  have hbefore : before.filter (fun e => e.1 ≠ text) = before := List.filter_eq_self.mpr fun e he => by
    simpa using hd.2.2 e.1 (List.mem_map_of_mem he) text List.mem_cons_self
  have hbehind : behind.filter (fun e => e.1 ≠ text) = behind := List.filter_eq_self.mpr fun e he => by
    simpa using fun h : e.1 = text => hd.2.1.1 (List.mem_map.mpr ⟨e, he, h⟩)
  rw [toFront, List.filter_append, List.filter_cons_of_neg (by simp), hbefore, hbehind]
  exact List.perm_middle.symm

/-- What a call has come to is right for its text, and the number of its instance was given before. -/
structure Phase.Fits (c : Cache) (text : String) (p : Phase) : Prop where
  parse_eq : ∀ i, p.instance? = some i → Schema.parse text = .ok i.schema
  number_lt : ∀ i, p.instance? = some i → i.number < c.parsed
  error_eq : ∀ problems, p = .done (.error problems) → Schema.parse text = .error problems

theorem Phase.Fits.mono {c d : Cache} {text : String} {p : Phase} (h : p.Fits c text) (hle : c.parsed ≤ d.parsed) :
    p.Fits d text :=
  ⟨h.parse_eq, fun i hi => Nat.lt_of_lt_of_le (h.number_lt i hi) hle, h.error_eq⟩

/-- A call that has an instance fits its text. -/
theorem Phase.Fits.of_instance {c : Cache} {text : String} {p : Phase} {i : Instance} (hi : p.instance? = some i)
    (hparse : Schema.parse text = .ok i.schema) (hlt : i.number < c.parsed) : p.Fits c text := by
  refine ⟨fun j hj => ?_, fun j hj => ?_, fun problems hp => ?_⟩
  · cases hi.symm.trans hj
    exact hparse
  · cases hi.symm.trans hj
    exact hlt
  · rw [hp] at hi
    cases hi

theorem Phase.Fits.ready (c : Cache) (text : String) : Phase.ready.Fits c text :=
  ⟨fun _ hi => (nomatch hi), fun _ hi => (nomatch hi), fun _ hp => (nomatch hp)⟩

theorem Phase.Fits.missed (c : Cache) (text : String) : Phase.missed.Fits c text :=
  ⟨fun _ hi => (nomatch hi), fun _ hi => (nomatch hi), fun _ hp => (nomatch hp)⟩

/-- A step keeps the cache in order and the call fitting its text. Room is not lost, and no number is given again. -/
theorem IsSound.advance {c : Cache} (h : c.IsSound) {text : String} {p : Phase} (hp : p.Fits c text) :
    (c.advance text p).2.IsSound ∧ (c.advance text p).1.Fits (c.advance text p).2 text ∧
      c.parsed ≤ (c.advance text p).2.parsed ∧ (c.advance text p).2.capacity = c.capacity := by
  rcases c.advance_cases text p with ⟨i, _, hi, he⟩ | ⟨_, _, he⟩ | ⟨problems, _, hparse, he⟩ | ⟨s, _, hparse, he⟩ |
    ⟨i, rfl, hnot, he⟩ | ⟨answer, _, he⟩ <;> rw [he]
  · have hperm := toFront_perm h.nodup hi
    have hmem : ∀ e, e ∈ toFront text i c.entries → e ∈ c.entries := fun e he => hperm.mem_iff.mp he
    exact ⟨⟨(hperm.map Prod.fst).nodup_iff.mpr h.nodup, hperm.length_eq.trans_le h.size_le,
      fun e he => h.parse_eq e (hmem e he), fun e he => h.numbered e (hmem e he)⟩,
      .of_instance rfl (h.parse_eq _ hi) (h.numbered _ hi), Nat.le_refl _, rfl⟩
  · exact ⟨h, .missed _ _, Nat.le_refl _, rfl⟩
  · refine ⟨h, ⟨fun _ hi => (nomatch hi), fun _ hi => (nomatch hi), fun problems' hp => ?_⟩, Nat.le_refl _, rfl⟩
    cases hp
    exact hparse
  · exact ⟨⟨h.nodup, h.size_le, h.parse_eq, fun e he => Nat.lt_succ_of_lt (h.numbered e he)⟩,
      .of_instance rfl hparse (Nat.lt_succ_self _), Nat.le_succ _, rfl⟩
  · have hcons : ∀ e, e ∈ ((text, i) :: c.entries).take c.capacity → e = (text, i) ∨ e ∈ c.entries :=
      fun e he => List.mem_cons.mp (List.mem_of_mem_take he)
    refine ⟨⟨?_, ?_, fun e he => ?_, fun e he => ?_⟩, .of_instance rfl (hp.parse_eq i rfl) (hp.number_lt i rfl),
      Nat.le_refl _, rfl⟩
    · exact ((List.take_sublist _ _).map Prod.fst).nodup (List.nodup_cons.mpr ⟨hnot, h.nodup⟩)
    · exact List.length_take_le _ _
    · rcases hcons e he with rfl | he
      · exact hp.parse_eq i rfl
      · exact h.parse_eq e he
    · rcases hcons e he with rfl | he
      · exact hp.number_lt i rfl
      · exact h.numbered e he
  · exact ⟨h, hp, Nat.le_refl _, rfl⟩

/-- A schema is not replaced while its text is held. -/
theorem IsSound.mem_entries_advance {c : Cache} (h : c.IsSound) {text s : String} {i : Instance} (p : Phase)
    (hi : (s, i) ∈ c.entries) (hs : s ∈ (c.advance text p).2.texts) : (s, i) ∈ (c.advance text p).2.entries := by
  rcases c.advance_cases text p with ⟨j, _, hj, he⟩ | ⟨_, _, he⟩ | ⟨problems, _, _, he⟩ | ⟨_, _, _, he⟩ |
    ⟨j, _, hnot, he⟩ | ⟨answer, _, he⟩ <;> rw [he] at hs ⊢
  · exact (toFront_perm h.nodup hj).mem_iff.mpr hi
  · exact hi
  · exact hi
  · exact hi
  · -- What is held for `s` now was held before, as the new entry is for another text.
    obtain ⟨⟨_, k⟩, hk, rfl⟩ := List.mem_map.mp hs
    rcases List.mem_cons.mp (List.mem_of_mem_take hk) with he | hk'
    · cases he
      exact absurd (List.mem_map_of_mem (f := Prod.fst) hi) hnot
    · rw [h.eq_of_mem hi hk']
      exact hk
  · exact hi

/-! ## Calls in any order -/

/-- A cache and the calls that share it. -/
structure Shared (ι : Type) where
  cache : Cache
  phase : ι → Phase

namespace Shared

variable {ι : Type} [DecidableEq ι] (text : ι → String)

/-- The next step of one of the calls. -/
def step (σ : Shared ι) (k : ι) : Shared ι :=
  ⟨(σ.cache.advance (text k) (σ.phase k)).2, Function.update σ.phase k (σ.cache.advance (text k) (σ.phase k)).1⟩

/-- The calls that share a cache with room for `n` schemas, after some steps: the calls that make them, in order. -/
def run (n : Nat) (steps : List ι) : Shared ι := steps.foldl (step text) ⟨.empty n, fun _ => .ready⟩

theorem run_concat (n : Nat) (steps : List ι) (k : ι) : run text n (steps ++ [k]) = (run text n steps).step text k := by
  rw [run, List.foldl_append]
  rfl

theorem phase_step_self (σ : Shared ι) (k : ι) :
    (σ.step text k).phase k = (σ.cache.advance (text k) (σ.phase k)).1 :=
  Function.update_self ..

theorem phase_step_of_ne (σ : Shared ι) {k l : ι} (h : l ≠ k) : (σ.step text k).phase l = σ.phase l :=
  Function.update_of_ne h ..

/-- The cache is in order, and what each call has come to fits its text. -/
structure Sound (n : Nat) (σ : Shared ι) : Prop where
  capacity_eq : σ.cache.capacity = n
  isSound : σ.cache.IsSound
  fits : ∀ k, (σ.phase k).Fits σ.cache (text k)

variable {text}

theorem Sound.step {n : Nat} {σ : Shared ι} (h : Sound text n σ) (k : ι) : Sound text n (σ.step text k) := by
  obtain ⟨hsound, hfits, hle, hcapacity⟩ := h.isSound.advance (h.fits k)
  refine ⟨hcapacity.trans h.capacity_eq, hsound, fun l => ?_⟩
  by_cases hl : l = k
  · subst hl
    rw [phase_step_self]
    exact hfits
  · rw [phase_step_of_ne text σ hl]
    exact (h.fits l).mono hle

variable (text) in
/-- After any steps in any order the cache is in order, and all calls fit their texts. -/
theorem sound_run (n : Nat) (steps : List ι) : Sound text n (run text n steps) := by
  induction steps using List.reverseRecOn with
  | nil =>
    exact ⟨rfl, ⟨List.nodup_nil, Nat.zero_le _, fun _ he => (nomatch he), fun _ he => (nomatch he)⟩,
      fun _ => .ready _ _⟩
  | append_singleton steps k ih =>
    rw [run_concat]
    exact ih.step k

/-- Calls that are made one after the other, without interruption, leave what the same calls of `getOrParse` leave. -/
theorem run_flatMap_replicate (n : Nat) : ∀ ks : List ι, ks.Nodup →
    (run text n (ks.flatMap (List.replicate 3))).cache = after n (ks.map text) ∧
      ∀ k ∉ ks, (run text n (ks.flatMap (List.replicate 3))).phase k = .ready := by
  intro ks hd
  induction ks using List.reverseRecOn with
  | nil => exact ⟨rfl, fun _ _ => rfl⟩
  | append_singleton ks k ih =>
    obtain ⟨hks, _, hk⟩ := List.nodup_append.mp hd
    obtain ⟨hcache, hready⟩ := ih hks
    have hkready := hready k fun hm => hk k hm k (List.mem_singleton_self k) rfl
    have hsteps := congrArg Prod.snd (iterate_advance (after n (ks.map text)) (text k))
    generalize hσ : run text n (ks.flatMap (List.replicate 3)) = σ at hcache hready hkready
    have hrun : run text n ((ks ++ [k]).flatMap (List.replicate 3)) =
        ((σ.step text k).step text k).step text k := by
      rw [List.flatMap_append, ← hσ, run, List.foldl_append]
      rfl
    rw [hrun, List.map_append, List.map_singleton, after_append]
    refine ⟨?_, fun l hl => ?_⟩
    · rw [← hsteps, ← hcache]
      simp only [Shared.step, Function.update_self, hkready, Function.iterate_succ, Function.iterate_zero,
        Function.comp_apply, id]
    · rw [List.mem_append, List.mem_singleton, not_or] at hl
      rw [phase_step_of_ne text _ hl.2, phase_step_of_ne text _ hl.2, phase_step_of_ne text _ hl.2]
      exact hready l hl.1

/-! ## Texts that are let go -/

variable (text) in
/-- A text is let go in one of some steps that follow others. -/
def LetsGo (n : Nat) (before between : List ι) (s : String) : Prop :=
  ∃ start k, start ++ [k] <+: between ∧ s ∈ (run text n (before ++ start)).cache.texts ∧
    s ∉ (run text n (before ++ (start ++ [k]))).cache.texts

theorem LetsGo.of_prefix {n : Nat} {before start between : List ι} {s : String} (h : LetsGo text n before start s)
    (hstart : start <+: between) : LetsGo text n before between s := by
  obtain ⟨first, k, hfirst, hheld, hgone⟩ := h
  exact ⟨first, k, hfirst.trans hstart, hheld, hgone⟩

/-- Until a text is let go, it keeps its schema. -/
theorem mem_entries_append {n : Nat} {before between : List ι} {s : String} {i : Instance}
    (hi : (s, i) ∈ (run text n before).cache.entries) (hstays : ¬ LetsGo text n before between s) :
    (s, i) ∈ (run text n (before ++ between)).cache.entries := by
  induction between using List.reverseRecOn with
  | nil => rwa [List.append_nil]
  | append_singleton between k ih =>
    have hheld := ih fun h => hstays (h.of_prefix (List.prefix_append _ _))
    have htext : s ∈ (run text n (before ++ (between ++ [k]))).cache.texts := by
      by_contra hgone
      exact hstays ⟨between, k, List.prefix_refl _, List.mem_map_of_mem (f := Prod.fst) hheld, hgone⟩
    rw [← List.append_assoc, run_concat] at htext ⊢
    exact (sound_run text n _).isSound.mem_entries_advance _ hheld htext

/-! ## Answers -/

variable (text) in
/-- The step of a call that comes after some others is its last, and the call is answered then. -/
def Completes (n : Nat) (before : List ι) (k : ι) (answer : Except (List Diagnostic) Instance) : Prop :=
  (∀ earlier, (run text n before).phase k ≠ .done earlier) ∧ (run text n (before ++ [k])).phase k = .done answer

/-- An answered call was completed by one of the steps. -/
theorem exists_completes {n : Nat} {steps : List ι} {k : ι} {answer : Except (List Diagnostic) Instance}
    (h : (run text n steps).phase k = .done answer) :
    ∃ before behind, steps = before ++ k :: behind ∧ Completes text n before k answer := by
  induction steps using List.reverseRecOn with
  | nil => cases h
  | append_singleton steps l ih =>
    -- If the call was answered before the last step, then that step has kept the answer.
    have hkept : (run text n steps).phase k = .done answer →
        ∃ before behind, steps ++ [l] = before ++ k :: behind ∧ Completes text n before k answer := by
      intro hdone
      obtain ⟨before, behind, rfl, hcompletes⟩ := ih hdone
      exact ⟨before, behind ++ [l], by rw [List.append_assoc, List.cons_append], hcompletes⟩
    have hlast := h
    rw [run_concat] at h
    by_cases hl : k = l
    · subst hl
      by_cases hdone : ∃ earlier, (run text n steps).phase k = .done earlier
      · obtain ⟨earlier, hearlier⟩ := hdone
        rw [phase_step_self, hearlier, advance] at h
        exact hkept (hearlier.trans h)
      · exact ⟨steps, [], rfl, not_exists.mp hdone, hlast⟩
    · rw [phase_step_of_ne text _ hl] at h
      exact hkept h

/-- An answer is the schema of the text, or its problems. -/
theorem map_schema_of_done {n : Nat} {steps : List ι} {k : ι} {answer : Except (List Diagnostic) Instance}
    (h : (run text n steps).phase k = .done answer) : answer.map Instance.schema = Schema.parse (text k) := by
  have hfits := (sound_run text n steps).fits k
  rw [h] at hfits
  cases answer with
  | error problems => exact (hfits.error_eq problems rfl).symm
  | ok i => exact (hfits.parse_eq i rfl).symm

/-- What a call is answered with is held for its text then. -/
theorem Completes.mem_entries {n : Nat} (hn : 0 < n) {before : List ι} {k : ι} {i : Instance}
    (h : Completes text n before k (.ok i)) : (text k, i) ∈ (run text n (before ++ [k])).cache.entries := by
  obtain ⟨hnot, hdone⟩ := h
  have hcapacity := (sound_run text n before).capacity_eq
  rw [run_concat, phase_step_self] at hdone
  rw [run_concat]
  show (text k, i) ∈ ((run text n before).cache.advance (text k) ((run text n before).phase k)).2.entries
  rcases (run text n before).cache.advance_cases (text k) ((run text n before).phase k) with ⟨j, _, _, he⟩ |
    ⟨_, _, he⟩ | ⟨_, _, _, he⟩ | ⟨_, _, _, he⟩ | ⟨j, _, _, he⟩ | ⟨answer, hp, _⟩
  · rw [he] at hdone ⊢
    cases hdone
    exact List.mem_cons_self
  · rw [he] at hdone
    cases hdone
  · rw [he] at hdone
    cases hdone
  · rw [he] at hdone
    cases hdone
  · rw [he] at hdone ⊢
    cases hdone
    obtain ⟨m, hm⟩ : ∃ m, (run text n before).cache.capacity = m + 1 :=
      Nat.exists_eq_succ_of_ne_zero (by omega)
    show (text k, i) ∈ ((text k, i) :: (run text n before).cache.entries).take _
    rw [hm, List.take_succ_cons]
    exact List.mem_cons_self
  · exact absurd hp (hnot answer)

/-- A call that completes while a schema is held for its text is answered with that schema. -/
theorem Completes.eq_of_mem {n : Nat} {before : List ι} {k : ι} {answer : Except (List Diagnostic) Instance}
    (h : Completes text n before k answer) {i : Instance} (hi : (text k, i) ∈ (run text n before).cache.entries) :
    answer = .ok i := by
  obtain ⟨hnot, hdone⟩ := h
  have hsound := (sound_run text n before).isSound
  rw [run_concat, phase_step_self] at hdone
  rcases (run text n before).cache.advance_cases (text k) ((run text n before).phase k) with ⟨j, _, hj, he⟩ |
    ⟨_, _, he⟩ | ⟨problems, _, hparse, _⟩ | ⟨_, _, _, he⟩ | ⟨_, _, hgone, _⟩ | ⟨earlier, hp, _⟩
  · rw [he] at hdone
    cases hdone
    rw [hsound.eq_of_mem hi hj]
  · rw [he] at hdone
    cases hdone
  · cases hparse.symm.trans (hsound.parse_eq _ hi)
  · rw [he] at hdone
    cases hdone
  · exact absurd (List.mem_map_of_mem (f := Prod.fst) hi) hgone
  · exact absurd hp (hnot earlier)

/-- Two calls for one text have the same answer, unless the text was let go between the steps that completed them. -/
theorem eq_of_completes {n : Nat} (hn : 0 < n) {before between : List ι} {k l : ι}
    {answer answer' : Except (List Diagnostic) Instance} (hk : Completes text n before k answer)
    (hl : Completes text n (before ++ k :: between) l answer') (htext : text l = text k)
    (hstays : ¬ LetsGo text n (before ++ [k]) between (text k)) : answer' = answer := by
  cases answer with
  | ok i =>
    have hheld := mem_entries_append (hk.mem_entries hn) hstays
    rw [List.append_assoc, List.singleton_append, ← htext] at hheld
    exact hl.eq_of_mem hheld
  | error problems =>
    have hparse := map_schema_of_done hk.2
    have hparse' := map_schema_of_done hl.2
    rw [htext, ← hparse] at hparse'
    cases answer' with
    | ok i => cases hparse'
    | error problems' =>
      cases hparse'
      rfl

/-! ## Progress -/

/-- Each step of a call brings it nearer to its answer. -/
theorem left_run (n : Nat) (steps : List ι) (k : ι) : ((run text n steps).phase k).left ≤ 3 - steps.count k := by
  induction steps using List.reverseRecOn with
  | nil => exact Nat.le_refl _
  | append_singleton steps l ih =>
    rw [run_concat, List.count_append, List.count_singleton]
    by_cases hl : k = l
    · subst hl
      have hstep := left_advance (run text n steps).cache (text k) ((run text n steps).phase k)
      rw [phase_step_self, beq_self_eq_true, if_pos rfl]
      omega
    · rw [phase_step_of_ne text _ hl, beq_eq_false_iff_ne.mpr (Ne.symm hl)]
      exact ih

/-- A call that has made three steps is answered. -/
theorem exists_done {n : Nat} {steps : List ι} {k : ι} (h : 3 ≤ steps.count k) :
    ∃ answer, (run text n steps).phase k = .done answer := by
  have hleft : ((run text n steps).phase k).left ≤ 3 - steps.count k := left_run n steps k
  have hzero : ((run text n steps).phase k).left = 0 := by omega
  cases hp : (run text n steps).phase k with
  | done answer => exact ⟨answer, rfl⟩
  | ready => simp [hp, Phase.left] at hzero
  | missed => simp [hp, Phase.left] at hzero
  | parsed i => simp [hp, Phase.left] at hzero

/-! ## All steps -/

/-- A call for a text that is not valid leaves the cache as it is. -/
theorem cache_run_concat_of_error {n : Nat} {steps : List ι} {k : ι} {problems : List Diagnostic}
    (hparse : Schema.parse (text k) = .error problems) :
    (run text n (steps ++ [k])).cache = (run text n steps).cache := by
  have hsound := sound_run text n steps
  rw [run_concat]
  show ((run text n steps).cache.advance (text k) ((run text n steps).phase k)).2 = _
  rcases (run text n steps).cache.advance_cases (text k) ((run text n steps).phase k) with ⟨j, _, hj, _⟩ |
    ⟨_, _, he⟩ | ⟨_, _, _, he⟩ | ⟨s, _, hok, _⟩ | ⟨i, hp, _, _⟩ | ⟨_, _, he⟩
  · cases hparse.symm.trans (hsound.isSound.parse_eq _ hj)
  · rw [he]
  · rw [he]
  · cases hparse.symm.trans hok
  · have hfits := hsound.fits k
    rw [hp] at hfits
    cases hparse.symm.trans (hfits.parse_eq i rfl)
  · rw [he]

/-- A schema that a call has parsed is a new one: no text is held with it, and no call has parsed it or is answered with
it. -/
theorem number_ne_of_parsed {n : Nat} {steps : List ι} {k : ι} {i : Instance}
    (hmissed : (run text n steps).phase k = .missed) (hparsed : (run text n (steps ++ [k])).phase k = .parsed i) :
    (∀ e ∈ (run text n steps).cache.entries, e.2.number ≠ i.number) ∧
      ∀ l j, ((run text n steps).phase l).instance? = some j → j.number ≠ i.number := by
  have hsound := sound_run text n steps
  have hnumber : i.number = (run text n steps).cache.parsed := by
    rw [run_concat, phase_step_self, hmissed, advance] at hparsed
    cases hparse : Schema.parse (text k) with
    | error problems => simp [hparse] at hparsed
    | ok s =>
      rw [hparse] at hparsed
      cases hparsed
      rfl
  rw [hnumber]
  exact ⟨fun e he => Nat.ne_of_lt (hsound.isSound.numbered e he),
    fun l j hj => Nat.ne_of_lt ((hsound.fits l).number_lt j hj)⟩

/-- Calls for texts share a cache with room for `n` schemas, and take their steps in any order. After any steps, the
cache holds no text twice and at most `n` texts, each with a schema that was parsed from it, and until a text is let go
its schema stays the same. Every schema that is parsed is a new one. A call is answered after three steps of its own:
with a schema parsed from its text or with the problems of the text, and in the second case it never changed the cache.
A call that completes while a schema is held for its text is answered with that, even if it has parsed one itself. So
two calls for one text are answered with the same schema, unless the text was let go between the steps that completed
them. -/
theorem run_shares (text : ι → String) (n : Nat) (steps : List ι) :
    ((run text n steps).cache.texts.Nodup ∧ (run text n steps).cache.size ≤ n ∧
      ∀ e ∈ (run text n steps).cache.entries, Schema.parse e.1 = .ok e.2.schema) ∧
    (∀ s i behind, (s, i) ∈ (run text n steps).cache.entries → ¬ LetsGo text n steps behind s →
      (s, i) ∈ (run text n (steps ++ behind)).cache.entries) ∧
    (∀ k i, (run text n steps).phase k = .missed → (run text n (steps ++ [k])).phase k = .parsed i →
      (∀ e ∈ (run text n steps).cache.entries, e.2.number ≠ i.number) ∧
        ∀ l j, ((run text n steps).phase l).instance? = some j → j.number ≠ i.number) ∧
    (∀ k, 3 ≤ steps.count k → ∃ answer, (run text n steps).phase k = .done answer) ∧
    (∀ k answer, (run text n steps).phase k = .done answer → answer.map Instance.schema = Schema.parse (text k) ∧
      ∃ before behind, steps = before ++ k :: behind ∧ Completes text n before k answer) ∧
    (∀ k problems, Schema.parse (text k) = .error problems →
      (run text n (steps ++ [k])).cache = (run text n steps).cache) ∧
    (∀ k i answer, Completes text n steps k answer → (text k, i) ∈ (run text n steps).cache.entries →
      answer = .ok i) ∧
    ∀ k l between answer answer', 0 < n → Completes text n steps k answer →
      Completes text n (steps ++ k :: between) l answer' → text l = text k →
      ¬ LetsGo text n (steps ++ [k]) between (text k) → answer' = answer := by
  have hsound := sound_run text n steps
  refine ⟨⟨hsound.isSound.nodup, hsound.isSound.size_le.trans_eq hsound.capacity_eq,
    hsound.isSound.parse_eq⟩,
    fun s i behind => mem_entries_append, fun k i => number_ne_of_parsed, fun k => exists_done,
    fun k answer h => ⟨map_schema_of_done h, exists_completes h⟩, fun k problems => cache_run_concat_of_error,
    fun k i answer h => h.eq_of_mem, fun k l between answer answer' hn => eq_of_completes hn⟩

/-- Two calls for one text both parse it. The first one to offer its schema is answered with it, and so is the other. -/
theorem run_shares_race : ∃ (text : Bool → String) (i j : Instance), text true = text false ∧
    (run text 1 [true, false, true, false]).phase true = .parsed i ∧
    (run text 1 [true, false, true, false]).phase false = .parsed j ∧ i.number ≠ j.number ∧
    Completes text 1 [true, false, true, false] true (.ok i) ∧
    Completes text 1 [true, false, true, false, true] false (.ok i) := by
  have hvalid : isSchemaText "type Query { a: Int }" = true := by decide +kernel
  obtain ⟨s, hs⟩ := Option.isSome_iff_exists.mp hvalid
  have hs := Schema.eq_ok_of_toOption_eq_some hs
  let text : Bool → String := fun _ => "type Query { a: Int }"
  -- Both calls have missed, and both have parsed.
  have hrun : run text 1 [true, false, true, false] =
      ⟨⟨1, [], 2⟩, fun k => if k then .parsed ⟨0, s⟩ else .parsed ⟨1, s⟩⟩ := by
    rw [run, List.foldl_cons, List.foldl_cons, List.foldl_cons, List.foldl_cons, List.foldl_nil]
    simp only [step, advance, lookup, number, empty, hs, text, Function.update_self, ne_eq, Bool.true_eq_false,
      Bool.false_eq_true, not_false_eq_true, Function.update_of_ne, List.lookup_nil]
    congr 1
    funext k
    cases k <;> rfl
  have hfirst : Completes text 1 [true, false, true, false] true (.ok ⟨0, s⟩) := by
    refine ⟨fun earlier => ?_, ?_⟩
    · rw [hrun]
      simp
    · rw [run_concat, phase_step_self, hrun]
      rfl
  obtain ⟨answer, hdone⟩ :=
    (run_shares text 1 [true, false, true, false, true, false]).2.2.2.1 false (by decide)
  have hsecond : Completes text 1 [true, false, true, false, true] false answer := by
    refine ⟨fun earlier => ?_, hdone⟩
    show (run text 1 ([true, false, true, false] ++ [true])).phase false ≠ _
    rw [run_concat, phase_step_of_ne _ _ Bool.false_ne_true, hrun]
    simp
  have hkept : ¬ LetsGo text 1 ([true, false, true, false] ++ [true]) [] (text true) := by
    rintro ⟨_, _, hstart, _⟩
    simp at hstart
  obtain rfl := (run_shares text 1 [true, false, true, false]).2.2.2.2.2.2.2 true false [] _ _ Nat.one_pos hfirst
    hsecond rfl hkept
  exact ⟨text, ⟨0, s⟩, ⟨1, s⟩, rfl, by rw [hrun]; rfl, by rw [hrun]; rfl, Nat.zero_ne_one, hfirst, hsecond⟩

end Shared

end Cache

end GraphSelect
