/-!
# Separated text

`split` cuts a text at each separator, so that there is always one part more than there are separators. `join` puts
the parts together again.
-/

namespace GraphSelect.Text

variable {α : Type} [DecidableEq α]

/-- The parts of a text between its separators. -/
def split (separator : α) : List α → List (List α)
  | [] => [[]]
  | c :: cs =>
    if c = separator then [] :: split separator cs
    else
      match split separator cs with
      | [] => [[c]]
      | part :: parts => (c :: part) :: parts

/-- The parts of a text with a separator between two of them. -/
def join (separator : α) : List (List α) → List α
  | [] => []
  | [part] => part
  | part :: parts => part ++ separator :: join separator parts

/-- A part without separators is split from what follows it. -/
theorem split_append {separator : α} {part : List α} (h : separator ∉ part) (cs : List α) :
    split separator (part ++ separator :: cs) = part :: split separator cs := by
  induction part with
  | nil => simp [split]
  | cons c part ih =>
    simp only [List.mem_cons, not_or] at h
    simp [split, Ne.symm h.1, ih h.2]

theorem split_of_not_mem {separator : α} {part : List α} (h : separator ∉ part) :
    split separator part = [part] := by
  induction part with
  | nil => rfl
  | cons c part ih =>
    simp only [List.mem_cons, not_or] at h
    simp [split, Ne.symm h.1, ih h.2]

/-- Splitting what was joined gives the parts, if none of them holds a separator. -/
theorem split_join {separator : α} {parts : List (List α)} (hne : parts ≠ [])
    (h : ∀ part ∈ parts, separator ∉ part) : split separator (join separator parts) = parts := by
  induction parts with
  | nil => exact absurd rfl hne
  | cons part parts ih =>
    cases parts with
    | nil => exact split_of_not_mem (h part (by simp))
    | cons p ps =>
      show split separator (part ++ separator :: join separator (p :: ps)) = _
      rw [split_append (h part (by simp)), ih (by simp) fun q hq => h q (by simp [hq])]

end GraphSelect.Text
