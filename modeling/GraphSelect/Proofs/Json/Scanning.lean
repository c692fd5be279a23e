import GraphSelect.Json.Reader
import GraphSelect.Json.Writer

/-!
# Scanning what was written

The pieces that a written text is made of are scanned into the tokens they stand for, whatever comes behind them: blanks
and new lines into nothing (`scan_newLine`), a string with its escapes into one token (`scan_writeString`), marks and
truth values into themselves.
-/

namespace GraphSelect.Json

/-! ## Blanks, marks and words -/

theorem scan_of_isBlank {c : Char} (h : isBlank c = true) (cs : List Char) : scan (c :: cs) = scan cs := by
  rw [scan, if_pos h]

/-- A token is scanned together with what follows it. -/
theorem scan_of_scanToken {c : Char} {cs rest : List Char} {token : Token} (hc : isBlank c = false)
    (h : scanToken c cs = (token, rest)) : scan (c :: cs) = token :: scan rest := by
  rw [scan, if_neg (by simp [hc]), h]

/-- Blanks are scanned into nothing. -/
theorem scan_blanks {blanks : List Char} (h : ∀ c ∈ blanks, isBlank c = true) (cs : List Char) :
    scan (blanks ++ cs) = scan cs := by
  induction blanks with
  | nil => rfl
  | cons c blanks ih =>
    obtain ⟨hc, hblanks⟩ := List.forall_mem_cons.mp h
    rw [List.cons_append, scan_of_isBlank hc, ih hblanks]

theorem scan_newLine (level : Nat) (cs : List Char) : scan (newLine level ++ cs) = scan cs := by
  refine scan_blanks (List.forall_mem_cons.mpr ⟨by decide, fun c hc => ?_⟩) cs
  rw [List.eq_of_mem_replicate hc]
  decide

theorem scan_comma (cs : List Char) : scan (',' :: cs) = .comma :: scan cs := scan_of_scanToken (by decide) rfl

theorem scan_colon (cs : List Char) : scan (':' :: cs) = .colon :: scan cs := scan_of_scanToken (by decide) rfl

theorem scan_openBrace (cs : List Char) : scan ('{' :: cs) = .openBrace :: scan cs :=
  scan_of_scanToken (by decide) rfl

theorem scan_closeBrace (cs : List Char) : scan ('}' :: cs) = .closeBrace :: scan cs :=
  scan_of_scanToken (by decide) rfl

/-- A truth value is scanned into itself. -/
theorem scan_bool (level : Nat) (b : Bool) (cs : List Char) :
    scan (writeLines level (.bool b) ++ cs) = .bool b :: scan cs := by
  cases b with
  | false => exact scan_of_scanToken (by decide) rfl
  | true => exact scan_of_scanToken (by decide) rfl

/-! ## Strings -/

theorem hexValue4?_lowerHexDigit : ∀ n < 0x20,
    Text.hexValue4? '0' '0' (Text.lowerHexDigit (n / 16)) (Text.lowerHexDigit (n % 16)) = some n := by
  decide

theorem scanString_shortEscape {c d : Char} (h : shortEscape? c = some d) (cs : List Char) :
    scanString none ('\\' :: c :: cs) = (scanString none cs).map (prepend d) := by
  have hu : c ≠ 'u' := by
    rintro rfl
    cases h
  rw [scanString]
  · simp [h, hu]
  · simp [hu]

theorem scanString_numericEscape {c : Char} (hc : c.toNat < 0x20) (cs : List Char) :
    scanString none ('\\' :: 'u' :: '0' :: '0' :: Text.lowerHexDigit (c.toNat / 16) ::
      Text.lowerHexDigit (c.toNat % 16) :: cs) = (scanString none cs).map (prepend c) := by
  have hvalue := hexValue4?_lowerHexDigit c.toNat hc
  have hlead : isLeading c.toNat = false := by simp [isLeading]; omega
  have htrail : isTrailing c.toNat = false := by simp [isTrailing]; omega
  simp [scanString, hvalue, hlead, htrail]

theorem scanString_plain {c : Char} (hquote : c ≠ '"') (hslash : c ≠ '\\') (hc : ¬ c.toNat < 0x20) (cs : List Char) :
    scanString none (c :: cs) = (scanString none cs).map (prepend c) := by
  rw [scanString]
  · simp [hquote, hslash, hc]
  · simp [hslash]
  · simp [hslash]

/-- A character that stands for itself or for an escape is read as itself. -/
theorem scanString_escapeChar (c : Char) (cs : List Char) :
    scanString none (escapeChar c ++ cs) = (scanString none cs).map (prepend c) := by
  unfold escapeChar
  -- Seven characters have a short escape of their own.
  iterate 7
    split
    · subst_vars
      exact scanString_shortEscape rfl cs
  split
  · rename_i hc
    exact scanString_numericEscape hc cs
  · rename_i hquote hslash _ _ _ _ _ hc
    exact scanString_plain hquote hslash hc cs

theorem scanString_escape (text rest : List Char) :
    scanString none (text.flatMap escapeChar ++ '"' :: rest) = .ok (text, rest) := by
  induction text with
  | nil => simp [scanString]
  | cons c text ih =>
    rw [List.flatMap_cons, List.append_assoc, scanString_escapeChar, ih]
    rfl

/-- A string is scanned into one token. -/
theorem scan_writeString (text : String) (cs : List Char) :
    scan (writeString text ++ cs) = .string text :: scan cs := by
  have hscan : scanToken '"' (text.toList.flatMap escapeChar ++ '"' :: cs) = (.string text, cs) := by
    rw [scanToken, scanString_escape]
    simp only [String.ofList_toList]
  rw [← scan_of_scanToken (by decide) hscan, writeString]
  simp

end GraphSelect.Json
