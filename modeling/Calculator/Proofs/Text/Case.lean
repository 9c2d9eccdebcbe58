/-
The case of ASCII letters in a text.

Making capitals small moves no character from one class to another: a capital and its small
letter are both letters, and nothing else changes.  So a text keeps its blocks, every token
keeps its kind, and the tokens of the lowercase text are the tokens in lowercase.
-/
import Calculator.Function.Call
import Calculator.Proofs.Text.Blocks
import Calculator.Token.Kind

namespace Calculator

/-! ### Characters -/

/-- Only capitals change, and what they become is a small letter. -/
theorem toLower_or (c : Char) :
    c.toLower = c ∨ c.isAlpha = true ∧ c.toLower.isAlpha = true := by
  unfold Char.toLower
  split
  · rename_i hcapital
    have hupper : c.isUpper = true := decide_eq_true hcapital
    refine Or.inr ⟨(Bool.or_eq_true _ _).mpr (Or.inl hupper),
      (Bool.or_eq_true _ _).mpr (Or.inr ?_)⟩
    refine (Bool.and_eq_true _ _).mpr ⟨decide_eq_true ?_, decide_eq_true ?_⟩ <;>
      grind [UInt32.toNat_add, UInt32.le_iff_toNat_le]
  · exact Or.inl rfl

/-- What all ASCII letters have in common does not depend on the case. -/
theorem eq_toLower_of_isAlpha {p : Char → Bool} {b : Bool}
    (h : ∀ c : Char, c.isAlpha = true → p c = b) (c : Char) : p c.toLower = p c := by
  rcases toLower_or c with hsame | ⟨hletter, hsmall⟩
  · rw [hsame]
  · rw [h c hletter, h _ hsmall]

theorem toNat_of_isAlpha {c : Char} (h : c.isAlpha = true) :
    65 ≤ c.toNat ∧ c.toNat ≤ 90 ∨ 97 ≤ c.toNat ∧ c.toNat ≤ 122 := by
  rcases (Bool.or_eq_true _ _).mp h with hupper | hlower
  · have hcapital : 'A'.val ≤ c.val ∧ c.val ≤ 'Z'.val := of_decide_eq_true hupper
    exact Or.inl hcapital
  · obtain ⟨hlow, hhigh⟩ := (Bool.and_eq_true _ _).mp hlower
    exact Or.inr ⟨of_decide_eq_true hlow, of_decide_eq_true hhigh⟩

theorem isAlphabetic_of_isAlpha {c : Char} (h : c.isAlpha = true) :
    Unicode.isAlphabetic c = true := by
  rw [Unicode.isAlphabetic_iff]
  rcases toNat_of_isAlpha h with hcapital | hsmall
  · exact ⟨(0x41, 0x5A), List.mem_cons_self, hcapital⟩
  · exact ⟨(0x61, 0x7A), List.mem_cons_of_mem _ List.mem_cons_self, hsmall⟩

/-- An ASCII letter is no part of a number. -/
theorem isNumberPart_of_isAlpha {c : Char} (h : c.isAlpha = true) : isNumberPart c = false := by
  rw [Bool.eq_false_iff]
  intro hnumber
  have hletter := toNat_of_isAlpha h
  have hpart := toNat_of_isNumberPart hnumber
  omega

@[simp] theorem isAlphabetic_toLower (c : Char) :
    Unicode.isAlphabetic c.toLower = Unicode.isAlphabetic c :=
  eq_toLower_of_isAlpha (fun _ => isAlphabetic_of_isAlpha) c

@[simp] theorem isWhiteSpace_toLower (c : Char) :
    Unicode.isWhiteSpace c.toLower = Unicode.isWhiteSpace c :=
  eq_toLower_of_isAlpha (fun _ h => not_blank_of_isAlphabetic (isAlphabetic_of_isAlpha h)) c

@[simp] theorem isNumberPart_toLower (c : Char) : isNumberPart c.toLower = isNumberPart c :=
  eq_toLower_of_isAlpha (fun _ => isNumberPart_of_isAlpha) c

@[simp] theorem isAlpha_toLower (c : Char) : c.toLower.isAlpha = c.isAlpha :=
  eq_toLower_of_isAlpha (fun _ h => h) c

theorem sameRun_toLower (a b : Char) : sameRun a.toLower b.toLower = sameRun a b := by
  simp only [sameRun, isNumberPart_toLower, isAlphabetic_toLower]

/-- Parts of a number have no case. -/
theorem toLower_of_isNumberPart {c : Char} (h : isNumberPart c = true) : c.toLower = c := by
  rcases toLower_or c with hsame | ⟨hletter, -⟩
  · exact hsame
  · rw [isNumberPart_of_isAlpha hletter] at h
    cases h

theorem isNumberPart_of_isDigit {c : Char} (h : c.isDigit = true) : isNumberPart c = true := by
  rw [isNumberPart, h, Bool.true_or]

theorem isDigit_toLower (c : Char) : c.toLower.isDigit = c.isDigit := by
  refine eq_toLower_of_isAlpha (b := false) (fun a hletter => ?_) c
  rw [Bool.eq_false_iff]
  intro hdigit
  have hpart := isNumberPart_of_isDigit hdigit
  rw [isNumberPart_of_isAlpha hletter] at hpart
  cases hpart

/-- A character that is no letter is the small form of itself alone. -/
theorem toLower_eq_iff {d : Char} (h : d.isAlpha = false) (c : Char) : c.toLower = d ↔ c = d := by
  rcases toLower_or c with hsame | ⟨hletter, hsmall⟩
  · rw [hsame]
  · refine iff_of_false ?_ ?_
    · rintro rfl
      rw [h] at hsmall
      cases hsmall
    · rintro rfl
      rw [h] at hletter
      cases hletter

/-! ### Texts -/

theorem toList_lowercase (text : String) :
    (lowercase text).toList = text.toList.map Char.toLower := by
  rw [lowercase, String.toList_ofList]

@[simp] theorem lowercase_append (text other : String) :
    lowercase (text ++ other) = lowercase text ++ lowercase other := by
  rw [lowercase, String.toList_append, List.map_append, String.ofList_append]
  rfl

/-- A small letter is left as it is. -/
theorem toLower_toLower (c : Char) : c.toLower.toLower = c.toLower := by
  unfold Char.toLower
  grind [UInt32.toNat_add, UInt32.le_iff_toNat_le]

@[simp] theorem lowercase_lowercase (text : String) :
    lowercase (lowercase text) = lowercase text := by
  rw [lowercase, toList_lowercase, List.map_map, lowercase]
  exact congrArg String.ofList (List.map_congr_left fun c _ => toLower_toLower c)

/-- A text without capitals is its own lowercase form. -/
theorem lowercase_eq_self {text : String}
    (h : text.toList.all (fun c => !c.isUpper) = true) : lowercase text = text := by
  rw [← String.toList_inj, toList_lowercase]
  refine (List.map_congr_left fun c hc => ?_).trans (List.map_id _)
  have hsmall := List.all_eq_true.mp h c hc
  rw [Bool.not_eq_true'] at hsmall
  exact dif_neg (of_decide_eq_false hsmall)

/-- A text without letters is the lowercase form of itself alone. -/
theorem lowercase_eq_iff {symbol : String} (h : symbol.toList.all (fun c => !c.isAlpha) = true)
    (text : String) : lowercase text = symbol ↔ text = symbol := by
  rw [← String.toList_inj, ← String.toList_inj, toList_lowercase]
  generalize text.toList = chars
  generalize symbol.toList = others at h
  induction others generalizing chars with
  | nil => rw [List.map_eq_nil_iff]
  | cons d others ih =>
      rw [List.all_cons, Bool.and_eq_true, Bool.not_eq_true'] at h
      cases chars with
      | nil => simp
      | cons c chars =>
          rw [List.map_cons, List.cons.injEq, List.cons.injEq, toLower_eq_iff h.1, ih _ h.2]

/-! ### Tokens -/

namespace Lexer

/-- What has been read, in lowercase. -/
def lowercase (l : Lexer) : Lexer :=
  ⟨l.previous.map Char.toLower, l.current.map Char.toLower, l.tokens.map Calculator.lowercase⟩

theorem flush_lowercase (l : Lexer) : l.lowercase.flush = l.flush.lowercase := by
  obtain ⟨previous, current, tokens⟩ := l
  cases current <;> simp [lowercase, flush, Calculator.lowercase]

/-- The case of a character does not matter to what is done with it. -/
theorem read_lowercase (l : Lexer) (c : Char) :
    l.lowercase.read c.toLower = (l.read c).lowercase := by
  have hjoins : l.lowercase.previous.any (sameRun · c.toLower) = l.previous.any (sameRun · c) := by
    obtain ⟨previous, current, tokens⟩ := l
    cases previous <;> simp [lowercase, sameRun_toLower]
  rw [read, read, hjoins, flush_lowercase, isWhiteSpace_toLower]
  cases l.previous.any (sameRun · c) <;> cases Unicode.isWhiteSpace c <;> rfl

end Lexer

/-- **The tokens of the lowercase text are the tokens in lowercase.** -/
theorem tokenize_lowercase (text : String) :
    tokenize (lowercase text) = (tokenize text).map lowercase := by
  have hstart : Lexer.lowercase {} = {} := by simp [Lexer.lowercase]
  have hread : text.toList.foldl (fun l c => l.read c.toLower) (Lexer.lowercase {}) =
      (text.toList.foldl Lexer.read {}).lowercase := by
    refine List.foldl_hom Lexer.lowercase ?_
    exact Lexer.read_lowercase
  rw [hstart] at hread
  calc tokenize (lowercase text)
      = (text.toList.foldl Lexer.read {}).lowercase.flush.tokens.toList := by
        rw [tokenize, toList_lowercase, List.foldl_map, hread]
    _ = (tokenize text).map lowercase := by
        rw [Lexer.flush_lowercase, tokenize]
        exact Array.toList_map

/-! ### Kinds -/

theorem Decimal.ofDigits?_lowercase (whole fraction : List Char) :
    ofDigits? (whole.map Char.toLower) (fraction.map Char.toLower) = ofDigits? whole fraction := by
  simp only [ofDigits?, ← List.map_append, List.length_map, List.isEmpty_map]
  generalize whole ++ fraction = digits
  have hall : (digits.map Char.toLower).all Char.isDigit = digits.all Char.isDigit := by
    rw [List.all_map]
    exact congrArg digits.all (funext isDigit_toLower)
  rw [hall]
  cases hdigits : digits.all Char.isDigit with
  | false => simp
  | true =>
      have hsame : digits.map Char.toLower = digits := by
        refine (List.map_congr_left fun c hc => ?_).trans (List.map_id digits)
        exact toLower_of_isNumberPart (isNumberPart_of_isDigit (List.all_eq_true.mp hdigits c hc))
      rw [hsame]

theorem Decimal.ofLiteral?_lowercase (literal : List Char) :
    ofLiteral? (literal.map Char.toLower) = ofLiteral? literal := by
  have hpoint : ((fun c => decide (c ≠ '.')) ∘ Char.toLower) = fun c => decide (c ≠ '.') := by
    funext c
    exact decide_eq_decide.mpr (not_congr (toLower_eq_iff rfl c))
  have hnone := Decimal.ofDigits?_lowercase literal []
  rw [List.map_nil] at hnone
  rw [ofLiteral?, ofLiteral?, List.dropWhile_map, List.takeWhile_map, hpoint, hnone]
  cases literal.dropWhile fun c => decide (c ≠ '.') with
  | nil => rfl
  | cons point fraction => exact Decimal.ofDigits?_lowercase _ fraction

theorem Operator.ofSymbol?_lowercase (token : String) :
    ofSymbol? (lowercase token) = ofSymbol? token := by
  refine Option.ext fun op => ?_
  rw [ofSymbol?_eq_some_iff, ofSymbol?_eq_some_iff, lowercase_eq_iff]
  cases op <;> decide

theorem isWord_lowercase (token : String) : isWord (lowercase token) = isWord token := by
  simp [isWord, toList_lowercase, Function.comp_def]

/-- **The kind of a token does not depend on the case of its letters.** -/
theorem Kind.of?_lowercase (token : String) : of? (lowercase token) = of? token := by
  have hopen : lowercase token = "(" ↔ token = "(" := lowercase_eq_iff (by decide) token
  have hclose : lowercase token = ")" ↔ token = ")" := lowercase_eq_iff (by decide) token
  have hgroup : lowercase token = "()" ↔ token = "()" := lowercase_eq_iff (by decide) token
  have hcomma : lowercase token = "," ↔ token = "," := lowercase_eq_iff (by decide) token
  unfold of?
  rw [toList_lowercase, Decimal.ofLiteral?_lowercase, Operator.ofSymbol?_lowercase,
    isWord_lowercase]
  split
  · rfl
  · split
    · rfl
    · split
      · obtain rfl := hopen.mp ‹_›
        rfl
      · obtain rfl := hclose.mp ‹_›
        rfl
      · obtain rfl := hgroup.mp ‹_›
        rfl
      · obtain rfl := hcomma.mp ‹_›
        rfl
      · simp_all

end Calculator
