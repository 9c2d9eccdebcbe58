/-
Blanks between tokens.

Tokens can be written with any blanks before, between and behind them, and with none at all
between two that would not run together.  Splitting the text gives the tokens back, so what
a text denotes does not depend on its blanks.
-/
import Calculator.Expression
import Calculator.Proofs.Text.Places

namespace Calculator

/-- Without a blank between them, the tokens would be one. -/
def Joins (token other : String) : Prop :=
  ∃ a ∈ token.toList.getLast?, ∃ b ∈ other.toList.head?, sameRun a b = true

instance (token other : String) : Decidable (Joins token other) :=
  decidable_of_iff ((token.toList.getLast?.any fun a => other.toList.head?.any (sameRun a)) = true)
    (by simp only [Joins, Option.any_eq_true, Option.mem_def])

/-- A way to write tokens with blanks around them. -/
structure Spacing where
  /-- The blanks before the first token. -/
  before : String
  /-- The tokens, each with the blanks behind it. -/
  pieces : List (String × String)
  blank_before : isBlank before.toList = true
  blank_behind : ∀ piece ∈ pieces, isBlank piece.2.toList = true
  shaped : ∀ piece ∈ pieces, IsRun piece.1
  apart : pieces.IsChain fun piece next => piece.2 = "" → ¬Joins piece.1 next.1

namespace Spacing

/-- The text that is written. -/
def text (s : Spacing) : String :=
  s.before ++ String.join (s.pieces.map fun piece => piece.1 ++ piece.2)

/-- The tokens that are written. -/
def tokens (s : Spacing) : List String :=
  s.pieces.map Prod.fst

end Spacing

/-! ### One token, and blanks -/

/-- A run is a single block. -/
theorem IsRun.isBlock {token : String} (h : IsRun token) : IsBlock token.toList := by
  obtain ⟨-, hnumber | hletter | ⟨c, rfl, -⟩⟩ := h
  · refine List.isChain_iff_getElem.mpr fun i hi => ?_
    rw [List.all_eq_true] at hnumber
    simp [sameRun, hnumber]
  · refine List.isChain_iff_getElem.mpr fun i hi => ?_
    rw [List.all_eq_true] at hletter
    simp [sameRun, hletter]
  · rw [String.toList_singleton]
    exact List.isChain_singleton c

theorem IsRun.not_blank {token : String} (h : IsRun token) :
    ∀ c ∈ token.toList, Unicode.isWhiteSpace c = false := by
  intro c hc
  obtain ⟨-, hnumber | hletter | ⟨d, rfl, halone⟩⟩ := h
  · exact not_blank_of_isNumberPart (List.all_eq_true.mp hnumber c hc)
  · exact not_blank_of_isAlphabetic (List.all_eq_true.mp hletter c hc)
  · obtain rfl : c = d := by simpa using hc
    simp only [standsAlone, Bool.and_eq_true, Bool.not_eq_true'] at halone
    exact halone.2

theorem tokenize_run {token : String} (h : IsRun token) : tokenize token = [token] := by
  have hne : token.toList ≠ [] := fun hnil => h.1 (String.toList_eq_nil_iff.mp hnil)
  have hruns : runs token.toList = [token.toList] := List.splitBy_of_isChain hne h.isBlock
  have hblank : isBlank token.toList = false := by
    obtain ⟨c, hc⟩ := List.exists_mem_of_ne_nil _ hne
    exact List.all_eq_false.mpr ⟨c, hc, by simp [h.not_blank c hc]⟩
  rw [tokenize_eq, hruns]
  simp [tokensOf, hblank]

theorem tokenize_blank {text : String} (h : isBlank text.toList = true) : tokenize text = [] := by
  have hblocks : ∀ block ∈ runs text.toList, isBlank block = true := by
    intro block hblock
    refine List.all_eq_true.mpr fun c hc => List.all_eq_true.mp h c ?_
    have hmem := List.mem_flatten_of_mem hblock hc
    rwa [runs, List.flatten_splitBy] at hmem
  rw [tokenize_eq, tokensOf, List.filter_eq_nil_iff.mpr, List.map_nil]
  intro block hblock
  simp [hblocks block hblock]

theorem sameRun_blank {a : Char} (h : Unicode.isWhiteSpace a = true) (b : Char) :
    sameRun a b = false ∧ sameRun b a = false := by
  have hnot : sameRun a b = false := by
    rw [Bool.eq_false_iff]
    intro hrun
    rw [(not_blank_of_sameRun hrun).1] at h
    cases h
  exact ⟨hnot, sameRun_comm b a ▸ hnot⟩

/-- Blanks behind a token do not change it. -/
theorem tokenize_run_blank {token blanks : String} (h : IsRun token)
    (hblanks : isBlank blanks.toList = true) : tokenize (token ++ blanks) = [token] := by
  rw [tokenize_append, tokenize_run h, tokenize_blank hblanks, List.append_nil]
  intro a _ b hb
  have hblank := List.all_eq_true.mp hblanks b (List.mem_of_mem_head? hb)
  exact (sameRun_blank hblank a).2

/-! ### All the tokens -/

/-- What is written behind a token does not change it. -/
theorem tokenize_pieces {pieces : List (String × String)}
    (hblanks : ∀ piece ∈ pieces, isBlank piece.2.toList = true)
    (hshaped : ∀ piece ∈ pieces, IsRun piece.1)
    (hapart : pieces.IsChain fun piece next => piece.2 = "" → ¬Joins piece.1 next.1) :
    tokenize (String.join (pieces.map fun piece => piece.1 ++ piece.2)) =
      pieces.map Prod.fst := by
  induction pieces with
  | nil => rfl
  | cons piece rest ih =>
      have hblank := hblanks piece List.mem_cons_self
      have hrest := ih (fun p hp => hblanks p (List.mem_cons_of_mem _ hp))
        (fun p hp => hshaped p (List.mem_cons_of_mem _ hp)) hapart.tail
      rw [List.map_cons, String.join_cons, tokenize_append,
        tokenize_run_blank (hshaped piece List.mem_cons_self) hblank, hrest]
      · rfl
      · intro a ha b hb
        rw [String.toList_append] at ha
        by_cases hnone : piece.2 = ""
        · -- The next token follows at once.
          rw [hnone, String.toList_empty, List.append_nil] at ha
          cases rest with
          | nil => cases hb
          | cons next rest =>
              have hnext : next.1.toList ≠ [] := fun hnil =>
                (hshaped next (by simp)).1 (String.toList_eq_nil_iff.mp hnil)
              rw [List.map_cons, String.join_cons, String.toList_append, String.toList_append,
                List.append_assoc, List.head?_append_of_ne_nil _ hnext] at hb
              rw [Bool.eq_false_iff]
              intro hrun
              exact (List.isChain_cons_cons.mp hapart).1 hnone ⟨a, ha, b, hb, hrun⟩
        · have hne : piece.2.toList ≠ [] := fun hnil => hnone (String.toList_eq_nil_iff.mp hnil)
          rw [List.getLast?_append_of_ne_nil _ hne] at ha
          exact (sameRun_blank (List.all_eq_true.mp hblank a (List.mem_of_getLast? ha)) b).1

namespace Spacing

theorem tokenize_text (s : Spacing) : tokenize s.text = s.tokens := by
  rw [text, tokenize_append, tokenize_blank s.blank_before,
    tokenize_pieces s.blank_behind s.shaped s.apart]
  · rfl
  · intro a ha b _
    exact (sameRun_blank (List.all_eq_true.mp s.blank_before a (List.mem_of_getLast? ha)) b).1

/-! ### Single spaces -/

/-- The tokens with a space between any two. -/
def spaced : List String → List (String × String)
  | [] => []
  | [token] => [(token, "")]
  | token :: next :: rest => (token, " ") :: spaced (next :: rest)

theorem map_fst_spaced (tokens : List String) : (spaced tokens).map Prod.fst = tokens := by
  induction tokens using spaced.induct with
  | case1 | case2 => rfl
  | case3 token next rest ih => rw [spaced, List.map_cons, ih]

theorem join_spaced (tokens : List String) :
    String.join ((spaced tokens).map fun piece => piece.1 ++ piece.2) = " ".intercalate tokens := by
  induction tokens using spaced.induct with
  | case1 => rfl
  | case2 token => simp [spaced]
  | case3 token next rest ih =>
      rw [spaced, List.map_cons, String.join_cons, ih, String.intercalate_cons_cons]

theorem blank_spaced (tokens : List String) :
    ∀ piece ∈ spaced tokens, isBlank piece.2.toList = true := by
  induction tokens using spaced.induct with
  | case1 => simp [spaced]
  | case2 token => simp [spaced, isBlank]
  | case3 token next rest ih =>
      have hspace : isBlank " ".toList = true := by decide
      rw [spaced, List.forall_mem_cons]
      exact ⟨hspace, ih⟩

theorem apart_spaced (tokens : List String) :
    (spaced tokens).IsChain fun piece next => piece.2 = "" → ¬Joins piece.1 next.1 := by
  induction tokens using spaced.induct with
  | case1 => exact List.isChain_nil
  | case2 token => exact List.isChain_singleton _
  | case3 token next rest ih =>
      have hspace : " " ≠ "" := by decide
      rw [spaced, List.isChain_cons]
      exact ⟨fun _ _ hnone => absurd hnone hspace, ih⟩

/-- Runs with a space between any two. -/
def single (tokens : List String) (h : ∀ token ∈ tokens, IsRun token) : Spacing where
  before := ""
  pieces := spaced tokens
  blank_before := rfl
  blank_behind := blank_spaced tokens
  shaped := by
    intro piece hpiece
    refine h piece.1 ?_
    rw [← map_fst_spaced tokens]
    exact List.mem_map_of_mem hpiece
  apart := apart_spaced tokens

end Spacing

/-- **Blanks make no difference.**  However tokens are spaced, splitting the text gives them
back, so any two spacings of them have the same result; and the tokens of any text are those
of the text in which they stand with single spaces between them. -/
theorem tokenize_spacing {α : Type} (m : Arithmetic α) :
    (∀ s : Spacing, tokenize s.text = s.tokens) ∧
    (∀ s t : Spacing, s.tokens = t.tokens → calculateIn m s.text = calculateIn m t.text) ∧
    ∀ text, tokenize (" ".intercalate (tokenize text)) = tokenize text := by
  refine ⟨Spacing.tokenize_text, ?_, ?_⟩
  · intro s t hsame
    show (Expression.ofTokens (tokenize s.text) >>= Expression.evaluateIn m) =
      (Expression.ofTokens (tokenize t.text) >>= Expression.evaluateIn m)
    rw [s.tokenize_text, t.tokenize_text, hsame]
  · intro text
    have hsingle := (Spacing.single (tokenize text) fun _ => isRun_of_mem_tokenize).tokenize_text
    rw [Spacing.tokens, Spacing.text, Spacing.single, Spacing.join_spaced,
      Spacing.map_fst_spaced, String.empty_append] at hsingle
    exact hsingle

/-- A number and a word touch, and a letter beyond ASCII stands between brackets and blanks. -/
theorem tokenize_spacing_touching :
    ∃ s t : Spacing, s.text = "\t 2.5ln(é ) " ∧ t.text = "2.5 ln  ( é )" ∧
      s.tokens = t.tokens ∧ tokenize s.text = ["2.5", "ln", "(", "é", ")"] ∧
      calculate s.text = calculate t.text := by
  have hnumber : IsRun "2.5" := ⟨by decide, .inl (by decide)⟩
  have hword : IsRun "ln" := ⟨by decide, .inr (.inl (by decide))⟩
  have hletter : IsRun "é" := ⟨by decide, .inr (.inl (by decide))⟩
  have hopen : IsRun "(" := ⟨by decide, .inr (.inr ⟨'(', rfl, by decide⟩)⟩
  have hclose : IsRun ")" := ⟨by decide, .inr (.inr ⟨')', rfl, by decide⟩)⟩
  let tight : Spacing :=
    { before := "\t "
      pieces := [("2.5", ""), ("ln", ""), ("(", ""), ("é", " "), (")", " ")]
      blank_before := by decide
      blank_behind := by decide
      shaped := by simp [hnumber, hword, hletter, hopen, hclose]
      apart := by decide }
  let wide : Spacing :=
    { before := ""
      pieces := [("2.5", " "), ("ln", "  "), ("(", " "), ("é", " "), (")", "")]
      blank_before := by decide
      blank_behind := by decide
      shaped := by simp [hnumber, hword, hletter, hopen, hclose]
      apart := by decide }
  obtain ⟨htokens, hsame, -⟩ := tokenize_spacing .words
  exact ⟨tight, wide, rfl, rfl, rfl, htokens tight, congrArg (Except.map _) (hsame tight wide rfl)⟩

end Calculator
