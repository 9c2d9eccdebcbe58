/-
Texts written one behind the other.

Where two texts meet, nothing joins them unless the characters on both sides belong to
one run.  A parenthesis belongs to no run, so parentheses around a text are tokens of
their own and the tokens of the text are what they were.
-/
import Calculator.Proofs.Text.Blocks

namespace Calculator

/-! ### Where texts meet -/

/-- The tokens of two texts follow on each other if nothing joins the texts. -/
theorem tokenize_append {s t : String}
    (h : ∀ a ∈ s.toList.getLast?, ∀ b ∈ t.toList.head?, sameRun a b = false) :
    tokenize (s ++ t) = tokenize s ++ tokenize t := by
  have hruns : runs (s ++ t).toList = runs s.toList ++ runs t.toList := by
    rw [String.toList_append]
    exact List.splitBy_append h
  rw [tokenize_eq, tokenize_eq, tokenize_eq, hruns, tokensOf_append]

/-! ### Characters that join nothing -/

/-- The character belongs to no run and is no blank. -/
def standsAlone (c : Char) : Bool :=
  !isNumberPart c && !Unicode.isAlphabetic c && !Unicode.isWhiteSpace c

theorem sameRun_eq_false {c : Char} (h : standsAlone c = true) (b : Char) :
    sameRun c b = false ∧ sameRun b c = false := by
  simp only [standsAlone, Bool.and_eq_true, Bool.not_eq_true'] at h
  obtain ⟨⟨hnumber, hletter⟩, -⟩ := h
  simp [sameRun, hnumber, hletter]

/-- Characters that stand alone are tokens one by one. -/
theorem tokenize_replicate {c : Char} (h : standsAlone c = true) (n : Nat) :
    tokenize (String.ofList (List.replicate n c)) =
      List.replicate n (String.ofList [c]) := by
  have hruns : ∀ n, runs (List.replicate n c) = List.replicate n [c] := by
    intro n
    induction n with
    | zero => rfl
    | succ n ih =>
        have hsplit : runs ([c] ++ List.replicate n c) = runs [c] ++ runs (List.replicate n c) := by
          refine List.splitBy_append fun a ha b _ => ?_
          obtain rfl : c = a := Option.some.inj ha
          exact (sameRun_eq_false h b).1
        rw [List.replicate_succ, List.replicate_succ, ← ih]
        exact hsplit
  have hblank : isBlank [c] = false := by
    simp only [standsAlone, Bool.and_eq_true, Bool.not_eq_true'] at h
    simp [isBlank, h.2]
  rw [tokenize_eq, String.toList_ofList, hruns, tokensOf, List.filter_replicate, hblank]
  simp

/-- Parentheses around a text are tokens around its tokens. -/
theorem tokenize_parentheses (text : String) (i j : Nat) :
    tokenize (String.ofList (List.replicate i '(') ++ text ++
        String.ofList (List.replicate j ')')) =
      List.replicate i "(" ++ tokenize text ++ List.replicate j ")" := by
  have hopen : standsAlone '(' = true := by decide
  have hclose : standsAlone ')' = true := by decide
  rw [tokenize_append, tokenize_append, tokenize_replicate hopen, tokenize_replicate hclose]
  · intro a ha b _
    rw [String.toList_ofList] at ha
    obtain rfl : a = '(' := List.eq_of_mem_replicate (List.mem_of_getLast? ha)
    exact (sameRun_eq_false hopen b).1
  · intro a _ b hb
    rw [String.toList_ofList] at hb
    obtain rfl : b = ')' := List.eq_of_mem_replicate (List.mem_of_mem_head? hb)
    exact (sameRun_eq_false hclose a).2

end Calculator
