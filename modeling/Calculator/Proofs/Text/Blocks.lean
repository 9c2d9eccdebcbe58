/-
The tokens of a text are its blocks.

Cut a text wherever two neighbours do not belong to one run.  The pieces are its maximal
blocks, blanks among them, and those that are no blanks are the tokens.  A reader that
goes through the text once need not know where a block ends before it sees the character
behind it: `Lexer.inside` is the reader in the middle of a block, and reading one character
more either makes the block longer or is the beginning of the next.
-/
import Mathlib.Data.List.SplitBy
import Calculator.Token.Run
import Calculator.Unicode.Separation

namespace Calculator

/-! ### Blocks -/

/-- The maximal runs of a text, blanks among them. -/
def runs (text : List Char) : List (List Char) :=
  text.splitBy sameRun

/-- Is the run made of blanks? -/
def isBlank (run : List Char) : Bool :=
  run.all Unicode.isWhiteSpace

/-- The blocks that are no blanks, as texts. -/
def tokensOf (blocks : List (List Char)) : List String :=
  (blocks.filter (fun block => !isBlank block)).map String.ofList

theorem tokensOf_append (blocks others : List (List Char)) :
    tokensOf (blocks ++ others) = tokensOf blocks ++ tokensOf others := by
  simp [tokensOf]

/-! ### Blanks belong to no run -/

theorem toNat_of_isNumberPart {c : Char} (h : isNumberPart c = true) :
    46 ≤ c.toNat ∧ c.toNat ≤ 57 := by
  simp only [isNumberPart, Char.isDigit, Bool.or_eq_true, Bool.and_eq_true,
    decide_eq_true_eq] at h
  rcases h with ⟨hlow, hhigh⟩ | rfl
  · have hlow : (48 : Nat) ≤ c.toNat := UInt32.le_iff_toNat_le.mp hlow
    have hhigh : c.toNat ≤ 57 := UInt32.le_iff_toNat_le.mp hhigh
    omega
  · decide

theorem not_blank_of_isNumberPart {c : Char} (h : isNumberPart c = true) :
    Unicode.isWhiteSpace c = false := by
  obtain ⟨hlow, hhigh⟩ := toNat_of_isNumberPart h
  rw [Bool.eq_false_iff]
  intro hblank
  obtain ⟨r, hr, hr1, hr2⟩ := (Unicode.isWhiteSpace_iff c).mp hblank
  simp only [Unicode.whiteSpaceRanges, List.mem_cons, List.not_mem_nil, or_false] at hr
  rcases hr with rfl | rfl | rfl | rfl | rfl | rfl | rfl | rfl | rfl | rfl
  all_goals
    simp only at hr1 hr2
    omega

theorem not_blank_of_isAlphabetic {c : Char} (h : Unicode.isAlphabetic c = true) :
    Unicode.isWhiteSpace c = false := by
  rw [Bool.eq_false_iff]
  intro hblank
  rw [Unicode.not_isAlphabetic_of_isWhiteSpace hblank] at h
  cases h

/-- Characters of one run are no blanks. -/
theorem not_blank_of_sameRun {a b : Char} (h : sameRun a b = true) :
    Unicode.isWhiteSpace a = false ∧ Unicode.isWhiteSpace b = false := by
  simp only [sameRun, Bool.or_eq_true, Bool.and_eq_true] at h
  rcases h with ⟨ha, hb⟩ | ⟨ha, hb⟩
  · exact ⟨not_blank_of_isNumberPart ha, not_blank_of_isNumberPart hb⟩
  · exact ⟨not_blank_of_isAlphabetic ha, not_blank_of_isAlphabetic hb⟩

/-- Every character of the block belongs to one run with the next. -/
def IsBlock (block : List Char) : Prop :=
  block.IsChain fun a b => sameRun a b = true

/-- A block is a single blank, or no blank is in it. -/
theorem IsBlock.blank_or {block : List Char} (h : IsBlock block) :
    (∃ c, block = [c] ∧ Unicode.isWhiteSpace c = true) ∨
      ∀ c ∈ block, Unicode.isWhiteSpace c = false := by
  match block, h with
  | [], _ => exact Or.inr (by simp)
  | [c], _ =>
      cases hc : Unicode.isWhiteSpace c with
      | true => exact Or.inl ⟨c, rfl, hc⟩
      | false => exact Or.inr (by simpa using hc)
  | a :: b :: rest, h =>
      refine Or.inr ?_
      rw [IsBlock, List.isChain_cons_cons] at h
      have hboth := not_blank_of_sameRun h.1
      have hrest : IsBlock (b :: rest) := h.2
      rcases hrest.blank_or with ⟨c, heq, hc⟩ | hnone
      · obtain ⟨rfl, -⟩ := List.cons.inj heq
        rw [hboth.2] at hc
        cases hc
      · intro c hc
        rcases List.mem_cons.mp hc with rfl | hc
        · exact hboth.1
        · exact hnone c hc

/-- What is left of a block when blanks are dropped is nothing or the block. -/
theorem IsBlock.filter_eq {block : List Char} (h : IsBlock block) :
    block.filter (fun c => !Unicode.isWhiteSpace c) = if isBlank block then [] else block := by
  rcases h.blank_or with ⟨c, rfl, hc⟩ | hnone
  · simp [isBlank, hc]
  · have hkeep : block.filter (fun c => !Unicode.isWhiteSpace c) = block :=
      List.filter_eq_self.mpr fun c hc => by simp [hnone c hc]
    rw [hkeep]
    cases block with
    | nil => rfl
    | cons c rest => simp [isBlank, hnone c List.mem_cons_self]

/-! ### Reading -/

namespace Lexer

/-- Some tokens are complete, and of the block behind them these characters have been read. -/
def inside (tokens : Array String) (block : List Char) : Lexer :=
  ⟨block.getLast?, (block.filter fun c => !Unicode.isWhiteSpace c).reverse, tokens⟩

theorem flush_inside {block : List Char} (h : IsBlock block) (tokens : Array String) :
    (inside tokens block).flush =
      ⟨block.getLast?, [], tokens ++ (tokensOf (runs block)).toArray⟩ := by
  by_cases hnil : block = []
  · subst hnil
    simp [inside, flush, runs, tokensOf]
  · have hruns : runs block = [block] := List.splitBy_of_isChain hnil h
    rw [hruns]
    cases hblank : isBlank block <;>
      simp [inside, flush, tokensOf, h.filter_eq, hblank, hnil]

/-- A character that goes on with the block makes it longer. -/
theorem read_joined {block : List Char} {c : Char}
    (h : block.getLast?.any (sameRun · c) = true) (tokens : Array String) :
    (inside tokens block).read c = inside tokens (block ++ [c]) := by
  obtain ⟨a, ha, hrun⟩ := (Option.any_eq_true _ _).mp h
  have hblank := (not_blank_of_sameRun hrun).2
  simp [inside, read, h, hblank]

/-- Any other character completes it and is the beginning of the next. -/
theorem read_parted {block : List Char} (hblock : IsBlock block) {c : Char}
    (h : block.getLast?.any (sameRun · c) = false) (tokens : Array String) :
    (inside tokens block).read c =
      inside (tokens ++ (tokensOf (runs block)).toArray) [c] := by
  have hprevious : (inside tokens block).previous = block.getLast? := rfl
  rw [read, hprevious, h, flush_inside hblock]
  cases hblank : Unicode.isWhiteSpace c <;> simp [inside, hblank]

/-- **Reading on from the middle of a block** gives the tokens of that block and of those
behind it. -/
theorem foldl_read (rest : List Char) : ∀ {block : List Char} (tokens : Array String),
    IsBlock block → (rest.foldl read (inside tokens block)).flush.tokens.toList =
      tokens.toList ++ tokensOf (runs (block ++ rest)) := by
  induction rest with
  | nil =>
      intro block tokens hblock
      rw [List.foldl_nil, flush_inside hblock]
      simp
  | cons c rest ih =>
      intro block tokens hblock
      rw [List.foldl_cons]
      cases hlast : block.getLast?.any (sameRun · c) with
      | true =>
          have hlonger : IsBlock (block ++ [c]) := by
            refine List.isChain_append.mpr ⟨hblock, List.isChain_singleton c, ?_⟩
            intro a ha b hb
            obtain ⟨a', ha', hrun⟩ := (Option.any_eq_true _ _).mp hlast
            obtain rfl := Option.some.inj (ha.symm.trans ha')
            obtain rfl := Option.some.inj hb
            exact hrun
          rw [read_joined hlast, ih _ hlonger, List.append_assoc]
          rfl
      | false =>
          have hcut : runs (block ++ c :: rest) = runs block ++ runs (c :: rest) := by
            refine List.splitBy_append_cons rest fun a ha => ?_
            rw [Bool.eq_false_iff]
            intro hrun
            rw [(Option.any_eq_true _ _).mpr ⟨a, ha, hrun⟩] at hlast
            cases hlast
          rw [read_parted hblock hlast, ih _ (List.isChain_singleton c), hcut, tokensOf_append]
          simp

end Lexer

/-- **Reading once finds the blocks that are no blanks.** -/
theorem tokenize_eq (text : String) : tokenize text = tokensOf (runs text.toList) :=
  Lexer.foldl_read text.toList #[] List.isChain_nil

end Calculator
