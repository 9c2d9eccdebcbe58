/-
Which characters of a text make a token together.

Tokens keep the characters of a text that are no blanks, in their order, so the character
at a place of the text is found in the tokens by counting the ones before it.  With that,
what the tokens of a text are can be said without blocks: two characters are in one token
if they are neighbours of one run, and they are not if something parts them.

There is only one list of tokens of which this holds.  Between two characters that follow
on each other in the tokens there are at most blanks in the text, so the text decides
whether a token ends there.
-/
import Calculator.Proofs.Text.Runs

namespace Calculator

/-! ### Places -/

/-- A character that is no blank stands at the place. -/
def Visible (text : List Char) (i : Nat) : Prop :=
  ∃ c, text[i]? = some c ∧ Unicode.isWhiteSpace c = false

/-- A blank stands at the place. -/
def BlankAt (text : List Char) (i : Nat) : Prop :=
  ∃ c, text[i]? = some c ∧ Unicode.isWhiteSpace c = true

/-- The character at the place and the one behind it belong to one run. -/
def Adjoins (text : List Char) (i : Nat) : Prop :=
  ∃ a b, text[i]? = some a ∧ text[i + 1]? = some b ∧ sameRun a b = true

/-- From the one place to the other there is a blank, or a change from one run to another. -/
def Parted (text : List Char) (i j : Nat) : Prop :=
  ∃ k, i ≤ k ∧ k < j ∧ (BlankAt text k ∨ ¬Adjoins text k)

/-- How many characters before the place are no blanks. -/
def rank (text : List Char) (i : Nat) : Nat :=
  (text.take i).countP fun c => !Unicode.isWhiteSpace c

/-- The number of the token that holds the `n`-th of all the characters of the tokens. -/
def holder : List String → Nat → Nat
  | [], _ => 0
  | token :: rest, n => if n < token.length then 0 else holder rest (n - token.length) + 1

/-- The number of the token that holds the character at the place of the text. -/
def tokenAt (text : List Char) (tokens : List String) (i : Nat) : Nat :=
  holder tokens (rank text i)

/-- The token is a run of digits and points, or a run of letters, or a single other character
that is no blank.  It is never empty. -/
def IsRun (token : String) : Prop :=
  token ≠ "" ∧ (token.toList.all isNumberPart = true ∨
    token.toList.all Unicode.isAlphabetic = true ∨
    ∃ c, token = String.singleton c ∧ standsAlone c = true)

/-- The tokens are those of the text. -/
structure AreTokens (text : List Char) (tokens : List String) : Prop where
  /-- Each is a run. -/
  shaped : ∀ token ∈ tokens, IsRun token
  /-- Only blanks are lost, and nothing is moved. -/
  chars : tokens.flatMap String.toList = text.filter fun c => !Unicode.isWhiteSpace c
  /-- Neighbours of one run are in one token. -/
  joined : ∀ i, Adjoins text i → tokenAt text tokens i = tokenAt text tokens (i + 1)
  /-- Characters that something parts are not. -/
  parted : ∀ i j, i < j → Visible text i → Visible text j → Parted text i j →
    tokenAt text tokens i ≠ tokenAt text tokens j

theorem adjoins_visible {text : List Char} {i : Nat} (h : Adjoins text i) :
    Visible text i ∧ Visible text (i + 1) := by
  obtain ⟨a, b, ha, hb, hrun⟩ := h
  exact ⟨⟨a, ha, (not_blank_of_sameRun hrun).1⟩, ⟨b, hb, (not_blank_of_sameRun hrun).2⟩⟩

theorem BlankAt.not_adjoins {text : List Char} {i : Nat} (h : BlankAt text i) :
    ¬Adjoins text i := by
  intro hadjoins
  obtain ⟨c, hc, hblank⟩ := h
  obtain ⟨d, hd, hnot⟩ := (adjoins_visible hadjoins).1
  obtain rfl := Option.some.inj (hc.symm.trans hd)
  rw [hblank] at hnot
  cases hnot

/-! ### Behind a part of the text -/

section Behind

variable (part rest : List Char) (i : Nat)

theorem getElem?_behind : (part ++ rest)[part.length + i]? = rest[i]? := by
  rw [List.getElem?_append_right (Nat.le_add_right _ _), Nat.add_sub_cancel_left]

theorem visible_behind : Visible (part ++ rest) (part.length + i) ↔ Visible rest i := by
  simp only [Visible, getElem?_behind]

theorem adjoins_behind : Adjoins (part ++ rest) (part.length + i) ↔ Adjoins rest i := by
  simp only [Adjoins, Nat.add_assoc, getElem?_behind]

theorem rank_behind : rank (part ++ rest) (part.length + i) =
    (part.countP fun c => !Unicode.isWhiteSpace c) + rank rest i := by
  rw [rank, List.take_append, Nat.add_sub_cancel_left,
    List.take_of_length_le (Nat.le_add_right _ _), List.countP_append]
  rfl

end Behind

/-! ### Places in blocks -/

/-- The lists are the blocks of the text they make. -/
structure AreBlocks (blocks : List (List Char)) : Prop where
  nonempty : [] ∉ blocks
  joined : ∀ block ∈ blocks, IsBlock block
  parted : blocks.IsChain fun a b => ∃ ha hb, sameRun (a.getLast ha) (b.head hb) = false

theorem areBlocks_runs (text : List Char) : AreBlocks (runs text) where
  nonempty := List.nil_notMem_splitBy sameRun text
  joined := fun _ => List.isChain_of_mem_splitBy
  parted := List.isChain_getLast_head_splitBy sameRun text

section Blocks

variable {block : List Char} {blocks : List (List Char)} {i j : Nat}

/-- Characters of a block that is no blank are in the first token from there on. -/
theorem tokenAt_within (hblank : isBlank block = false) (hi : i < block.length)
    (rest : List Char) : tokenAt (block ++ rest) (tokensOf (block :: blocks)) i = 0 := by
  have hrank : rank (block ++ rest) i < block.length := by
    have hcount : rank (block ++ rest) i ≤ ((block ++ rest).take i).length :=
      List.countP_le_length
    rw [List.length_take] at hcount
    omega
  have htokens : tokensOf (block :: blocks) = String.ofList block :: tokensOf blocks := by
    simp [tokensOf, hblank]
  rw [tokenAt, htokens, holder, if_pos]
  simpa using hrank

/-- Behind a block there is one token more than without it, unless the block is blank. -/
theorem tokenAt_behind (h : IsBlock block) (rest : List Char) (i : Nat) :
    tokenAt (block ++ rest) (tokensOf (block :: blocks)) (block.length + i) =
      tokenAt rest (tokensOf blocks) i + if isBlank block then 0 else 1 := by
  rw [tokenAt, rank_behind, List.countP_eq_length_filter, h.filter_eq]
  cases hblank : isBlank block with
  | true =>
      have htokens : tokensOf (block :: blocks) = tokensOf blocks := by
        simp [tokensOf, hblank]
      rw [htokens]
      simp [tokenAt]
  | false =>
      have htokens : tokensOf (block :: blocks) = String.ofList block :: tokensOf blocks := by
        simp [tokensOf, hblank]
      rw [htokens, holder, if_neg (by simp)]
      simp [tokenAt]

theorem adjoins_within (h : IsBlock block) (hi : i + 1 < block.length) (rest : List Char) :
    Adjoins (block ++ rest) i := by
  refine ⟨block[i], block[i + 1], ?_, ?_, List.isChain_iff_getElem.mp h i hi⟩
  · rw [List.getElem?_append_left (by omega), List.getElem?_eq_getElem]
  · rw [List.getElem?_append_left hi, List.getElem?_eq_getElem]

/-- The last character of a block does not belong to one run with what is behind it. -/
theorem not_adjoins_end (h : AreBlocks (block :: blocks)) (hlast : i + 1 = block.length) :
    ¬Adjoins (block ++ blocks.flatten) i := by
  intro hadjoins
  obtain ⟨a, b, ha, hb, hrun⟩ := hadjoins
  rw [List.getElem?_append_left (by omega)] at ha
  rw [hlast, ← Nat.add_zero block.length, getElem?_behind] at hb
  cases blocks with
  | nil => simp at hb
  | cons next blocks =>
      obtain ⟨⟨hblock, hnext, hnot⟩, -⟩ := List.isChain_cons_cons.mp h.parted
      obtain ⟨c, others, rfl⟩ := List.exists_cons_of_ne_nil hnext
      have hca : block.getLast hblock = a := by
        rw [List.getLast_eq_getElem]
        have hi : block.length - 1 = i := by omega
        simp only [hi]
        exact Option.some.inj ((List.getElem?_eq_getElem _).symm.trans ha)
      have hcb : c = b := by simpa using hb
      rw [hca, List.head_cons, hcb, hrun] at hnot
      cases hnot

/-- A block in which a character is visible is no blank. -/
theorem isBlank_eq_false (hi : i < block.length) {rest : List Char}
    (hvisible : Visible (block ++ rest) i) : isBlank block = false := by
  obtain ⟨c, hc, hnot⟩ := hvisible
  rw [List.getElem?_append_left hi] at hc
  rw [isBlank, List.all_eq_false]
  exact ⟨c, List.mem_of_getElem? hc, by simp [hnot]⟩

/-- **Two visible characters are in one token** if all neighbours on the way from one to the
other belong to one run, and only then. -/
theorem tokenAt_eq_iff (h : AreBlocks blocks) (hij : i < j) (hi : Visible blocks.flatten i)
    (hj : Visible blocks.flatten j) :
    tokenAt blocks.flatten (tokensOf blocks) i = tokenAt blocks.flatten (tokensOf blocks) j ↔
      ∀ k, i ≤ k → k < j → Adjoins blocks.flatten k := by
  induction blocks generalizing i j with
  | nil =>
      obtain ⟨c, hc, -⟩ := hi
      simp at hc
  | cons block blocks ih =>
      have hblock := h.joined block List.mem_cons_self
      have hrest : AreBlocks blocks :=
        ⟨fun hnil => h.nonempty (List.mem_cons_of_mem _ hnil),
          fun b hb => h.joined b (List.mem_cons_of_mem _ hb), h.parted.tail⟩
      rw [List.flatten_cons] at hi hj ⊢
      by_cases hin : i < block.length
      · have hblank := isBlank_eq_false hin hi
        rw [tokenAt_within hblank hin]
        by_cases hjn : j < block.length
        · -- Both are in this block.
          rw [tokenAt_within hblank hjn]
          exact iff_of_true rfl fun k _ hk => adjoins_within hblock (by omega) _
        · -- The block ends between them.
          obtain ⟨j, rfl⟩ := Nat.exists_eq_add_of_le (Nat.le_of_not_lt hjn)
          rw [tokenAt_behind hblock, hblank]
          refine iff_of_false (by simp) fun hall => ?_
          exact not_adjoins_end h (by omega) (hall (block.length - 1) (by omega) (by omega))
      · -- The block is before both.
        obtain ⟨i, rfl⟩ := Nat.exists_eq_add_of_le (Nat.le_of_not_lt hin)
        obtain ⟨j, rfl⟩ := Nat.exists_eq_add_of_le (show block.length ≤ j by omega)
        rw [visible_behind] at hi hj
        rw [tokenAt_behind hblock, tokenAt_behind hblock, Nat.add_right_cancel_iff,
          ih hrest (by omega) hi hj]
        refine ⟨?_, ?_⟩
        · intro hall k hik hkj
          obtain ⟨k, rfl⟩ := Nat.exists_eq_add_of_le (show block.length ≤ k by omega)
          exact (adjoins_behind _ _ k).mpr (hall k (by omega) (by omega))
        · intro hall k hik hkj
          exact (adjoins_behind _ _ k).mp (hall (block.length + k) (by omega) (by omega))

end Blocks

/-! ### What the tokens are -/

theorem not_isAlphabetic_of_isNumberPart {c : Char} (h : isNumberPart c = true) :
    Unicode.isAlphabetic c = false := by
  have hlow : c.toNat < 0x41 := by
    have hrange := toNat_of_isNumberPart h
    omega
  rw [Unicode.isAlphabetic, Unicode.alphabeticRanges, Unicode.inRanges, if_pos hlow]

/-- All characters of a block are of the run that its first is of. -/
theorem IsBlock.all_eq {c : Char} {rest : List Char} (h : IsBlock (c :: rest)) :
    (isNumberPart c = true → (c :: rest).all isNumberPart = true) ∧
      (Unicode.isAlphabetic c = true → (c :: rest).all Unicode.isAlphabetic = true) := by
  induction rest generalizing c with
  | nil => simp
  | cons d rest ih =>
      obtain ⟨hrun, hrest⟩ := List.isChain_cons_cons.mp h
      have hih := ih hrest
      simp only [sameRun, Bool.or_eq_true, Bool.and_eq_true] at hrun
      refine ⟨fun hc => ?_, fun hc => ?_⟩
      · rcases hrun with ⟨-, hd⟩ | ⟨hletter, -⟩
        · rw [List.all_cons, hc, hih.1 hd]
          rfl
        · rw [not_isAlphabetic_of_isNumberPart hc] at hletter
          cases hletter
      · rcases hrun with ⟨hnumber, -⟩ | ⟨-, hd⟩
        · rw [not_isAlphabetic_of_isNumberPart hnumber] at hc
          cases hc
        · rw [List.all_cons, hc, hih.2 hd]
          rfl

/-- A block that is no blank is a run. -/
theorem IsBlock.isRun {block : List Char} (h : IsBlock block) (hblank : isBlank block = false) :
    IsRun (String.ofList block) := by
  match block, h with
  | [], _ => cases hblank
  | c :: rest, h =>
      refine ⟨by simp, ?_⟩
      rw [String.toList_ofList]
      cases hnumber : isNumberPart c with
      | true => exact Or.inl (h.all_eq.1 hnumber)
      | false =>
          cases hletter : Unicode.isAlphabetic c with
          | true => exact Or.inr (Or.inl (h.all_eq.2 hletter))
          | false =>
              -- Nothing goes on with such a character.
              have hnil : rest = [] := by
                cases rest with
                | nil => rfl
                | cons d rest =>
                    obtain ⟨hrun, -⟩ := List.isChain_cons_cons.mp h
                    simp [sameRun, hnumber, hletter] at hrun
              subst hnil
              refine Or.inr (Or.inr ⟨c, rfl, ?_⟩)
              simpa [standsAlone, hnumber, hletter, isBlank] using hblank

theorem isRun_of_mem_tokenize {text token : String} (h : token ∈ tokenize text) :
    IsRun token := by
  rw [tokenize_eq] at h
  obtain ⟨block, hblock, rfl⟩ := List.mem_map.mp h
  obtain ⟨hmem, hblank⟩ := List.mem_filter.mp hblock
  exact ((areBlocks_runs text.toList).joined block hmem).isRun (by simpa using hblank)

/-- Only blanks are lost. -/
theorem flatMap_tokensOf {blocks : List (List Char)} (h : ∀ block ∈ blocks, IsBlock block) :
    (tokensOf blocks).flatMap String.toList =
      blocks.flatten.filter fun c => !Unicode.isWhiteSpace c := by
  induction blocks with
  | nil => rfl
  | cons block blocks ih =>
      have hblock := h block List.mem_cons_self
      rw [List.flatten_cons, List.filter_append, hblock.filter_eq,
        ← ih fun b hb => h b (List.mem_cons_of_mem _ hb)]
      cases hblank : isBlank block <;> simp [tokensOf, hblank]

theorem tokenAt_tokenize {text : String} {i j : Nat} (hij : i < j) (hi : Visible text.toList i)
    (hj : Visible text.toList j) :
    tokenAt text.toList (tokenize text) i = tokenAt text.toList (tokenize text) j ↔
      ∀ k, i ≤ k → k < j → Adjoins text.toList k := by
  have hiff := tokenAt_eq_iff (areBlocks_runs text.toList) hij
  have hflat : (runs text.toList).flatten = text.toList := List.flatten_splitBy sameRun _
  rw [hflat, ← tokenize_eq] at hiff
  exact hiff hi hj

theorem areTokens_tokenize (text : String) : AreTokens text.toList (tokenize text) where
  shaped := fun _ => isRun_of_mem_tokenize
  chars := by
    have hflat : (runs text.toList).flatten = text.toList := List.flatten_splitBy sameRun _
    rw [tokenize_eq, flatMap_tokensOf (areBlocks_runs text.toList).joined, hflat]
  joined := by
    intro i hadjoins
    obtain ⟨hi, hj⟩ := adjoins_visible hadjoins
    refine (tokenAt_tokenize (Nat.lt_succ_self i) hi hj).mpr fun k hik hk => ?_
    obtain rfl : k = i := by omega
    exact hadjoins
  parted := by
    intro i j hij hi hj hparted hsame
    obtain ⟨k, hik, hkj, hblank | hnot⟩ := hparted
    · exact hblank.not_adjoins ((tokenAt_tokenize hij hi hj).mp hsame k hik hkj)
    · exact hnot ((tokenAt_tokenize hij hi hj).mp hsame k hik hkj)

/-! ### Nothing else are the tokens -/

theorem rank_succ {text : List Char} {i : Nat} (h : Visible text i) :
    rank text (i + 1) = rank text i + 1 := by
  obtain ⟨c, hc, hnot⟩ := h
  rw [rank, List.take_add_one, hc]
  simp [rank, hnot]

theorem rank_le (text : List Char) {i j : Nat} (h : i ≤ j) : rank text i ≤ rank text j :=
  (List.take_sublist_take_left h).countP_le

/-- Every character of the tokens stands somewhere in the text. -/
theorem exists_place (text : List Char) {n : Nat}
    (h : n < (text.filter fun c => !Unicode.isWhiteSpace c).length) :
    ∃ i, Visible text i ∧ rank text i = n := by
  induction text generalizing n with
  | nil => simp at h
  | cons c rest ih =>
      cases hblank : Unicode.isWhiteSpace c with
      | true =>
          obtain ⟨i, hi, hrank⟩ := ih (n := n) (by simpa [hblank] using h)
          refine ⟨[c].length + i, (visible_behind [c] rest i).mpr hi, ?_⟩
          have hbehind := rank_behind [c] rest i
          simpa [hblank, hrank] using hbehind
      | false =>
          cases n with
          | zero => exact ⟨0, ⟨c, rfl, hblank⟩, rfl⟩
          | succ n =>
              obtain ⟨i, hi, hrank⟩ := ih (n := n) (by simpa [hblank] using h)
              refine ⟨[c].length + i, (visible_behind [c] rest i).mpr hi, ?_⟩
              have hbehind := rank_behind [c] rest i
              rw [hrank] at hbehind
              simpa [hblank, Nat.add_comm] using hbehind

/-- Characters that follow on each other in the tokens are neighbours of one run in the text,
or something parts them there. -/
theorem exists_places {text : List Char} {n : Nat}
    (h : n + 1 < (text.filter fun c => !Unicode.isWhiteSpace c).length) :
    ∃ i j, rank text i = n ∧ rank text j = n + 1 ∧
      (j = i + 1 ∧ Adjoins text i ∨
        i < j ∧ Visible text i ∧ Visible text j ∧ Parted text i j) := by
  obtain ⟨i, hi, hin⟩ := exists_place text (Nat.lt_of_succ_lt h)
  obtain ⟨j, hj, hjn⟩ := exists_place text h
  refine ⟨i, j, hin, hjn, ?_⟩
  have hij : i < j := by
    refine Nat.lt_of_not_le fun hle => ?_
    have hrank := rank_le text hle
    omega
  by_cases hadjoins : Adjoins text i
  · refine Or.inl ⟨?_, hadjoins⟩
    have hnext := rank_succ (adjoins_visible hadjoins).2
    have hfirst := rank_succ hi
    by_contra hne
    have hrank := rank_le text (show i + 1 + 1 ≤ j by omega)
    omega
  · exact Or.inr ⟨hij, hi, hj, i, Nat.le_refl i, hij, Or.inr hadjoins⟩

theorem holder_behind (token : String) (rest : List String) (n : Nat) :
    holder (token :: rest) (token.length + n) = holder rest n + 1 := by
  rw [holder, if_neg (by omega), Nat.add_sub_cancel_left]

theorem length_flatMap_cons (token : String) (rest : List String) :
    ((token :: rest).flatMap String.toList).length =
      token.length + (rest.flatMap String.toList).length := by
  rw [List.flatMap_cons, List.length_append, String.length_toList]

/-- A first token ends where the next character has another holder. -/
theorem length_le_of_holder {token other : String} {tokens others : List String}
    (hne : token ≠ "") (hlength : other.length ≤ ((token :: tokens).flatMap String.toList).length)
    (h : ∀ n, n + 1 < ((token :: tokens).flatMap String.toList).length →
      (holder (token :: tokens) n = holder (token :: tokens) (n + 1) ↔
        holder (other :: others) n = holder (other :: others) (n + 1))) :
    other.length ≤ token.length := by
  have hpos : 0 < token.length :=
    Nat.pos_of_ne_zero fun hzero => hne (String.length_eq_zero_iff.mp hzero)
  refine Nat.le_of_not_lt fun hlt => ?_
  have hother : holder (other :: others) (token.length - 1) =
      holder (other :: others) (token.length - 1 + 1) := by
    rw [holder, holder, if_pos (by omega), if_pos (by omega)]
  have hsame := (h (token.length - 1) (by omega)).mpr hother
  rw [holder, holder, if_pos (by omega), if_neg (by omega)] at hsame
  cases hsame

/-- Tokens with the same characters that end at the same places are the same. -/
theorem eq_of_holder {tokens others : List String} (htokens : "" ∉ tokens)
    (hothers : "" ∉ others)
    (hchars : tokens.flatMap String.toList = others.flatMap String.toList)
    (h : ∀ n, n + 1 < (tokens.flatMap String.toList).length →
      (holder tokens n = holder tokens (n + 1) ↔ holder others n = holder others (n + 1))) :
    tokens = others := by
  induction tokens generalizing others with
  | nil =>
      cases others with
      | nil => rfl
      | cons other others =>
          have hempty : other = "" := by simpa using (List.append_eq_nil_iff.mp hchars.symm).1
          exact absurd (hempty ▸ List.mem_cons_self) hothers
  | cons token tokens ih =>
      cases others with
      | nil =>
          have hempty : token = "" := by simpa using (List.append_eq_nil_iff.mp hchars).1
          exact absurd (hempty ▸ List.mem_cons_self) htokens
      | cons other others =>
          have hne : token ≠ "" := fun hempty => htokens (hempty ▸ List.mem_cons_self)
          have hne' : other ≠ "" := fun hempty => hothers (hempty ▸ List.mem_cons_self)
          have hlength : token.toList.length = other.toList.length := by
            have hle : other.length ≤ token.length :=
              length_le_of_holder hne (by rw [hchars, length_flatMap_cons]; omega) h
            have hle' : token.length ≤ other.length :=
              length_le_of_holder hne' (by rw [← hchars, length_flatMap_cons]; omega)
                fun n hn => (h n (by rwa [hchars])).symm
            rw [String.length_toList, String.length_toList]
            omega
          rw [List.flatMap_cons, List.flatMap_cons] at hchars
          obtain ⟨hhead, htail⟩ := List.append_inj hchars hlength
          obtain rfl := String.toList_inj.mp hhead
          rw [ih (fun hmem => htokens (List.mem_cons_of_mem _ hmem))
            (fun hmem => hothers (List.mem_cons_of_mem _ hmem)) htail fun n hn => ?_]
          have hn' := h (token.length + n) (by rw [length_flatMap_cons]; omega)
          rw [Nat.add_assoc, holder_behind, holder_behind, holder_behind, holder_behind,
            Nat.add_right_cancel_iff, Nat.add_right_cancel_iff] at hn'
          exact hn'

/-- **The tokens of a text are determined by what they are.** -/
theorem AreTokens.eq {text : List Char} {tokens others : List String}
    (h : AreTokens text tokens) (hothers : AreTokens text others) : tokens = others := by
  refine eq_of_holder (fun hmem => (h.shaped _ hmem).1 rfl)
    (fun hmem => (hothers.shaped _ hmem).1 rfl) (h.chars.trans hothers.chars.symm) fun n hn => ?_
  rw [h.chars] at hn
  obtain ⟨i, j, rfl, hj, ⟨rfl, hadjoins⟩ | ⟨hij, hvi, hvj, hparted⟩⟩ := exists_places hn
  · refine iff_of_true ?_ ?_
    · rw [← hj]
      exact h.joined i hadjoins
    · rw [← hj]
      exact hothers.joined i hadjoins
  · refine iff_of_false ?_ ?_
    · rw [← hj]
      exact h.parted i j hij hvi hvj hparted
    · rw [← hj]
      exact hothers.parted i j hij hvi hvj hparted

/-- **The tokens of a text are its maximal blocks**, without those that are blanks.  The same
is said of them by the characters: all but the blanks are kept, neighbours of one run stay
together, and what something parts does not. -/
theorem tokenize_eq_blocks (text : String) :
    tokenize text =
      ((text.toList.splitBy sameRun).filter fun block => !isBlank block).map String.ofList ∧
    ∀ tokens, AreTokens text.toList tokens ↔ tokens = tokenize text := by
  refine ⟨tokenize_eq text, fun tokens => ⟨?_, ?_⟩⟩
  · intro h
    exact h.eq (areTokens_tokenize text)
  · intro hsame
    subst hsame
    exact areTokens_tokenize text

end Calculator
