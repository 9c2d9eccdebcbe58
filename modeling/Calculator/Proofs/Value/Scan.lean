/-
What the tokens alone say about the value.

Whether an expression has a value can be seen from its tokens without building a tree:
from the first and the last of them, and from the groups that are open where a comma or a
product with a word stands.  A group is an argument list if a word stands directly before
its `(`.  The calls that are made can be seen as well, and a call is made when its argument
list ends; a list that was never closed ends with the text, after those inside it.

`scan` is one reading of the tokens from left to right that finds all of this out.
-/
import Mathlib.Data.List.Induction
import Calculator.Proofs.Value.Calls
import Calculator.Token.Kind

namespace Calculator

/-! ### Reading parentheses -/

/-- A group that is open, with the word before it if there is one, and the number of commas
directly in it. -/
structure OpenGroup where
  caller : Option String
  commas : Nat
  deriving DecidableEq

/-- The call that a group with `count` values makes when it ends, if it is an argument list. -/
def OpenGroup.call (g : OpenGroup) (count : Nat) : List Invocation :=
  g.caller.toList.map fun name => ⟨name, count⟩

/-- The groups that are open, the innermost first, and the calls whose argument list has
ended, in that order. -/
structure Scan where
  previous : Option String := none
  groups : List OpenGroup := []
  calls : List Invocation := []
  deriving DecidableEq

/-- Read one token more.  A comma outside of all groups is inside one around everything. -/
def Scan.step (scan : Scan) (token : String) : Scan :=
  if token = "(" then
    let caller := scan.previous.filter fun word => Kind.of? word = some .word
    ⟨some token, ⟨caller, 0⟩ :: scan.groups, scan.calls⟩
  else if token = ")" then
    match scan.groups with
    | [] => ⟨some token, [], scan.calls⟩
    | g :: rest => ⟨some token, rest, scan.calls ++ g.call (g.commas + 1)⟩
  else if token = "," then
    match scan.groups with
    | [] => ⟨some token, [⟨none, 1⟩], scan.calls⟩
    | g :: rest => ⟨some token, ⟨g.caller, g.commas + 1⟩ :: rest, scan.calls⟩
  else ⟨some token, scan.groups, scan.calls⟩

/-- All the tokens, read from left to right. -/
def scan (tokens : List String) : Scan :=
  tokens.foldl Scan.step {}

/-- The innermost group that is open behind the tokens is an argument list. -/
def InCall (tokens : List String) : Prop :=
  ∃ g ∈ (scan tokens).groups.head?, g.caller.isSome = true

instance (tokens : List String) : Decidable (InCall tokens) :=
  inferInstanceAs (Decidable (∃ g ∈ _, _))

/-- The calls of the groups that are still open where the tokens end.  There is no value
behind a final comma or parenthesis. -/
def unfinished (last : Option String) : List OpenGroup → List Invocation
  | [] => []
  | g :: rest =>
      let count :=
        if last = some "(" then 0 else if last = some "," then g.commas else g.commas + 1
      g.call count ++ rest.flatMap fun g => g.call (g.commas + 1)

/-- The calls of the tokens in the order in which their argument lists end. -/
def callsOf (tokens : List String) : List Invocation :=
  (scan tokens).calls ++ unfinished tokens.getLast? (scan tokens).groups

theorem unfinished_eq {last : String} (hopen : last ≠ "(") (hcomma : last ≠ ",")
    (groups : List OpenGroup) :
    unfinished (some last) groups = groups.flatMap fun g => g.call (g.commas + 1) := by
  cases groups with
  | nil => rfl
  | cons g rest => simp [unfinished, hopen, hcomma]

theorem scan_concat (tokens : List String) (token : String) :
    scan (tokens ++ [token]) = (scan tokens).step token := by
  simp [scan]

@[simp] theorem Scan.previous_step (scan : Scan) (token : String) :
    (scan.step token).previous = some token := by
  unfold Scan.step
  repeat' split
  all_goals rfl

theorem previous_scan (tokens : List String) : (scan tokens).previous = tokens.getLast? := by
  induction tokens using List.reverseRecOn with
  | nil => rfl
  | append_singleton tokens token _ => rw [scan_concat, Scan.previous_step, List.getLast?_concat]

/-- A comma is inside the group that was open before it. -/
theorem inCall_comma (tokens : List String) : InCall (tokens ++ [","]) ↔ InCall tokens := by
  unfold InCall
  rw [scan_concat]
  simp only [Scan.step]
  cases (scan tokens).groups <;> simp

/-! ### Well-shaped tokens -/

/-- What is asked of a token that has another behind it. -/
structure SteadyAt (tokens : List String) (i : Nat) : Prop where
  /-- A comma is directly in an argument list. -/
  comma : tokens[i]? = some "," → InCall (tokens.take i)
  /-- No word stands behind an argument list that was closed. -/
  product : tokens[i]? = some ")" → ∀ word ∈ tokens[i + 1]?, Kind.of? word = some .word →
    ¬InCall (tokens.take i)

/-- No token stands where it keeps every tree from having a value, whatever comes behind. -/
structure Steady (tokens : List String) : Prop where
  /-- No operator but a sign is the first token, and no `)` or `,`. -/
  first : ∀ first ∈ tokens.head?, first ∉ ["+", "*", "/", "^", ")", ","]
  inner : ∀ i < tokens.length - 1, SteadyAt tokens i

/-- The tokens are steady, and there is a value behind everything that wants one. -/
structure WellShaped (tokens : List String) : Prop extends Steady tokens where
  /-- The last token is no word. -/
  word : ∀ last ∈ tokens.getLast?, Kind.of? last ≠ some .word
  /-- If the last token is `(`, a word stands before it. -/
  emptyList : tokens.getLast? = some "(" →
    ∃ word ∈ tokens.dropLast.getLast?, Kind.of? word = some .word

instance (tokens : List String) (i : Nat) : Decidable (SteadyAt tokens i) :=
  decidable_of_iff ((tokens[i]? = some "," → InCall (tokens.take i)) ∧
    (tokens[i]? = some ")" → ∀ word ∈ tokens[i + 1]?, Kind.of? word = some .word →
      ¬InCall (tokens.take i))) ⟨fun h => ⟨h.1, h.2⟩, fun h => ⟨h.1, h.2⟩⟩

instance (tokens : List String) : Decidable (Steady tokens) :=
  decidable_of_iff ((∀ first ∈ tokens.head?, first ∉ ["+", "*", "/", "^", ")", ","]) ∧
    ∀ i < tokens.length - 1, SteadyAt tokens i) ⟨fun h => ⟨h.1, h.2⟩, fun h => ⟨h.1, h.2⟩⟩

instance (tokens : List String) : Decidable (WellShaped tokens) :=
  decidable_of_iff (Steady tokens ∧ (∀ last ∈ tokens.getLast?, Kind.of? last ≠ some .word) ∧
    (tokens.getLast? = some "(" → ∃ word ∈ tokens.dropLast.getLast?, Kind.of? word = some .word))
    ⟨fun h => ⟨h.1, h.2.1, h.2.2⟩, fun h => ⟨h.1, h.2, h.3⟩⟩

/-- What a token with another behind it has to satisfy is settled by these two. -/
theorem steadyAt_append {tokens : List String} {i : Nat} (hi : i + 1 < tokens.length)
    (rest : List String) : SteadyAt (tokens ++ rest) i ↔ SteadyAt tokens i := by
  have htake : (tokens ++ rest).take i = tokens.take i :=
    List.take_append_of_le_length (by omega)
  have hthis : (tokens ++ rest)[i]? = tokens[i]? := List.getElem?_append_left (by omega)
  have hnext : (tokens ++ rest)[i + 1]? = tokens[i + 1]? := List.getElem?_append_left hi
  refine ⟨?_, ?_⟩
  · intro hboth
    obtain ⟨hcomma, hproduct⟩ := hboth
    rw [htake, hthis] at hcomma
    rw [htake, hthis, hnext] at hproduct
    exact ⟨hcomma, hproduct⟩
  · intro hboth
    obtain ⟨hcomma, hproduct⟩ := hboth
    refine ⟨?_, ?_⟩
    · rw [htake, hthis]
      exact hcomma
    · rw [htake, hthis, hnext]
      exact hproduct

theorem steadyAt_last (tokens : List String) (last token : String) :
    SteadyAt (tokens ++ [last] ++ [token]) tokens.length ↔
      (last = "," → InCall tokens) ∧
      (last = ")" → Kind.of? token = some .word → ¬InCall tokens) := by
  have htake : (tokens ++ [last] ++ [token]).take tokens.length = tokens := by simp
  have hthis : (tokens ++ [last] ++ [token])[tokens.length]? = some last := by simp
  have hnext : (tokens ++ [last] ++ [token])[tokens.length + 1]? = some token := by simp
  refine ⟨?_, ?_⟩
  · intro hboth
    obtain ⟨hcomma, hproduct⟩ := hboth
    rw [htake, hthis] at hcomma
    rw [htake, hthis, hnext] at hproduct
    exact ⟨fun h => hcomma (by rw [h]), fun h => hproduct (by rw [h]) token rfl⟩
  · intro hboth
    obtain ⟨hcomma, hproduct⟩ := hboth
    refine ⟨?_, ?_⟩
    · rw [htake, hthis]
      exact fun h => hcomma (Option.some.inj h)
    · rw [htake, hthis, hnext]
      rintro h word hword
      obtain rfl : token = word := Option.some.inj hword
      exact hproduct (Option.some.inj h)

/-- One token more settles what was open about the last one. -/
theorem steady_concat (tokens : List String) (last token : String) :
    Steady (tokens ++ [last] ++ [token]) ↔ Steady (tokens ++ [last]) ∧
      (last = "," → InCall tokens) ∧
      (last = ")" → Kind.of? token = some .word → ¬InCall tokens) := by
  have hhead : (tokens ++ [last] ++ [token]).head? = (tokens ++ [last]).head? := by
    cases tokens <;> rfl
  have hlen : (tokens ++ [last]).length - 1 = tokens.length := by simp
  have hlen' : (tokens ++ [last] ++ [token]).length - 1 = tokens.length + 1 := by simp
  rw [← steadyAt_last]
  refine ⟨?_, ?_⟩
  · intro hboth
    obtain ⟨hfirst, hinner⟩ := hboth
    rw [hhead] at hfirst
    rw [hlen'] at hinner
    refine ⟨⟨hfirst, ?_⟩, hinner _ (Nat.lt_succ_self _)⟩
    intro i hi
    rw [hlen] at hi
    rw [← steadyAt_append (by simpa using hi) [token]]
    exact hinner i (Nat.lt_succ_of_lt hi)
  · intro hboth
    obtain ⟨⟨hfirst, hinner⟩, hlast⟩ := hboth
    rw [← hhead] at hfirst
    rw [hlen] at hinner
    refine ⟨hfirst, ?_⟩
    intro i hi
    rw [hlen'] at hi
    rcases Nat.lt_succ_iff_lt_or_eq.mp hi with hlt | rfl
    · rw [steadyAt_append (by simpa using hlt)]
      exact hinner i hlt
    · exact hlast

end Calculator
