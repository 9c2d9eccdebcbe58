/-
No number is refused when it is evaluated.

Whether a token is a number is found out when it is read, and what number it is when the
expression is evaluated.  In between its text and its kind are kept apart from each other, and
closing a group changes the one and then the other.  So it is not plain that a node which is
called a number still has a text that can be read as one.

It has: the text of every node of a draft is at all times that of a token of its kind.  An
evaluation can fail in many ways, but not over a number.
-/
import Calculator.Proofs.Drawing.Nodes
import Calculator.Proofs.Text.Literals
import Calculator.Proofs.Value.Calls

namespace Calculator

/-! ### Results that are not about a number -/

/-- The result is not the complaint that some text is no number. -/
def Legible {α : Type} (result : Except Error α) : Prop :=
  ∀ text, result ≠ .error (.malformed (.notANumber text))

namespace Legible

variable {α β : Type}

theorem ok (x : α) : Legible (.ok x) := by
  intro text h
  cases h

theorem error {e : Error} (h : ∀ text, e ≠ .malformed (.notANumber text)) :
    Legible (.error e : Except Error α) := by
  intro text herror
  exact h text (Except.error.inj herror)

theorem bind {result : Except Error α} {next : α → Except Error β} (h : Legible result)
    (hnext : ∀ x, result = .ok x → Legible (next x)) : Legible (result >>= next) := by
  cases result with
  | error e => exact error fun text he => h text (congrArg Except.error he)
  | ok x => exact hnext x rfl

theorem foldlM {step : α → β → Except Error α} (hstep : ∀ x y, Legible (step x y))
    (ys : List β) : ∀ x, Legible (ys.foldlM step x) := by
  induction ys with
  | nil => exact ok
  | cons y rest ih =>
      intro x
      rw [List.foldlM_cons]
      exact (hstep x y).bind fun x' _ => ih x'

end Legible

/-! ### Reading -/

theorem Kind.legible_classify (token : String) : Legible (classify token) := by
  unfold classify
  cases of? token with
  | none => exact .error fun text => by simp
  | some kind => exact .ok kind

namespace Draft

theorem legible_step (d : Draft) (token : String) : Legible (d.step token) := by
  unfold step
  refine (Kind.legible_classify token).bind fun kind _ => ?_
  cases Placement.of? d.current.kind kind with
  | none => exact .error fun text => by simp
  | some placement => exact .ok _

theorem legible_ofTokens (tokens : List String) : Legible (ofTokens tokens) := by
  cases tokens with
  | nil => exact .error fun text => by simp
  | cons token rest =>
      have hstart : Legible (start token) :=
        (Kind.legible_classify token).bind fun kind _ => .ok _
      exact hstart.bind fun d _ => .foldlM legible_step rest d

end Draft

theorem Expression.legible_ofTokens (tokens : List String) : Legible (ofTokens tokens) :=
  (Draft.legible_ofTokens tokens).bind fun _ _ => .ok _

/-! ### Evaluating -/

theorem legible_call {α : Type} (m : Arithmetic α) (name : String) (arguments : List α) :
    Legible (m.call name arguments).value := by
  have hcall := decides_call m name arguments
  unfold Decides at hcall
  split at hcall
  · obtain ⟨x, hx⟩ := hcall
    rw [hx]
    exact .ok x
  · rw [hcall]
    exact .error fun text => by simp [Invocation.error]

namespace Tree

variable {α : Type} (m : Arithmetic α)

theorem legible_evaluateAll {children : List Tree} (h : ∀ c ∈ children, Legible (c.evaluate m)) :
    Legible (evaluateAll m children) := by
  induction children with
  | nil => exact .ok []
  | cons c rest ih =>
      rw [List.forall_mem_cons] at h
      rw [evaluateAll_cons]
      exact h.1.bind fun x _ => (ih h.2).bind fun xs _ => .ok (x :: xs)

/-- The text of a number is a number to the evaluation too. -/
theorem evaluate_literal {value : String} (children : List Tree)
    (h : Kind.of? value = some .number) : ∃ number,
      Decimal.ofLiteral? value.toList = some number ∧
        (node value .number children).evaluate m = .ok (m.ofDecimal number) := by
  obtain ⟨number, hnumber⟩ := Option.isSome_iff_exists.mp (Kind.isSome_of_number h)
  refine ⟨number, hnumber, ?_⟩
  rw [evaluate_number, hnumber]

/-- Both the value of a tree and those of its children are legible.  The latter are needed for
a call, which passes over the node of its argument list. -/
theorem Spelled.legible {t : Tree} (h : t.Spelled) :
    Legible (t.evaluate m) ∧ Legible (evaluateAll m t.children) := by
  induction h with
  | @node value kind children hkind below ih =>
      have hall : Legible (evaluateAll m children) := legible_evaluateAll m fun c hc => (ih c hc).1
      refine ⟨?_, hall⟩
      cases kind with
      | number =>
          obtain ⟨number, -, hvalue⟩ := evaluate_literal m children hkind
          rw [hvalue]
          exact .ok _
      | operator op =>
          match children with
          | [] => cases op <;> exact .error fun text => by simp
          | [operand] =>
              cases op with
              | minus => exact (ih operand List.mem_cons_self).1.bind fun x _ => .ok (m.negate x)
              | plus | times | divide | power => exact .error fun text => by simp
          | [left, right] =>
              rw [evaluate_binary]
              refine (ih left List.mem_cons_self).1.bind fun x _ => ?_
              refine (ih right (List.mem_cons_of_mem _ List.mem_cons_self)).1.bind fun y _ => ?_
              exact .ok (m.operate op x y)
          | first :: second :: third :: rest => cases op <;> exact .error fun text => by simp
      | openGroup | closedGroup =>
          match children with
          | [] => exact .error fun text => by simp
          | [inner] => exact (ih inner List.mem_cons_self).1
          | first :: second :: rest => exact .error fun text => by simp
      | word =>
          match children with
          | [] => exact .error fun text => by simp
          | [.node text kind arguments] =>
              rw [evaluate_call]
              by_cases hgroup : kind.isGroup = true
              · rw [if_pos hgroup]
                exact (ih _ List.mem_cons_self).2.bind fun values _ => legible_call m value values
              · rw [if_neg hgroup]
                exact .error fun text => by simp
          | .node _ _ _ :: second :: rest => exact .error fun text => by simp
      | closer | comma => exact .error fun text => by simp

end Tree

theorem Expression.legible_evaluateIn {α : Type} (m : Arithmetic α) {tokens : List String}
    {e : Expression} (he : ofTokens tokens = .ok e) : Legible (e.evaluateIn m) := by
  obtain ⟨t, ht⟩ := exists_stores he
  rw [evaluateIn, ht.tree_eq]
  exact (ht.spelled.legible m).1

/-- Reading tokens and evaluating what was read. -/
theorem legible_value {α : Type} (m : Arithmetic α) (tokens : List String) :
    Legible (Expression.ofTokens tokens >>= Expression.evaluateIn m) :=
  (Expression.legible_ofTokens tokens).bind fun _ he => Expression.legible_evaluateIn m he

/-! ### All numbers -/

/-- **What was recognised as a number can be read as one.**  The text of a node is that of a token
of its kind, after any tokens that are accepted.  Numbers are the literals, for every reader that
knows these.  So each number of an expression has a value, and neither reading nor evaluating
ever complains that something is no number. -/
theorem numbers_ofTokens {α : Type} (m : Arithmetic α) (tokens : List String) :
    (∀ read d, read <+: tokens → Draft.ofTokens read = .ok d →
      ∀ id < d.arena.size, Kind.of? (d.arena.node id).value = some (d.arena.node id).kind) ∧
    (∀ text, (Kind.of? text = some .number ↔ IsLiteral text) ∧
      ((Decimal.ofLiteral? text.toList).isSome = true ↔ IsLiteral text)) ∧
    (∀ read : String → Option Float, ReadsLiterals read →
      (∀ text, Kind.of? text = some .number ↔ isNumber read text = true) ∧
      ∀ e, Expression.ofTokens tokens = .ok e → ∀ id < e.arena.size,
        (e.arena.node id).kind = .number → (read (e.arena.node id).value).isSome = true) ∧
    (∀ e, Expression.ofTokens tokens = .ok e → ∀ id < e.arena.size,
      (e.arena.node id).kind = .number → ∃ number,
        Decimal.ofLiteral? (e.arena.node id).value.toList = some number ∧
          (e.arena.unfold id).evaluate m = .ok (m.ofDecimal number)) ∧
    Legible (Expression.ofTokens tokens >>= Expression.evaluateIn m) ∧
    ∀ text, Legible (calculateIn m text) := by
  have hkind : ∀ e, Expression.ofTokens tokens = .ok e → ∀ id < e.arena.size,
      (e.arena.node id).kind = .number → Kind.of? (e.arena.node id).value = some .number := by
    intro e he id hid hnumber
    obtain ⟨d, hd, rfl⟩ := Expression.ofTokens_eq_ok_iff.mp he
    have hspelled : Kind.of? (d.arena.node id).value = some (d.arena.node id).kind :=
      Draft.spelled_ofTokens hd id hid
    exact hnumber ▸ hspelled
  refine ⟨fun read d _ hd => Draft.spelled_ofTokens hd,
    fun text => ⟨Kind.of?_eq_number_iff text, isSome_ofLiteral?_iff text⟩,
    fun read hread => ⟨fun text => ?_, fun e he id hid hnumber => ?_⟩,
    fun e he id hid hnumber => ?_, legible_value m tokens, fun text => ?_⟩
  · rw [hread.isNumber_iff, Kind.of?_eq_number_iff]
  · exact hread.isSome ((Kind.of?_eq_number_iff _).mp (hkind e he id hid hnumber))
  · have htree : ∃ children, e.arena.unfold id =
        .node (e.arena.node id).value .number children := by
      rw [← hnumber, Arena.unfold]
      cases e.arena.size <;> exact ⟨_, rfl⟩
    obtain ⟨children, hunfold⟩ := htree
    rw [hunfold]
    exact Tree.evaluate_literal m children (hkind e he id hid hnumber)
  · exact legible_value m (tokenize text)

/-- In `2(1.+.5)` the group changes its text together with its kind when it is closed, and `.5` is
a number.  With a reader that accepts `inf`, that is still a word. -/
theorem numbers_closed_factor :
    let tokens := ["2", "(", "1.", "+", ".5", ")"]
    ∃ d d' e, Draft.ofTokens (tokens.take 5) = .ok d ∧ Draft.ofTokens tokens = .ok d' ∧
      Expression.ofTokens tokens = .ok e ∧
      (d.arena.node 2).value = "(" ∧ Kind.of? "(" = some (d.arena.node 2).kind ∧
      (d'.arena.node 2).value = "()" ∧ Kind.of? "()" = some (d'.arena.node 2).kind ∧
      (e.arena.unfold 5).evaluate .words = .ok (Float.toBits 0.5) ∧
      (readOrInfinity (e.arena.node 5).value).isSome = true ∧
      (readOrInfinity "inf").isSome = true ∧ isNumber readOrInfinity "inf" = false ∧
      Legible (Expression.ofTokens tokens >>= Expression.evaluateIn .words) := by
  intro tokens
  obtain ⟨d, d', e, hd, hd', he, hsize, hopen, hsize', hclosed, hall, htext, hnumber⟩ :
      ∃ d d' e, Draft.ofTokens (tokens.take 5) = .ok d ∧ Draft.ofTokens tokens = .ok d' ∧
        Expression.ofTokens tokens = .ok e ∧
        2 < d.arena.size ∧ (d.arena.node 2).value = "(" ∧
        2 < d'.arena.size ∧ (d'.arena.node 2).value = "()" ∧
        5 < e.arena.size ∧ (e.arena.node 5).value = ".5" ∧ (e.arena.node 5).kind = .number :=
    ⟨_, _, _, rfl, rfl, rfl, by decide⟩
  obtain ⟨hspelled, -, hread, hvalue, hlegible, -⟩ := numbers_ofTokens .words tokens
  obtain ⟨hnumbers, hreadable⟩ := hread readOrInfinity readsLiterals_readOrInfinity
  obtain ⟨number, hliteral, hevaluate⟩ := hvalue e he 5 hall hnumber
  have hinf : ¬isNumber readOrInfinity "inf" = true := by
    rw [← hnumbers]
    decide
  have hhalf : number = ⟨5, -1⟩ := by
    rw [htext] at hliteral
    exact (Option.some.inj hliteral).symm
  refine ⟨d, d', e, hd, hd', he, hopen, ?_, hclosed, ?_, ?_, hreadable e he 5 hall hnumber, ?_,
    Bool.eq_false_iff.mpr hinf, hlegible⟩
  · rw [← hopen]
    exact hspelled _ d (List.take_prefix 5 tokens) hd 2 hsize
  · rw [← hclosed]
    exact hspelled _ d' (List.prefix_refl tokens) hd' 2 hsize'
  · rw [hevaluate, hhalf]
    rfl
  · simp [readOrInfinity]

end Calculator
