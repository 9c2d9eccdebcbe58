/-
Which trees have a value.

Two things can keep a tree from having one.  A node may have the wrong number of children,
or a child that cannot serve as what it is there for: an argument list has to be a group,
and everything else has to be a value.  `Serves` is the absence of that.  Or a call may
not be recognised, because of its name or because of the number of its arguments.

Evaluation goes from left to right and from the inside out, which is the order of `calls`.
So a tree without the first fault has a value if all of its calls are recognised, and
otherwise the first call that is not is the error.
-/
import Calculator.Tree.Evaluation

namespace Calculator

/-! ### Recognised calls -/

/-- A name that is called, with the number of its arguments. -/
structure Invocation where
  name : String
  count : Nat
  deriving DecidableEq

namespace Invocation

/-- Is there a function of the name for that many arguments? -/
def recognised (c : Invocation) : Bool :=
  Aggregate.names.contains (lowercase c.name) ||
    (Unary.names.contains (lowercase c.name) && c.count = 1)

/-- The error of a call that is not recognised. -/
def error (c : Invocation) : Error :=
  .unrecognizedFunction (lowercase c.name) c.count

end Invocation

theorem isSome_lookup {α : Type} (table : List (String × α)) (name : String) :
    (table.lookup name).isSome = (table.map Prod.fst).contains name := by
  induction table with
  | nil => rfl
  | cons entry rest ih =>
      rw [List.lookup_cons, List.map_cons, List.contains_cons, ← ih]
      cases name == entry.1 <;> rfl

/-- The result is a value if all the calls are recognised, and otherwise the error of the
first that is not. -/
def Decides {α : Type} (calls : List Invocation) (result : Except Error α) : Prop :=
  match calls.find? (fun c => !c.recognised) with
  | none => ∃ x, result = .ok x
  | some c => result = .error c.error

theorem decides_ok {α : Type} (x : α) : Decides [] (.ok x : Except Error α) :=
  ⟨x, rfl⟩

/-- The calls of two computations that follow on each other follow on each other. -/
theorem Decides.bind {α β : Type} {first second : List Invocation} {result : Except Error α}
    {next : α → Except Error β} (h : Decides first result)
    (hnext : ∀ x, result = .ok x → Decides second (next x)) :
    Decides (first ++ second) (result >>= next) := by
  unfold Decides at *
  rw [List.find?_append]
  cases hfind : first.find? (fun c => !c.recognised) with
  | none =>
      rw [hfind] at h
      obtain ⟨x, rfl⟩ := h
      exact hnext x rfl
  | some c =>
      rw [hfind] at h
      rw [show result = .error c.error from h]
      rfl

/-- A call is recognised exactly if it has a value. -/
theorem decides_call {α : Type} (m : Arithmetic α) (name : String) (arguments : List α) :
    Decides [⟨name, arguments.length⟩] (m.call name arguments).value := by
  have haggregate := isSome_lookup Aggregate.table (lowercase name)
  have hunary := isSome_lookup Unary.table (lowercase name)
  unfold Decides Arithmetic.call
  simp only [List.find?_cons, List.find?_nil, Invocation.recognised, Aggregate.names,
    Unary.names, ← haggregate, ← hunary, Aggregate.ofName?, Unary.ofName?]
  cases Aggregate.table.lookup (lowercase name) with
  | some g => exact ⟨_, rfl⟩
  | none =>
      cases Unary.table.lookup (lowercase name) with
      | none => rfl
      | some f =>
          match arguments with
          | [] => rfl
          | [x] => exact ⟨_, rfl⟩
          | x :: y :: rest => simp [Invocation.error]

/-! ### What a tree can serve as -/

/-- What a tree is there for: to have a value, or to be the arguments of a call. -/
inductive Role
  | value
  | arguments
  deriving DecidableEq

/-- What the children of a node are there for. -/
def Kind.asks : Kind → Role
  | .word => .arguments
  | _ => .value

/-- May a node of the kind with `n` children serve as this? -/
def Role.admits : Role → Kind → Nat → Bool
  | .value, .operator op, n => n = 2 || (n = 1 && op = .minus)
  | .value, .openGroup, n | .value, .closedGroup, n | .value, .word, n => n = 1
  | .arguments, .openGroup, _ | .arguments, .closedGroup, _ => true
  | _, _, _ => false

namespace Tree

/-- Every node of the tree can serve as what it is there for. -/
inductive Serves : Role → Tree → Prop
  | number {value : String} {children : List Tree}
      (hvalue : (Decimal.ofLiteral? value.toList).isSome = true) :
      Serves .value (.node value .number children)
  | node {role : Role} {value : String} {kind : Kind} {children : List Tree}
      (hkind : role.admits kind children.length = true)
      (hchildren : ∀ c ∈ children, Serves kind.asks c) : Serves role (.node value kind children)

mutual

/-- The calls of a tree in the order in which they are made. -/
def calls : Tree → List Invocation
  | node _ .number _ => []
  | node value .word [list] => list.calls ++ [⟨value, list.children.length⟩]
  | node _ _ children => callsAll children

/-- The calls of neighbouring trees. -/
def callsAll : List Tree → List Invocation
  | [] => []
  | t :: rest => t.calls ++ callsAll rest

end

theorem callsAll_append (first second : List Tree) :
    callsAll (first ++ second) = callsAll first ++ callsAll second := by
  induction first with
  | nil => rfl
  | cons t rest ih => rw [List.cons_append, callsAll, callsAll, ih, List.append_assoc]

theorem calls_node {value : String} {kind : Kind} (children : List Tree)
    (hnumber : kind ≠ .number) (hword : kind ≠ .word) :
    (node value kind children).calls = callsAll children := by
  cases kind <;> simp_all [calls]

/-! ### Equations of a value -/

variable {α : Type} {m : Arithmetic α}

theorem evaluateAll_cons (t : Tree) (rest : List Tree) : evaluateAll m (t :: rest) =
    (t.evaluate m >>= fun x => evaluateAll m rest >>= fun xs => pure (x :: xs)) := rfl

theorem evaluate_number (value : String) (children : List Tree) :
    (node value .number children).evaluate m =
      match Decimal.ofLiteral? value.toList with
      | some number => .ok (m.ofDecimal number)
      | none => .error (.malformed (.notANumber value)) := rfl

theorem evaluate_negative (value : String) (operand : Tree) :
    (node value (.operator .minus) [operand]).evaluate m =
      (operand.evaluate m >>= fun x => pure (m.negate x)) := rfl

theorem evaluate_binary (value : String) (op : Operator) (left right : Tree) :
    (node value (.operator op) [left, right]).evaluate m =
      (left.evaluate m >>= fun x => right.evaluate m >>= fun y => pure (m.operate op x y)) := by
  cases op <;> rfl

theorem evaluate_single {kind : Kind} (hgroup : kind.isGroup = true) (value : String)
    (inner : Tree) : (node value kind [inner]).evaluate m = inner.evaluate m := by
  cases kind with
  | openGroup | closedGroup => rfl
  | number | operator | closer | word | comma => cases hgroup

theorem evaluate_call (value text : String) (kind : Kind) (arguments : List Tree) :
    (node value .word [node text kind arguments]).evaluate m =
      if kind.isGroup then evaluateAll m arguments >>= fun values => (m.call value values).value
      else .error (.malformed (.noArguments value)) := rfl

/-! ### Calls and arguments -/

theorem length_evaluateAll {children : List Tree} {values : List α}
    (h : evaluateAll m children = .ok values) : values.length = children.length := by
  induction children generalizing values with
  | nil =>
      cases h
      rfl
  | cons t rest ih =>
      rw [evaluateAll_cons] at h
      cases ht : t.evaluate m with
      | error e =>
          rw [ht] at h
          cases h
      | ok x =>
          cases hrest : evaluateAll m rest with
          | error e =>
              rw [ht, hrest] at h
              cases h
          | ok xs =>
              rw [ht, hrest] at h
              cases h
              rw [List.length_cons, List.length_cons, ih hrest]

theorem decides_evaluateAll {children : List Tree}
    (h : ∀ c ∈ children, Decides c.calls (c.evaluate m)) :
    Decides (callsAll children) (evaluateAll m children) := by
  induction children with
  | nil => exact decides_ok []
  | cons t rest ih =>
      have hrest := ih fun c hc => h c (List.mem_cons_of_mem _ hc)
      rw [evaluateAll_cons, callsAll]
      refine (h t List.mem_cons_self).bind fun x _ => ?_
      rw [← List.append_nil (callsAll rest)]
      exact hrest.bind fun xs _ => decides_ok (x :: xs)

/-! ### Evaluation -/

/-- The calls decide what comes of the tree, in the role that it has. -/
def Decided (m : Arithmetic α) : Role → Tree → Prop
  | .value, t => Decides t.calls (t.evaluate m)
  | .arguments, t => t.kind.isGroup = true ∧ Decides t.calls (evaluateAll m t.children)

theorem decided_operator {value : String} {op : Operator} {children : List Tree}
    (hkind : Role.value.admits (.operator op) children.length = true)
    (ih : ∀ c ∈ children, Decided m .value c) :
    Decided m .value (node value (.operator op) children) := by
  have hcases : children.length = 2 ∨ (children.length = 1 ∧ op = .minus) := by
    simpa [Role.admits] using hkind
  rcases hcases with hlen | ⟨hlen, rfl⟩
  · obtain ⟨left, right, rfl⟩ : ∃ left right, children = [left, right] := by
      match children, hlen with
      | [left, right], _ => exact ⟨left, right, rfl⟩
    have hleft : Decides left.calls (left.evaluate m) := ih left (by simp)
    have hright : Decides right.calls (right.evaluate m) := ih right (by simp)
    show Decides (left.calls ++ (right.calls ++ [])) _
    rw [evaluate_binary]
    exact hleft.bind fun x _ => hright.bind fun y _ => decides_ok _
  · obtain ⟨operand, rfl⟩ := List.length_eq_one_iff.mp hlen
    have hoperand : Decides operand.calls (operand.evaluate m) := ih operand (by simp)
    show Decides (operand.calls ++ []) _
    rw [evaluate_negative]
    exact hoperand.bind fun x _ => decides_ok _

theorem decided_group {value : String} {kind : Kind} {children : List Tree}
    (hgroup : kind.isGroup = true) (hlen : children.length = 1)
    (ih : ∀ c ∈ children, Decided m .value c) : Decided m .value (node value kind children) := by
  obtain ⟨inner, rfl⟩ := List.length_eq_one_iff.mp hlen
  have hinner : Decides inner.calls (inner.evaluate m) := ih inner (by simp)
  cases kind with
  | openGroup | closedGroup =>
      show Decides (inner.calls ++ []) _
      rw [List.append_nil, evaluate_single hgroup]
      exact hinner
  | number | operator | closer | word | comma => cases hgroup

theorem decided_call {value : String} {children : List Tree} (hlen : children.length = 1)
    (ih : ∀ c ∈ children, Decided m .arguments c) :
    Decided m .value (node value .word children) := by
  obtain ⟨⟨text, kind, arguments⟩, rfl⟩ := List.length_eq_one_iff.mp hlen
  obtain ⟨hgroup, hlist⟩ := ih (node text kind arguments) (by simp)
  show Decides ((node text kind arguments).calls ++ [⟨value, arguments.length⟩]) _
  rw [evaluate_call, if_pos (show kind.isGroup = true from hgroup)]
  refine hlist.bind fun values hvalues => ?_
  have hcount : values.length = arguments.length := length_evaluateAll hvalues
  rw [← hcount]
  exact decides_call m value values

/-- **If every node can serve as what it is there for, the calls decide.** -/
theorem Serves.decided {role : Role} {t : Tree} (h : t.Serves role) : Decided m role t := by
  induction h with
  | @number value children hvalue =>
      obtain ⟨number, hnumber⟩ := Option.isSome_iff_exists.mp hvalue
      show Decides [] _
      rw [evaluate_number, hnumber]
      exact decides_ok _
  | @node role value kind children hkind _ ih =>
      cases role with
      | value =>
          cases kind with
          | operator op => exact decided_operator hkind ih
          | openGroup | closedGroup => exact decided_group rfl (of_decide_eq_true hkind) ih
          | word => exact decided_call (of_decide_eq_true hkind) ih
          | number | closer | comma => cases hkind
      | arguments =>
          cases kind with
          | openGroup | closedGroup => exact ⟨rfl, decides_evaluateAll ih⟩
          | number | operator | closer | word | comma => cases hkind

/-! ### Only such trees have a value -/

/-- The tree has a value, or its children have values as the arguments of a call. -/
def Yields (m : Arithmetic α) : Role → Tree → Prop
  | .value, t => ∃ x, t.evaluate m = .ok x
  | .arguments, t => t.kind.isGroup = true ∧ ∃ values, evaluateAll m t.children = .ok values

theorem yields_of_bind {β : Type} {t : Tree} {next : α → Except Error β} {y : β}
    (h : t.evaluate m >>= next = .ok y) : Yields m .value t ∧ ∃ x, next x = .ok y := by
  cases ht : t.evaluate m with
  | error e =>
      rw [ht] at h
      cases h
  | ok x =>
      rw [ht] at h
      exact ⟨⟨x, ht⟩, x, h⟩

theorem yields_of_evaluateAll {children : List Tree} {values : List α}
    (h : evaluateAll m children = .ok values) : ∀ c ∈ children, Yields m .value c := by
  induction children generalizing values with
  | nil => simp
  | cons t rest ih =>
      rw [evaluateAll_cons] at h
      obtain ⟨ht, x, h⟩ := yields_of_bind h
      intro c hc
      rcases List.mem_cons.mp hc with rfl | hc
      · exact ht
      · cases hrest : evaluateAll m rest with
        | error e =>
            rw [hrest] at h
            cases h
        | ok xs => exact ih hrest c hc

theorem yields_operator {value : String} {op : Operator} {children : List Tree}
    (h : Yields m .value (node value (.operator op) children)) :
    Role.value.admits (.operator op) children.length = true ∧
      ∀ c ∈ children, Yields m .value c := by
  obtain ⟨x, h⟩ := h
  match children, h with
  | [], h => cases op <;> cases h
  | [operand], h =>
      cases op with
      | minus =>
          rw [evaluate_negative] at h
          exact ⟨rfl, by simpa using (yields_of_bind h).1⟩
      | plus | times | divide | power => cases h
  | [left, right], h =>
      rw [evaluate_binary] at h
      obtain ⟨hleft, y, h⟩ := yields_of_bind h
      exact ⟨rfl, by simpa using ⟨hleft, (yields_of_bind h).1⟩⟩
  | _ :: _ :: _ :: _, h => cases op <;> cases h

theorem yields_group {value : String} {kind : Kind} {children : List Tree}
    (hgroup : kind.isGroup = true) (h : Yields m .value (node value kind children)) :
    Role.value.admits kind children.length = true ∧ ∀ c ∈ children, Yields m .value c := by
  obtain ⟨x, h⟩ := h
  cases kind with
  | openGroup | closedGroup =>
      match children, h with
      | [], h => cases h
      | [inner], h =>
          rw [evaluate_single hgroup] at h
          exact ⟨rfl, by simpa using ⟨x, h⟩⟩
      | _ :: _ :: _, h => cases h
  | number | operator | closer | word | comma => cases hgroup

theorem yields_call {value : String} {children : List Tree}
    (h : Yields m .value (node value .word children)) :
    Role.value.admits .word children.length = true ∧ ∀ c ∈ children, Yields m .arguments c := by
  obtain ⟨x, h⟩ := h
  match children, h with
  | [], h => cases h
  | [node text kind arguments], h =>
      rw [evaluate_call] at h
      split at h
      · rename_i hgroup
        cases hlist : evaluateAll m arguments with
        | error e =>
            rw [hlist] at h
            cases h
        | ok values => exact ⟨rfl, by simpa using ⟨hgroup, values, hlist⟩⟩
      · cases h
  | node text kind arguments :: next :: rest, h =>
      have herror : (node value .word (node text kind arguments :: next :: rest)).evaluate m =
          .error (.malformed (.noArguments value)) := rfl
      rw [herror] at h
      cases h

mutual

/-- **A tree with a value has no node that cannot serve as what it is there for.** -/
theorem serves_of_yields : ∀ (t : Tree) (role : Role), Yields m role t → t.Serves role
  | node value kind children => by
      have ih := serves_of_yieldsAll children
      intro role h
      cases role with
      | value =>
          cases kind with
          | number =>
              obtain ⟨x, h⟩ := h
              rw [evaluate_number] at h
              cases hnumber : Decimal.ofLiteral? value.toList with
              | none =>
                  rw [hnumber] at h
                  cases h
              | some number => exact .number (by rw [hnumber]; rfl)
          | operator op =>
              obtain ⟨hadmits, hchildren⟩ := yields_operator h
              exact .node hadmits fun c hc => ih c hc _ (hchildren c hc)
          | openGroup | closedGroup =>
              obtain ⟨hadmits, hchildren⟩ := yields_group rfl h
              exact .node hadmits fun c hc => ih c hc _ (hchildren c hc)
          | word =>
              obtain ⟨hadmits, hchildren⟩ := yields_call h
              exact .node hadmits fun c hc => ih c hc _ (hchildren c hc)
          | closer | comma =>
              obtain ⟨x, h⟩ := h
              cases h
      | arguments =>
          obtain ⟨hgroup, values, hvalues⟩ := h
          have hchildren := yields_of_evaluateAll hvalues
          cases kind with
          | openGroup | closedGroup =>
              exact .node rfl fun c hc => ih c hc _ (hchildren c hc)
          | number | operator | closer | word | comma => cases hgroup

theorem serves_of_yieldsAll : ∀ (children : List Tree),
    ∀ c ∈ children, ∀ role : Role, Yields m role c → c.Serves role
  | [] => by simp
  | t :: rest => by
      have ht := serves_of_yields t
      have hrest := serves_of_yieldsAll rest
      intro c hc
      rcases List.mem_cons.mp hc with rfl | hc
      · exact ht
      · exact hrest c hc

end

/-- **Which trees have a value**: those that serve as one and whose calls are all recognised. -/
theorem evaluate_eq_ok_iff (t : Tree) : (∃ x, t.evaluate m = .ok x) ↔
    t.Serves .value ∧ ∀ c ∈ t.calls, c.recognised = true := by
  have hnone : (∀ c ∈ t.calls, c.recognised = true) ↔
      t.calls.find? (fun c => !c.recognised) = none := by
    simp [List.find?_eq_none]
  rw [hnone]
  refine ⟨?_, ?_⟩
  · intro h
    have hserves := serves_of_yields t .value h
    refine ⟨hserves, ?_⟩
    have hdecided : Decides t.calls (t.evaluate m) := hserves.decided
    unfold Decides at hdecided
    cases hfind : t.calls.find? (fun c => !c.recognised) with
    | none => rfl
    | some c =>
        obtain ⟨x, hx⟩ := h
        rw [hfind, hx] at hdecided
        cases hdecided
  · intro hboth
    obtain ⟨hserves, hfind⟩ := hboth
    have hdecided : Decides t.calls (t.evaluate m) := hserves.decided
    unfold Decides at hdecided
    rw [hfind] at hdecided
    exact hdecided

end Tree

end Calculator
