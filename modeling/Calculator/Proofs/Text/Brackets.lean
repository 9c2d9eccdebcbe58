/-
Which parentheses belong together.

In a text a `)` belongs to the last `(` that has none yet, and a `,` separates inside the
last `(` that is still open.  In a tree the same tokens belong to the group that wrote
them.  `matching` says the first and `owners` the second, both by the place of the `(`.

They agree on a tree whose groups are closed, whatever is open around it.  In an
expression some groups may have stayed open, but only on the way down to the cursor: all
that such a group could have been followed by is its own content.  `Ragged` says that.
-/
import Calculator.Proofs.Text.Linear

namespace Calculator

/-! ### In a text -/

/-- Is this a token that delimits the values of a group? -/
def delimits (token : String) : Bool :=
  token = "(" || token = ")" || token = ","

/-- For every token of a text, the place of the `(` of the group that it delimits, when the
groups whose places are given are open. -/
def matching (groups : List Nat) (place : Nat) : List String → List (Option Nat)
  | [] => []
  | token :: rest =>
      if token = "(" then some place :: matching (place :: groups) (place + 1) rest
      else if token = ")" then groups.head? :: matching groups.tail (place + 1) rest
      else if token = "," then groups.head? :: matching groups (place + 1) rest
      else none :: matching groups (place + 1) rest

theorem matching_open (groups : List Nat) (place : Nat) (rest : List String) :
    matching groups place ("(" :: rest) =
      some place :: matching (place :: groups) (place + 1) rest := rfl

theorem matching_comma (groups : List Nat) (place : Nat) (rest : List String) :
    matching groups place ("," :: rest) = groups.head? :: matching groups (place + 1) rest := rfl

theorem matching_of_not_delimits {token : String} (h : delimits token = false)
    (groups : List Nat) (place : Nat) (rest : List String) :
    matching groups place (token :: rest) = none :: matching groups (place + 1) rest := by
  simp only [delimits, Bool.or_eq_false_iff, decide_eq_false_iff_not] at h
  rw [matching, if_neg h.1.1, if_neg h.1.2, if_neg h.2]

/-! ### In a tree -/

namespace Tree

mutual

/-- For every token that a tree writes, the place of the `(` of the group that the token
delimits, when the tree begins at `place`. -/
def owners (place : Nat) : Tree → List (Option Nat)
  | node _ (.operator _) [operand] => none :: operand.owners (place + 1)
  | node _ (.operator _) [left, right] =>
      left.owners place ++ none :: right.owners (place + left.linear.length + 1)
  | node _ .word children => none :: ownersAll (place + 1) children
  | node _ .openGroup children => some place :: separatedOwners place (place + 1) children
  | node _ .closedGroup children =>
      some place :: (separatedOwners place (place + 1) children ++ [some place])
  | node _ _ _ => [none]

/-- The same for neighbouring trees. -/
def ownersAll (place : Nat) : List Tree → List (Option Nat)
  | [] => []
  | t :: rest => t.owners place ++ ownersAll (place + t.linear.length) rest

/-- The same for neighbouring trees with the commas of a group between them. -/
def separatedOwners (group place : Nat) : List Tree → List (Option Nat)
  | [] => []
  | [t] => t.owners place
  | t :: next :: rest =>
      t.owners place ++
        some group :: separatedOwners group (place + t.linear.length + 1) (next :: rest)

end

/-- A tree without open groups. -/
inductive Sealed : Tree → Prop
  | leaf {value : String} {kind : Kind} (hkind : kind.isGroup = false)
      (hvalue : delimits value = false) : Sealed (.node value kind [])
  | take {f : Frame} {t : Tree} (hpending : f.Pending) (hkind : f.kind ≠ .openGroup)
      (hvalue : delimits f.value = false) (hchildren : ∀ c ∈ f.children, Sealed c)
      (ht : Sealed t) : Sealed (f.take t).tree
  | closed {value : String} {children : List Tree} (hchildren : ∀ c ∈ children, Sealed c) :
      Sealed (.node value .closedGroup children)

/-- A tree whose groups are closed, except some that reach to its right end. -/
inductive Ragged : Tree → Prop
  | whole {t : Tree} (h : Sealed t) : Ragged t
  | opened {value : String} : Ragged (.node value .openGroup [])
  | take {f : Frame} {t : Tree} (hpending : f.Pending)
      (hvalue : f.kind.isGroup = false → delimits f.value = false)
      (hchildren : ∀ c ∈ f.children, Sealed c) (ht : Ragged t) : Ragged (f.take t).tree

/-- In front of `rest`, the tokens of the tree are matched as the tree has them. -/
def Agrees (t : Tree) (rest : List String) : Prop :=
  ∀ groups place, matching groups place (t.linear ++ rest) =
    t.owners place ++ matching groups (place + t.linear.length) rest

/-! ### They agree -/

theorem agrees_separated {children : List Tree} {t : Tree} {rest : List String}
    (hchildren : ∀ c ∈ children, ∀ rest, c.Agrees rest) (ht : t.Agrees rest)
    (group : Nat) (groups : List Nat) (place : Nat) :
    matching (group :: groups) place (separated (children ++ [t]) ++ rest) =
      separatedOwners group place (children ++ [t]) ++
        matching (group :: groups) (place + (separated (children ++ [t])).length) rest := by
  induction children generalizing place with
  | nil => exact ht (group :: groups) place
  | cons c children ih =>
      have hc := hchildren c List.mem_cons_self
      have hrest := ih (fun d hd => hchildren d (List.mem_cons_of_mem _ hd))
      -- There is a next child, be it `t` itself.
      obtain ⟨next, others, hnext⟩ : ∃ next others, children ++ [t] = next :: others :=
        List.exists_cons_of_ne_nil (by simp)
      rw [List.cons_append, hnext, separated, separatedOwners, ← hnext, List.append_assoc, hc]
      rw [List.cons_append, matching_comma, hrest]
      simp [Nat.add_assoc, Nat.add_comm 1]

/-- A node agrees with what its last child agrees with; an open group only with the end. -/
theorem agrees_take {f : Frame} {t : Tree} {rest : List String} (hpending : f.Pending)
    (hopen : f.kind = .openGroup → rest = [])
    (hvalue : f.kind.isGroup = false → delimits f.value = false)
    (hchildren : ∀ c ∈ f.children, ∀ rest, c.Agrees rest) (ht : t.Agrees rest) :
    (f.take t).tree.Agrees rest := by
  obtain ⟨value, kind, children⟩ := f
  intro groups place
  cases kind with
  | operator op =>
      have hmatch := matching_of_not_delimits (hvalue rfl)
      obtain ⟨-, hlen⟩ := hpending
      match children, hlen with
      | [], _ =>
          show matching groups place (value :: (t.linear ++ rest)) = _
          rw [hmatch, ht]
          simp [Frame.take, Frame.tree, owners, linear, Nat.add_assoc, Nat.add_comm 1]
      | [left], _ =>
          have hleft := hchildren left List.mem_cons_self
          show matching groups place ((left.linear ++ value :: t.linear) ++ rest) = _
          rw [List.append_assoc, hleft, List.cons_append, hmatch, ht]
          simp [Frame.take, Frame.tree, owners, linear, Nat.add_assoc, Nat.add_comm 1]
  | openGroup =>
      obtain rfl := hopen rfl
      have hvalues := agrees_separated hchildren ht place groups (place + 1)
      rw [List.append_nil, matching, List.append_nil] at hvalues
      show matching groups place (("(" :: separated (children ++ [t])) ++ []) = _
      rw [List.append_nil, matching_open, hvalues, matching, List.append_nil]
      rfl
  | word =>
      obtain rfl : children = [] := hpending
      have hmatch := matching_of_not_delimits (hvalue rfl)
      show matching groups place (value :: ((t.linear ++ []) ++ rest)) = _
      rw [List.append_nil, hmatch, ht]
      simp [Frame.take, Frame.tree, owners, ownersAll, linear, linearAll, Nat.add_assoc,
        Nat.add_comm 1]
  | number | closer | closedGroup | comma => exact hpending.elim

theorem agrees_closed {value : String} {children : List Tree}
    (hchildren : ∀ c ∈ children, ∀ rest, c.Agrees rest) (rest : List String) :
    (node value .closedGroup children).Agrees rest := by
  intro groups place
  have hvalues : matching (place :: groups) (place + 1) (separated children ++ ")" :: rest) =
      separatedOwners place (place + 1) children ++ some place ::
        matching groups (place + 1 + (separated children).length + 1) rest := by
    rcases List.eq_nil_or_concat children with rfl | ⟨others, last, rfl⟩
    · rfl
    · rw [List.concat_eq_append] at hchildren ⊢
      rw [agrees_separated (fun c hc => hchildren c (List.mem_append_left _ hc))
        (hchildren last (by simp) _)]
      rfl
  show matching groups place ("(" :: ((separated children ++ [")"]) ++ rest)) = _
  rw [matching_open, List.append_assoc, List.singleton_append, hvalues]
  simp [owners, linear, Nat.add_assoc, Nat.add_comm 1]

theorem Sealed.agrees {t : Tree} (h : t.Sealed) : ∀ rest, t.Agrees rest := by
  induction h with
  | @leaf value kind hkind hvalue =>
      intro rest groups place
      have hmatch := matching_of_not_delimits hvalue groups place rest
      cases kind with
      | openGroup | closedGroup => cases hkind
      | number | operator op | closer | word | comma => exact hmatch
  | take hpending hkind hvalue _ _ hchildren ht =>
      intro rest
      exact agrees_take hpending (fun h => absurd h hkind) (fun _ => hvalue) hchildren (ht rest)
  | closed _ hchildren => exact agrees_closed hchildren

/-- **A tree whose open groups reach to its end has its parentheses and commas where the
text has them.** -/
theorem Ragged.owners_eq {t : Tree} (h : t.Ragged) : t.owners 0 = matching [] 0 t.linear := by
  have hagrees : t.Agrees [] := by
    induction h with
    | whole h => exact h.agrees []
    | opened => exact fun _ _ => rfl
    | take hpending hvalue hchildren _ ht =>
        exact agrees_take hpending (fun _ => rfl) hvalue (fun c hc => (hchildren c hc).agrees) ht
  have hwhole := hagrees [] 0
  rw [List.append_nil, matching, List.append_nil] at hwhole
  exact hwhole.symm

end Tree

/-! ### The trees of spines -/

theorem delimits_eq_false {token : String} {kind : Kind} (h : Kind.of? token = some kind)
    (hopen : kind ≠ .openGroup) (hcloser : kind ≠ .closer) (hcomma : kind ≠ .comma) :
    delimits token = false := by
  simp only [delimits, Bool.or_eq_false_iff, decide_eq_false_iff_not]
  refine ⟨⟨?_, ?_⟩, ?_⟩
  all_goals rintro rfl
  · exact hopen (Option.some.inj h).symm
  · exact hcloser (Option.some.inj h).symm
  · exact hcomma (Option.some.inj h).symm

/-- The complete children of a frame have no open groups, and its own token is no
delimiter unless it makes the frame a group. -/
structure Frame.Neat (f : Frame) : Prop where
  value : f.kind.isGroup = false → delimits f.value = false
  children : ∀ t ∈ f.children, t.Sealed

theorem Frame.Neat.take {f : Frame} (h : f.Neat) {t : Tree} (ht : t.Sealed) :
    (f.take t).Neat where
  value := h.value
  children := by
    intro c hc
    rcases List.mem_append.mp hc with hc | hc
    · exact h.children c hc
    · rw [List.mem_singleton.mp hc]
      exact ht

/-- A pending frame that is no open group takes a child and is sealed. -/
theorem Frame.Neat.sealed {f : Frame} (h : f.Neat) (hpending : f.Pending)
    (hopen : f.kind ≠ .openGroup) {t : Tree} (ht : t.Sealed) : (f.take t).tree.Sealed := by
  refine .take hpending hopen (h.value ?_) h.children ht
  rcases hpending.kind_cases with ⟨op, hk⟩ | hk | hk
  · rw [hk]
    rfl
  · exact absurd hk hopen
  · rw [hk]
    rfl

namespace Spine

/-- Every frame is neat, and a complete operand under the cursor has no open groups. -/
structure Neat (s : Spine) : Prop where
  frames : ∀ f ∈ s.current :: s.above, f.Neat
  operand : s.current.kind.isOperand = true → s.current.tree.Sealed

/-- What a walk keeps: what it leaves behind has no open groups. -/
theorem Rises.neat {s t : Spine} (h : Rises s t) (hpending : ∀ f ∈ s.above, f.Pending)
    (hframes : ∀ f ∈ s.current :: s.above, f.Neat)
    (hsealed : s.current.kind ≠ .openGroup → s.current.tree.Sealed) :
    (∀ f ∈ t.current :: t.above, f.Neat) ∧
      (t.current.kind ≠ .openGroup → t.current.tree.Sealed) := by
  induction h with
  | refl s => exact ⟨hframes, hsealed⟩
  | @up f g above t hclosed _ ih =>
      have hg : g.Neat := hframes g (by simp)
      have hf : f.tree.Sealed := hsealed hclosed
      refine ih (fun k hk => hpending k (List.mem_cons_of_mem _ hk)) ?_ ?_
      · intro k hk
        rcases List.mem_cons.mp hk with rfl | hk
        · exact hg.take hf
        · exact hframes k (by simp [hk])
      · intro hopen
        exact hg.sealed (hpending g List.mem_cons_self) hopen hf

theorem leaf_neat {token : String} {kind : Kind} (h : Kind.of? token = some kind)
    (hcloser : kind ≠ .closer) (hcomma : kind ≠ .comma) :
    Frame.Neat ⟨token, kind, []⟩ ∧
      (kind.isOperand = true → (Frame.tree ⟨token, kind, []⟩).Sealed) := by
  have hvalue : kind.isGroup = false → delimits token = false := by
    intro hgroup
    refine delimits_eq_false h ?_ hcloser hcomma
    intro hsame
    subst hsame
    cases hgroup
  refine ⟨⟨hvalue, by simp⟩, fun hoperand => ?_⟩
  cases kind with
  | closedGroup => exact .closed (by simp)
  | number => exact .leaf rfl (hvalue rfl)
  | operator | openGroup | closer | word | comma => cases hoperand

theorem Neat.hang {s : Spine} (h : ∀ f ∈ s.current :: s.above, f.Neat) {token : String}
    {kind : Kind} (hkind : Kind.of? token = some kind) (hcloser : kind ≠ .closer)
    (hcomma : kind ≠ .comma) : (s.hang token kind).Neat := by
  obtain ⟨hneat, hsealed⟩ := leaf_neat hkind hcloser hcomma
  refine ⟨fun f hf => ?_, hsealed⟩
  rcases List.mem_cons.mp hf with rfl | hf
  · exact hneat
  · exact h f hf

theorem neat_operate {s : Spine} (h : ∀ f ∈ s.current :: s.above, f.Neat)
    (hsealed : s.current.tree.Sealed) (op : Operator) :
    ∀ f ∈ (s.operate op.symbol op).current :: (s.operate op.symbol op).above, f.Neat := by
  intro f hf
  rcases List.mem_cons.mp hf with rfl | hf
  · refine ⟨fun _ => ?_, ?_⟩
    · exact delimits_eq_false (Kind.of?_symbol op) Kind.noConfusion Kind.noConfusion
        Kind.noConfusion
    · intro t ht
      rw [List.mem_singleton.mp ht]
      exact hsealed
  · exact h f (List.mem_cons_of_mem _ hf)

/-- The group that is moved to is neat like the rest. -/
theorem Neat.enclose {s : Spine} (h : s.Neat) (hproper : s.Proper)
    (hoperand : s.current.kind.isOperand = true) :
    ∀ f ∈ s.enclose.current :: s.enclose.above, f.Neat := by
  have hsealed := h.operand hoperand
  rcases enclosing_cases s.current s.above with ⟨hrises, -⟩ | ⟨hnone, t, hrises, heq⟩
  · exact (hrises.neat hproper.above h.frames fun _ => hsealed).1
  · obtain ⟨-, ht⟩ := hrises.neat hproper.above h.frames fun _ => hsealed
    have hclosed : t.kind ≠ .openGroup := by
      rcases hrises.current with hsame | ⟨g, hg, c, hc⟩
      · have ht : t = s.current := congrArg Spine.current hsame
        rw [ht]
        exact not_open_of_isOperand hoperand
      · have ht : t = g.take c := hc
        rw [ht]
        exact hnone g (List.mem_cons_of_mem _ hg)
    rw [Spine.enclose, heq]
    intro f hf
    obtain rfl := List.mem_singleton.mp hf
    refine ⟨Bool.noConfusion, ?_⟩
    intro c hc
    rw [List.mem_singleton.mp hc]
    exact ht hclosed

theorem Neat.place {s : Spine} (h : s.Neat) (hproper : s.Proper) {token : String} {kind : Kind}
    {placement : Placement} (hkind : Kind.of? token = some kind)
    (hplace : Placement.of? s.current.kind kind = some placement) :
    (s.place token kind placement).Neat := by
  cases placement with
  | rightOf op =>
      obtain ⟨hoperand, rfl⟩ := Placement.of?_eq_rightOf hplace
      obtain rfl := Kind.eq_of_spelling hkind rfl
      have hclosed := not_open_of_isOperand hoperand
      have hrises := rises_leftOperand s op hclosed
      obtain ⟨hframes, hsealed⟩ :=
        hrises.neat hproper.above h.frames fun _ => h.operand hoperand
      have hleft := hsealed (leftOperand_not_open s op hclosed)
      exact ⟨neat_operate hframes hleft op, Bool.noConfusion⟩
  | below =>
      obtain ⟨-, hcloser, hcomma, -⟩ := Placement.kinds_of_below hplace
      exact Neat.hang h.frames hkind hcloser hcomma
  | factor =>
      obtain ⟨hoperand, hcloser, hcomma, -⟩ := Placement.kinds_of_factor hplace
      have hframes := neat_operate h.frames (h.operand hoperand) .times
      exact Neat.hang hframes hkind hcloser hcomma
  | close =>
      obtain ⟨hoperand, rfl⟩ := Placement.of?_eq_close hplace
      have hframes := h.enclose hproper hoperand
      have hgroup := hframes _ List.mem_cons_self
      refine ⟨fun f hf => ?_, fun _ => .closed hgroup.children⟩
      rcases List.mem_cons.mp hf with rfl | hf
      · exact ⟨Bool.noConfusion, hgroup.children⟩
      · exact hframes f (List.mem_cons_of_mem _ hf)
  | separate =>
      obtain ⟨hoperand, rfl⟩ := Placement.of?_eq_separate hplace
      refine ⟨h.enclose hproper hoperand, fun hfalse => ?_⟩
      exact absurd (kind_enclose s) (not_open_of_isOperand hfalse)

theorem neat_ofTokens {tokens : List String} {s : Spine} (h : ofTokens tokens = .ok s)
    (hcontinuable : Continuable tokens) : s.Neat := by
  refine ofTokens_induction (P := fun tokens s => Continuable tokens → s.Neat)
    ?_ ?_ tokens s h hcontinuable
  · intro token kind hkind hcontinuable
    obtain ⟨hcloser, hcomma⟩ := hcontinuable.kind_ne hkind
    obtain ⟨hneat, hsealed⟩ := leaf_neat hkind hcloser hcomma
    exact ⟨by simpa using hneat, hsealed⟩
  · intro tokens s token kind placement hread ih hkind hplace hcontinuable
    have hs := ih (hcontinuable.of_concat (ofTokens_ne_nil hread))
    exact hs.place (proper_ofTokens hread) hkind hplace

/-- Frames complete a tree whose open groups reach to its end to another one. -/
theorem Neat.ragged {s : Spine} (h : s.Neat) (hproper : s.Proper)
    (hcurrent : s.current.tree.Ragged) : s.tree.Ragged := by
  obtain ⟨f, above⟩ := s
  have habove : ∀ g ∈ above, g.Pending ∧ g.Neat := fun g hg =>
    ⟨hproper.above g hg, h.frames g (List.mem_cons_of_mem _ hg)⟩
  clear h hproper
  induction above generalizing f with
  | nil => exact hcurrent
  | cons g above ih =>
      obtain ⟨hpending, hneat⟩ := habove g List.mem_cons_self
      exact ih (g.take f.tree) (.take hpending hneat.value hneat.children hcurrent)
        fun k hk => habove k (List.mem_cons_of_mem _ hk)

end Spine

end Calculator
