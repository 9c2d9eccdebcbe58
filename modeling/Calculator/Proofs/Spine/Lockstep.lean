/-
Two spines that read the same tokens.

The tokens that follow see of a spine only the frame under the cursor: its kind says
what may come next, and its text is named in the error.  So two spines that look alike
there fail together, and as long as placing a token keeps them alike, in whatever sense,
they go on together.  `Lockstep` is what such a sense has to satisfy.

The first example is a spine on top of more frames.  Where the first of these is an open
group, operators do not climb past it; a `)` or a `,` reaches it only if no group is
open above.
-/
import Calculator.Proofs.Descent
import Calculator.Proofs.Text.Depth

namespace Calculator.Spine

/-! ### Going on together -/

/-- Both were read, to spines in the relation, or both failed with one error. -/
inductive Related (R : Spine → Spine → Prop) : Except Error Spine → Except Error Spine → Prop
  | ok {s t : Spine} (h : R s t) : Related R (.ok s) (.ok t)
  | error (e : Error) : Related R (.error e) (.error e)

/-- Spines in the relation look alike to the next token, and placing it keeps them in it. -/
structure Lockstep (R : Spine → Spine → Prop) : Prop where
  current : ∀ {s t}, R s t →
    s.current.value = t.current.value ∧ s.current.kind = t.current.kind
  place : ∀ {s t} (token : String) {kind : Kind} {placement : Placement}, R s t →
    Placement.of? s.current.kind kind = some placement →
    R (s.place token kind placement) (t.place token kind placement)

section Lockstep

variable {R : Spine → Spine → Prop} {s t : Spine}

theorem Lockstep.step (h : Lockstep R) (hst : R s t) (token : String) :
    Related R (s.step token) (t.step token) := by
  obtain ⟨hvalue, hkind⟩ := h.current hst
  unfold Spine.step
  cases Kind.classify token with
  | error e => exact .error e
  | ok kind =>
      simp only [bind, Except.bind, ← hvalue, ← hkind]
      cases hplace : Placement.of? s.current.kind kind with
      | none => exact .error _
      | some placement => exact .ok (h.place token hst hplace)

theorem Lockstep.foldlM (h : Lockstep R) (tokens : List String) : ∀ {s t : Spine}, R s t →
    Related R (tokens.foldlM Spine.step s) (tokens.foldlM Spine.step t) := by
  induction tokens with
  | nil => exact fun hst => .ok hst
  | cons token rest ih =>
      intro s t hst
      have hstep := h.step hst token
      rw [List.foldlM_cons, List.foldlM_cons]
      generalize s.step token = x at hstep
      generalize t.step token = y at hstep
      cases hstep with
      | ok hnext => exact ih hnext
      | error e => exact .error e

/-- What does not tell the spines apart does not tell the results apart. -/
theorem Related.bind_eq {α : Type} {x y : Except Error Spine} (h : Related R x y)
    {next next' : Spine → Except Error α} (hnext : ∀ s t, x = .ok s → R s t → next s = next' t) :
    x >>= next = y >>= next' := by
  cases h with
  | ok hst => exact hnext _ _ rfl hst
  | error e => rfl

end Lockstep

/-! ### On top of more frames -/

/-- The spine on top of other frames. -/
def atop (s : Spine) (base : List Frame) : Spine :=
  ⟨s.current, s.above ++ base⟩

/-- The first of the frames, if there is one, is an open group. -/
def Barred (base : List Frame) : Prop :=
  ∀ g ∈ base.head?, g.kind = .openGroup

theorem barred_cons {g : Frame} (h : g.kind = .openGroup) (rest : List Frame) :
    Barred (g :: rest) := by
  intro k hk
  obtain rfl := Option.some.inj hk
  exact h

theorem atop_nil (s : Spine) : s.atop [] = s := by
  rw [atop, List.append_nil]

section Atop

variable {s : Spine} {base : List Frame}

theorem climb_append {precedence : Nat} (hpos : 0 < precedence) (hbase : Barred base)
    (f : Frame) (above : List Frame) :
    climb precedence f (above ++ base) = (climb precedence f above).atop base := by
  induction above generalizing f with
  | nil =>
      cases base with
      | nil => rfl
      | cons g rest =>
          have hloose : ¬precedence ≤ g.kind.precedence := by
            rw [hbase g rfl]
            exact Nat.not_le.mpr hpos
          exact if_neg hloose
  | cons k above ih =>
      rw [List.cons_append, climb, climb]
      by_cases hle : precedence ≤ k.kind.precedence
      · rw [if_pos hle, if_pos hle]
        exact ih _
      · rw [if_neg hle, if_neg hle]
        rfl

theorem wholeCall_atop (hbase : Barred base) (s : Spine) :
    (s.atop base).wholeCall = s.wholeCall.atop base := by
  obtain ⟨f, above⟩ := s
  cases above with
  | nil =>
      cases base with
      | nil => rfl
      | cons g rest =>
          have hword : g.kind ≠ .word := by
            rw [hbase g rfl]
            exact Kind.noConfusion
          exact if_neg fun hboth => hword hboth.2
  | cons k above =>
      show wholeCall ⟨f, k :: (above ++ base)⟩ = (wholeCall ⟨f, k :: above⟩).atop base
      rw [wholeCall, wholeCall]
      by_cases hcall : f.kind = .closedGroup ∧ k.kind = .word
      · rw [if_pos hcall, if_pos hcall]
        rfl
      · rw [if_neg hcall, if_neg hcall]
        rfl

theorem leftOperand_atop (hbase : Barred base) (s : Spine) (op : Operator) :
    (s.atop base).leftOperand op = (s.leftOperand op).atop base := by
  show (climb op.precedence s.current (s.above ++ base)).wholeCall = _
  rw [climb_append op.precedence_pos hbase, wholeCall_atop hbase]
  rfl

/-- An open group of its own is found without the frames below. -/
theorem enclose_atop (hopens : 0 < s.opens) (base : List Frame) :
    (s.atop base).enclose = s.enclose.atop base := by
  rw [opens_pos_iff] at hopens
  obtain ⟨f, above⟩ := s
  show enclosing f (above ++ base) = (enclosing f above).atop base
  induction above generalizing f with
  | nil =>
      have hopen : f.kind = .openGroup := by simpa using hopens
      cases base <;> simp [enclosing, atop, hopen]
  | cons k above ih =>
      rw [List.cons_append, enclosing, enclosing]
      by_cases hopen : f.kind = .openGroup
      · rw [if_pos hopen, if_pos hopen]
        rfl
      · rw [if_neg hopen, if_neg hopen]
        refine ih (k.take f.tree) ?_
        simpa [hopen] using hopens

/-- Without one, the first of the frames below takes the whole tree. -/
theorem enclose_atop_of_opens_eq_zero (hopens : s.opens = 0) {g : Frame}
    (hopen : g.kind = .openGroup) (rest : List Frame) :
    (s.atop (g :: rest)).enclose = ⟨g.take s.tree, rest⟩ := by
  have hnone : ∀ f ∈ s.current :: s.above, f.kind ≠ .openGroup := by
    intro f hf hf'
    exact absurd (opens_pos_iff.mpr ⟨f, hf, hf'⟩) (by omega)
  obtain ⟨f, above⟩ := s
  show enclosing f (above ++ g :: rest) = ⟨g.take (fold f above), rest⟩
  clear hopens
  induction above generalizing f with
  | nil =>
      rw [List.nil_append, enclosing, if_neg (hnone f List.mem_cons_self)]
      cases rest <;> exact if_pos hopen
  | cons k above ih =>
      rw [List.cons_append, enclosing, if_neg (hnone f List.mem_cons_self)]
      refine ih (k.take f.tree) ?_
      simpa using fun a ha => hnone a (List.mem_cons_of_mem _ ha)

theorem close_atop {t : Spine} (h : t.enclose = s.enclose.atop base) :
    t.close = s.close.atop base := by
  rw [Spine.close, h]
  rfl

/-- **Frames below an open group take no part in what is placed**, unless a group is needed
and none is open. -/
theorem place_atop (hbase : Barred base) (token : String) (kind : Kind) {placement : Placement}
    (hopens : placement = .close ∨ placement = .separate → 0 < s.opens) :
    (s.atop base).place token kind placement = (s.place token kind placement).atop base := by
  cases placement with
  | rightOf op =>
      show ((s.atop base).leftOperand op).operate token op = _
      rw [leftOperand_atop hbase]
      rfl
  | below | factor => rfl
  | close => exact close_atop (enclose_atop (hopens (Or.inl rfl)) base)
  | separate => exact enclose_atop (hopens (Or.inr rfl)) base

end Atop

end Calculator.Spine
