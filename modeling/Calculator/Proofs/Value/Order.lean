/-
The order of the calls.

A scan notes a call when its argument list ends, and the calls of a tree are ordered in
the same way: what stands further left comes first, and what is inside comes before what
is around it.  So at any moment the calls that were noted are those of everything that is
complete.  `done` gathers them along the spine, and a walk up does not change them: it
puts calls together that follow on each other already.

At the end the argument lists that stayed open are still missing.  They end with the text,
from the inside out, which is the order of the open groups.

All this is true only of what can still have a value.  Where a word is followed by
something else than its argument list, the scan and the tree may disagree about its call.
-/
import Calculator.Proofs.Value.Steady

namespace Calculator.Spine

/-! ### Calls along a spine -/

/-- The calls of the complete children of frames, from the outside in. -/
def callsAbove : List Frame → List Invocation
  | [] => []
  | f :: above => callsAbove above ++ Tree.callsAll f.children

/-- The call that ends with an argument list of `count` values below the frames. -/
def ending (above : List Frame) (count : Nat) : List Invocation :=
  OpenGroup.call ⟨callerOf above, 0⟩ count

/-- The calls whose argument list has ended. -/
def done (s : Spine) : List Invocation :=
  callsAbove s.above ++ s.current.tree.calls ++
    if s.current.kind = .closedGroup then ending s.above s.current.children.length else []

theorem ending_of_value {above : List Frame} (h : role above = .value) (count : Nat) :
    ending above count = [] := by
  have hnone : callerOf above = none := by
    rw [← Option.not_isSome_iff_eq_none, ← role_eq_arguments_iff, h]
    exact Role.noConfusion
  rw [ending, OpenGroup.call, hnone]
  rfl

/-- A frame makes its own call after those of its children. -/
theorem calls_take {f : Frame} (hpending : f.Pending) (t : Tree) (above : List Frame) :
    (f.take t).tree.calls =
      Tree.callsAll f.children ++ t.calls ++ ending (f :: above) t.children.length := by
  obtain ⟨value, kind, children⟩ := f
  cases kind with
  | operator | openGroup =>
      show (Tree.node _ _ (children ++ [t])).calls = _
      rw [Tree.calls_node _ Kind.noConfusion Kind.noConfusion, Tree.callsAll_append,
        ending_of_value rfl]
      simp [Tree.callsAll]
  | word =>
      obtain rfl : children = [] := hpending
      rfl
  | number | closer | closedGroup | comma => exact hpending.elim

/-- Completing a frame puts calls together that follow on each other. -/
theorem done_up {f g : Frame} {above : List Frame} (hpending : g.Pending)
    (hopen : f.kind ≠ .openGroup) (hserves : f.tree.Serves g.kind.asks) :
    done ⟨g.take f.tree, above⟩ = done ⟨f, g :: above⟩ := by
  have hend : (if f.kind = .closedGroup then ending (g :: above) f.children.length else []) =
      ending (g :: above) f.children.length := by
    split
    · rfl
    · rename_i hgroup
      have hrole : role (g :: above) = .value := role_of_serves hserves hopen hgroup
      rw [ending_of_value hrole]
  show callsAbove above ++ (g.take f.tree).tree.calls ++
      (if g.kind = .closedGroup then _ else []) =
    callsAbove above ++ Tree.callsAll g.children ++ f.tree.calls ++ _
  rw [if_neg hpending.kind_ne.2, hend, calls_take hpending f.tree above]
  simp only [List.append_nil, List.append_assoc]
  rfl

theorem Rises.done_eq {s t : Spine} (h : Rises s t) (hpending : ∀ f ∈ s.above, f.Pending)
    (hserves : s.tree.Serves .value) : t.done = s.done := by
  induction h with
  | refl s => rfl
  | @up f g above t hopen _ ih =>
      have hg : g.Pending := hpending g List.mem_cons_self
      have hf : f.tree.Serves g.kind.asks := ((serves_tree hpending).mp hserves).1
      rw [ih (fun k hk => hpending k (List.mem_cons_of_mem _ hk)) hserves, done_up hg hopen hf]

/-- An operator makes no call, and it does not come between a call and its argument list. -/
theorem done_operate {s : Spine} (hrole : s.current.kind = .closedGroup → role s.above = .value)
    (token : String) (op : Operator) : (s.operate token op).done = s.done := by
  have hend : (if s.current.kind = .closedGroup then ending s.above s.current.children.length
      else []) = [] := by
    split
    · rename_i hclosed
      exact ending_of_value (hrole hclosed) _
    · rfl
  rw [done, done, hend]
  simp [operate, Frame.tree, Tree.calls_node, Tree.callsAll]

theorem calls_pending {f : Frame} (h : f.Pending) : f.tree.calls = Tree.callsAll f.children := by
  obtain ⟨value, kind, children⟩ := f
  cases kind with
  | operator | openGroup => exact Tree.calls_node _ Kind.noConfusion Kind.noConfusion
  | word =>
      obtain rfl : children = [] := h
      rfl
  | number | closer | closedGroup | comma => exact h.elim

/-- Neither does a token that hangs from another. -/
theorem done_hang {s : Spine} (hpending : s.current.Pending) {kind : Kind}
    (hgroup : kind ≠ .closedGroup) (token : String) : (s.hang token kind).done = s.done := by
  have hleaf : (Frame.tree ⟨token, kind, []⟩).calls = [] := by
    cases kind <;> rfl
  rw [done, done, if_neg hpending.kind_ne.2, calls_pending hpending]
  show callsAbove (s.current :: s.above) ++ (Frame.tree ⟨token, kind, []⟩).calls ++
    (if kind = .closedGroup then _ else []) = _
  rw [hleaf, if_neg hgroup]
  simp [callsAbove]

/-- Moving to a group, or opening one, makes no call. -/
theorem done_enclose {s : Spine} (hproper : s.Proper) (hserves : s.tree.Serves .value) :
    s.enclose.done = s.done := by
  rcases enclosing_cases s.current s.above with ⟨hrises, -⟩ | ⟨-, t, hrises, heq⟩
  · exact hrises.done_eq hproper.above hserves
  · rw [← hrises.done_eq hproper.above hserves, Spine.enclose, heq]
    simp [done, callsAbove, Frame.tree, Tree.calls_node, Tree.callsAll, ending, OpenGroup.call,
      callerOf]

/-- Closing a group ends the call that it is the argument list of. -/
theorem done_close (s : Spine) :
    s.close.done =
      s.enclose.done ++ ending s.enclose.above s.enclose.current.children.length := by
  have hcalls : s.close.current.tree.calls = s.enclose.current.tree.calls := by
    show (Tree.node _ .closedGroup s.enclose.current.children).calls = _
    rw [Frame.tree, kind_enclose s, Tree.calls_node _ Kind.noConfusion Kind.noConfusion,
      Tree.calls_node _ Kind.noConfusion Kind.noConfusion]
  rw [done, done, hcalls, if_pos (show s.close.current.kind = .closedGroup from rfl),
    if_neg (by rw [kind_enclose s]; exact Kind.noConfusion), List.append_nil]
  rfl

/-! ### Every token -/

section Step

variable {tokens : List String} {s : Spine} {token : String} {kind : Kind}

theorem scan_close (tokens : List String) : (scan (tokens ++ [")"])).calls =
    (scan tokens).calls ++ (scan tokens).groups.head?.elim [] fun g => g.call (g.commas + 1) := by
  rw [scan_concat]
  simp only [Scan.step]
  cases (scan tokens).groups <;> simp

theorem scan_separate (tokens : List String) :
    (scan (tokens ++ [","])).calls = (scan tokens).calls := by
  rw [scan_concat]
  simp only [Scan.step]
  cases (scan tokens).groups <;> simp

/-- The call that a `)` ends is that of the group around the operand, if there is one. -/
theorem Grouped.ending_close (h : Grouped tokens s) (hoperand : s.current.kind.isOperand = true) :
    ((scan tokens).groups.head?.elim [] fun g => g.call (g.commas + 1)) =
      ending s.enclose.above s.enclose.current.children.length := by
  have hcurrent := not_open_of_isOperand hoperand
  rw [h.groups, groupsOf_other hcurrent]
  rcases groupsOf_enclose hcurrent with ⟨n, hlen, habove⟩ | ⟨t, habove, heq⟩
  · rw [habove, hlen]
    rfl
  · rw [habove, heq]
    rfl

theorem calls_place (hproper : s.Proper) (hgrouped : Grouped tokens s)
    (hcalls : (scan tokens).calls = s.done) {placement : Placement}
    (hkind : Kind.of? token = some kind)
    (hplace : Placement.of? s.current.kind kind = some placement)
    (hsettled : (s.place token kind placement).Settled) :
    (scan (tokens ++ [token])).calls = (s.place token kind placement).done := by
  cases placement with
  | rightOf op =>
      obtain ⟨hoperand, rfl⟩ := Placement.of?_eq_rightOf hplace
      have hrises := rises_leftOperand s op (not_open_of_isOperand hoperand)
      rw [Spine.place, settled_rightOf hproper hoperand,
        settled_of_complete (complete_of_isOperand hoperand)] at hsettled
      have hrole : (s.leftOperand op).current.kind = .closedGroup →
          role (s.leftOperand op).above = .value := role_wholeCall _
      rw [(scan_add hkind Kind.noConfusion Kind.noConfusion).2, hcalls, Spine.place,
        done_operate hrole, hrises.done_eq hproper.above hsettled]
  | below =>
      obtain ⟨hoperand, hcloser, hcomma, hgroup⟩ := Placement.kinds_of_below hplace
      have hpending := (hproper.place hkind hplace).above s.current List.mem_cons_self
      rw [(scan_add hkind hcloser hcomma).2, hcalls, Spine.place, done_hang hpending hgroup]
  | factor =>
      obtain ⟨hoperand, hcloser, hcomma, hgroup⟩ := Placement.kinds_of_factor hplace
      rw [Spine.place, settled_factor hproper hkind hplace] at hsettled
      have hpending := (hproper.place hkind hplace).above _ List.mem_cons_self
      rw [(scan_add hkind hcloser hcomma).2, hcalls, Spine.place, multiply,
        done_hang hpending hgroup, done_operate fun _ => hsettled.2]
  | close =>
      obtain ⟨hoperand, rfl⟩ := Placement.of?_eq_close hplace
      obtain rfl := Kind.eq_of_spelling hkind rfl
      rw [Spine.place, settled_close hproper hoperand,
        settled_of_complete (complete_of_isOperand hoperand)] at hsettled
      rw [scan_close, hcalls, Spine.place, done_close s, done_enclose hproper hsettled,
        hgrouped.ending_close hoperand]
  | separate =>
      obtain ⟨hoperand, rfl⟩ := Placement.of?_eq_separate hplace
      obtain rfl := Kind.eq_of_spelling hkind rfl
      rw [Spine.place, settled_enclose hoperand,
        settled_of_complete (complete_of_isOperand hoperand)] at hsettled
      rw [scan_separate, hcalls, Spine.place, done_enclose hproper hsettled]

end Step

/-- **The scan has noted the calls of everything that is complete.** -/
theorem calls_ofTokens {tokens : List String} {s : Spine} (h : ofTokens tokens = .ok s)
    (hplain : Plain tokens) (hsettled : s.Settled) : (scan tokens).calls = s.done := by
  refine ofTokens_induction (P := fun tokens s => Plain tokens → s.Settled →
    (scan tokens).calls = s.done) ?_ ?_ tokens s h hplain hsettled
  · intro token kind hkind hplain _
    obtain ⟨hcloser, hcomma, hgroup⟩ := hplain.kind_ne hkind
    have hscan : (scan ([] ++ [token])).calls = _ := (scan_add hkind hcloser hcomma).2
    refine hscan.trans ?_
    rw [done, if_neg hgroup]
    cases kind <;> rfl
  · intro tokens s token kind placement hread ih hkind hplace hplain hsettled
    have hplain' := hplain.of_concat (ofTokens_ne_nil hread)
    have hproper := proper_ofTokens hread
    have hsteady := steady_iff_settled hread hplain'
    have hgrouped := grouped_ofTokens hread hplain'
    obtain ⟨before, last, rfl, hlast⟩ := lastSeen_ofTokens hread hplain'
    have hbefore := (hlast.steady_place hproper hsteady hkind hplace).mpr hsettled
    rw [steady_concat, hsteady] at hbefore
    exact calls_place hproper hgrouped (ih hplain' hbefore.1) hkind hplace hsettled

/-! ### The end -/

/-- The calls of the whole tree are those along the spine, and those of the groups that are
open around the cursor. -/
theorem calls_tree {s : Spine} (hpending : ∀ f ∈ s.above, f.Pending) (hhosting : Hosting s.above) :
    s.tree.calls = callsAbove s.above ++ s.current.tree.calls ++
      ending s.above s.current.children.length ++
      (groupsOf s.above).flatMap fun g => g.call (g.commas + 1) := by
  obtain ⟨f, above⟩ := s
  induction above generalizing f with
  | nil => simp [Spine.tree, fold, callsAbove, ending, OpenGroup.call, callerOf, groupsOf]
  | cons g above ih =>
      have hg : g.Pending := hpending g List.mem_cons_self
      have hrest : ∀ k ∈ above, k.Pending := fun k hk => hpending k (List.mem_cons_of_mem _ hk)
      -- Only a group can be below a word, and it is that group that makes the call.
      have hgroups : ((groupsOf (g :: above)).flatMap fun g => g.call (g.commas + 1)) =
          ending above (g.children.length + 1) ++
            (groupsOf above).flatMap fun g => g.call (g.commas + 1) := by
        by_cases hopen : g.kind = .openGroup
        · rw [groupsOf_open hopen]
          rfl
        · have hrole : role above = .value :=
            role_of_admits hhosting.1.admits hopen hg.kind_ne.2
          rw [groupsOf_other hopen, ending_of_value hrole]
          rfl
      have hfold := ih (g.take f.tree) hrest hhosting.2
      simp only [Frame.children_take, List.length_append, List.length_singleton,
        calls_take hg f.tree above] at hfold
      refine hfold.trans ?_
      simp only [hgroups, callsAbove, List.append_assoc]
      rfl

end Calculator.Spine
