/-
Which tokens the nodes were made for, and how many children they get.

Most tokens make one node each, a factor makes the product in front of it as well, and a
`)` or a `,` makes one only where no group is open: the group that it needs.  So the nodes
of an expression are known from the tokens, in the order in which they are made, and so is
the number of the children of each of them.  Nothing here speaks of a tree.

Everything is said with an equation for one token more.  A token that comes behind others
gives a child to the one node that was waiting for it, if there is one, and to no other.
-/
import Calculator.Proofs.Text.Kept

namespace Calculator

/-! ### Open groups and their places -/

/-- The places of the open groups behind one token more.  A `,` outside of all groups opens one
around everything; where there is nothing yet, no token can come behind it. -/
def openStep (places : List Nat) (token : String × Nat) : List Nat :=
  if token.1 = "(" then token.2 :: places
  else if token.1 = ")" then places.tail
  else if token.1 = "," ∧ places = [] then [token.2]
  else places

/-- The places of the tokens that opened the groups that are open behind the tokens, the
innermost first. -/
def openPlaces (tokens : List String) : List Nat :=
  tokens.zipIdx.foldl openStep []

/-- The place of the token that made the node that a token belongs to.  A `)` belongs to the
group that it closes and a `,` to the one it stands in. -/
def placeOf (before : List String) (token : String) : Nat :=
  if token = ")" ∨ token = "," then (openPlaces before).headD before.length else before.length

/-! ### Origins -/

/-- What a node was made for. -/
inductive Origin
  /-- The token at a place. -/
  | token (place : Nat)
  /-- The product that is implied in front of the token at a place. -/
  | product (place : Nat)
  deriving DecidableEq

/-- The place of the token for which the node was made. -/
def Origin.place : Origin → Nat
  | .token place | .product place => place

/-- The nodes that are made for a token behind others. -/
def madeFor (before : List String) (token : String) : List Origin :=
  if token = ")" ∨ token = "," then
    if openPlaces before = [] then [.token before.length] else []
  else if ∃ last ∈ before.getLast?, juxtaposed last token = true then
    [.product before.length, .token before.length]
  else [.token before.length]

/-- The nodes of the tokens in the order in which they are made. -/
def origins (tokens : List String) : List Origin :=
  (List.range tokens.length).flatMap fun i => madeFor (tokens.take i) (tokens.getD i "")

/-- The node is the one that is made for the origin: a product, a group, or the token itself. -/
def Origin.Names (tokens : List String) (node : Node) : Origin → Prop
  | .product _ => node.value = "*" ∧ node.kind = .operator .times
  | .token place => ∃ token kind, tokens[place]? = some token ∧ Kind.of? token = some kind ∧
      if kind = .openGroup ∨ (kind = .closer ∨ kind = .comma) ∧ 0 < place then
        node.kind = .openGroup ∧ node.value = "(" ∨ node.kind = .closedGroup ∧ node.value = "()"
      else node.kind = kind ∧ node.value = token

/-! ### Arities -/

/-- How many commas stand directly inside the group that was opened at the place.  A comma that
ends the tokens does not count. -/
def commasIn (tokens : List String) (place : Nat) : Nat :=
  (List.range (tokens.length - 1)).countP fun i =>
    tokens[i]? = some "," ∧ (openPlaces (tokens.take (i + 1))).head? = some place

/-- How many children a token of a kind has that stands at the place.  For an operator it counts
whether there is something in front of it and something behind it, for a function whether there
is something behind it, and for a group how many values it has. -/
def arityAt (tokens : List String) (place : Nat) : Kind → Nat
  | .operator _ =>
      (if EndsOperand (tokens.take place) then 1 else 0) +
        if place + 1 = tokens.length then 0 else 1
  | .word => if place + 1 = tokens.length then 0 else 1
  | .openGroup => if place + 1 = tokens.length then 0 else 1 + commasIn tokens place
  | .closer | .comma => if place = 0 then 0 else 1 + commasIn tokens place
  | .number | .closedGroup => 0

/-- How many children the node of an origin has. -/
def arity (tokens : List String) : Origin → Nat
  | .product _ => 2
  | .token place => (tokens[place]?.bind Kind.of?).elim 0 (arityAt tokens place)

/-- The node is as its origin asks. -/
structure Origin.Describes (tokens : List String) (origin : Origin) (node : Node) : Prop where
  names : origin.Names tokens node
  arity : node.children.length = arity tokens origin

/-- Behind the `)` of the group that was opened at the place there is a word. -/
def WordBehind (tokens : List String) (place : Nat) : Prop :=
  ∃ i < tokens.length, tokens[i]? = some ")" ∧
    (openPlaces (tokens.take i)).head? = some place ∧
    ∃ next ∈ tokens[i + 1]?, Kind.of? next = some .word

instance (tokens : List String) (place : Nat) : Decidable (WordBehind tokens place) :=
  inferInstanceAs (Decidable (∃ i < tokens.length, _))

/-! ### One token more -/

variable {tokens before : List String} {token last : String} {kind : Kind} {place : Nat}

theorem openPlaces_concat (tokens : List String) (token : String) :
    openPlaces (tokens ++ [token]) = openStep (openPlaces tokens) (token, tokens.length) := by
  simp [openPlaces, List.zipIdx_append]

theorem openPlaces_opener (tokens : List String) :
    openPlaces (tokens ++ ["("]) = tokens.length :: openPlaces tokens :=
  openPlaces_concat tokens "("

theorem openPlaces_closer (tokens : List String) :
    openPlaces (tokens ++ [")"]) = (openPlaces tokens).tail :=
  openPlaces_concat tokens ")"

/-- Behind a comma a group is open, and it is the one that the comma belongs to. -/
theorem openPlaces_comma (tokens : List String) :
    openPlaces (tokens ++ [","]) = placeOf tokens "," :: (openPlaces tokens).tail := by
  rw [openPlaces_concat, placeOf, if_pos (Or.inr rfl)]
  cases openPlaces tokens with
  | nil => rfl
  | cons group rest => rfl

theorem openPlaces_other (hkind : Kind.of? token = some kind) (hopen : kind ≠ .openGroup)
    (hcloser : kind ≠ .closer) (hcomma : kind ≠ .comma) :
    openPlaces (tokens ++ [token]) = openPlaces tokens := by
  have hdelimits := delimits_eq_false hkind hopen hcloser hcomma
  simp only [delimits, Bool.or_eq_false_iff, decide_eq_false_iff_not] at hdelimits
  rw [openPlaces_concat, openStep, if_neg hdelimits.1.1, if_neg hdelimits.1.2,
    if_neg (fun hboth => hdelimits.2 hboth.1)]

/-- A group is opened by a `(` or a `,` among the tokens. -/
theorem mem_openPlaces (h : place ∈ openPlaces tokens) :
    tokens[place]? = some "(" ∨ tokens[place]? = some "," := by
  induction tokens using List.reverseRecOn with
  | nil => cases h
  | append_singleton tokens token ih =>
      have hold : place ∈ openPlaces tokens →
          (tokens ++ [token])[place]? = some "(" ∨ (tokens ++ [token])[place]? = some "," := by
        intro hmem
        refine (ih hmem).imp ?_ ?_ <;>
          exact fun hget => List.getElem?_append_left (List.getElem?_eq_some_iff.mp hget).1 ▸ hget
      rw [openPlaces_concat, openStep] at h
      split at h
      · rename_i hopener
        rcases List.mem_cons.mp h with rfl | hmem
        · exact Or.inl (by simpa using hopener)
        · exact hold hmem
      · split at h
        · exact hold (List.mem_of_mem_tail h)
        · split at h
          · rename_i hcomma
            rw [List.mem_singleton.mp h]
            exact Or.inr (by simpa using hcomma.1)
          · exact hold h

theorem lt_of_mem_openPlaces (h : place ∈ openPlaces tokens) : place < tokens.length := by
  rcases mem_openPlaces h with hget | hget <;> exact (List.getElem?_eq_some_iff.mp hget).1

/-- A token belongs to the node that was made for it, or to an open group that it closes or
stands in. -/
theorem placeOf_cases (before : List String) (last : String) :
    placeOf before last = before.length ∨
      (openPlaces before).head? = some (placeOf before last) ∧ (last = ")" ∨ last = ",") := by
  unfold placeOf
  split
  · rename_i hends
    cases openPlaces before with
    | nil => exact Or.inl rfl
    | cons group rest => exact Or.inr ⟨rfl, hends⟩
  · exact Or.inl rfl

/-! ### The list of origins -/

theorem origins_concat (tokens : List String) (token : String) :
    origins (tokens ++ [token]) = origins tokens ++ madeFor tokens token := by
  rw [origins, List.length_append, List.length_singleton, List.range_succ, List.flatMap_append,
    List.flatMap_singleton]
  congr 1
  · refine List.flatMap_congr fun i hi => ?_
    have hlt : i < tokens.length := List.mem_range.mp hi
    rw [List.take_append_of_le_length (Nat.le_of_lt hlt), List.getD_eq_getElem?_getD,
      List.getElem?_append_left hlt, List.getD_eq_getElem?_getD]
  · simp

theorem origins_single (token : String) : origins [token] = [.token 0] := by
  have hmade : origins [token] = madeFor [] token := origins_concat [] token
  rw [hmade, madeFor]
  split <;> rfl

theorem place_of_mem_madeFor {origin : Origin} (h : origin ∈ madeFor before token) :
    origin.place = before.length := by
  unfold madeFor at h
  split at h
  · split at h
    · rw [List.mem_singleton.mp h]
      rfl
    · cases h
  · split at h
    · rcases List.mem_cons.mp h with rfl | hmem
      · rfl
      · rw [List.mem_singleton.mp hmem]
        rfl
    · rw [List.mem_singleton.mp h]
      rfl

theorem place_lt_of_mem_origins {origin : Origin} (h : origin ∈ origins tokens) :
    origin.place < tokens.length := by
  obtain ⟨i, hi, hmem⟩ := List.mem_flatMap.mp h
  have hlt : i < tokens.length := List.mem_range.mp hi
  rw [place_of_mem_madeFor hmem, List.length_take]
  omega

/-- No two nodes have one origin. -/
theorem nodup_origins (tokens : List String) : (origins tokens).Nodup := by
  induction tokens using List.reverseRecOn with
  | nil => exact List.nodup_nil
  | append_singleton tokens token ih =>
      rw [origins_concat, List.nodup_append]
      refine ⟨ih, ?_, ?_⟩
      · unfold madeFor
        repeat' split
        all_goals simp
      · rintro old hold new hnew rfl
        have hlt := place_lt_of_mem_origins hold
        rw [place_of_mem_madeFor hnew] at hlt
        exact absurd hlt (Nat.lt_irrefl _)

/-! ### Commas -/

theorem commasIn_concat (before : List String) (last token : String) (place : Nat) :
    commasIn (before ++ [last] ++ [token]) place = commasIn (before ++ [last]) place +
      if last = "," ∧ placeOf before last = place then 1 else 0 := by
  have hhere : (before ++ [last] ++ [token])[before.length]? = some last := by simp
  have hopen : (openPlaces ((before ++ [last] ++ [token]).take (before.length + 1))).head? =
      (openPlaces (before ++ [last])).head? := by
    rw [List.take_append_of_le_length (by simp), List.take_of_length_le (by simp)]
  simp only [commasIn, List.length_append, List.length_singleton, Nat.add_sub_cancel,
    List.range_succ, List.countP_append, List.countP_singleton, hhere, hopen]
  congr 1
  · refine List.countP_congr fun i hi => ?_
    have hlt : i < before.length := List.mem_range.mp hi
    rw [List.getElem?_append_left (by simp; omega),
      List.take_append_of_le_length (by simp; omega)]
  · by_cases hcomma : last = ","
    · rw [hcomma, openPlaces_comma]
      simp
    · simp [hcomma]

/-- No comma is inside a group that has just been opened. -/
theorem commasIn_opener (before : List String) : commasIn (before ++ [last]) before.length = 0 := by
  rw [commasIn, List.countP_eq_zero]
  intro i hi
  have hlt : i < before.length := by simpa using List.mem_range.mp hi
  simp only [decide_eq_true_eq, not_and]
  intro _ hhead
  have hmem := lt_of_mem_openPlaces (List.mem_of_mem_head? hhead)
  rw [List.length_take] at hmem
  omega

/-! ### The node that waits for a child -/

theorem endsOperand_concat (before : List String) (last : String) :
    EndsOperand (before ++ [last]) ↔
      Kind.of? last ∈ [some .number, some .closer, some .closedGroup] := by
  simp [EndsOperand]

/-- What is no parenthesis and no comma is waited upon only where it is the last token. -/
theorem placeOf_eq_iff (htoken : (before ++ [last])[place]? = some token)
    (hkind : Kind.of? token = some kind) (hopen : kind ≠ .openGroup) (hcloser : kind ≠ .closer)
    (hcomma : kind ≠ .comma) : placeOf before last = place ↔ place = before.length := by
  have hdelimits := delimits_eq_false hkind hopen hcloser hcomma
  simp only [delimits, Bool.or_eq_false_iff, decide_eq_false_iff_not] at hdelimits
  refine ⟨?_, ?_⟩
  · rintro rfl
    rcases placeOf_cases before last with hlast | ⟨hhead, -⟩
    · exact hlast
    · have hmem := List.mem_of_mem_head? hhead
      rw [List.getElem?_append_left (lt_of_mem_openPlaces hmem)] at htoken
      rcases mem_openPlaces hmem with hget | hget <;>
        rw [Option.some.inj (htoken.symm.trans hget)] at hdelimits
      · exact absurd rfl hdelimits.1.1
      · exact absurd rfl hdelimits.2
  · rintro rfl
    obtain rfl : last = token := by simpa using htoken
    rw [placeOf, if_neg (not_or.mpr ⟨hdelimits.1.2, hdelimits.2⟩)]

/-- A group waits for a value behind a comma that stands directly inside it. -/
theorem placeOf_group_iff (before : List String)
    (hlast : place = before.length → last = ")" ∨ last = ",") :
    (place = placeOf before last ∧ ¬EndsOperand (before ++ [last])) ↔
      last = "," ∧ placeOf before last = place := by
  have hends : last = ")" → EndsOperand (before ++ [last]) := by
    rintro rfl
    exact (endsOperand_concat before ")").mpr (by decide)
  refine ⟨?_, ?_⟩
  · intro hboth
    obtain ⟨rfl, hnot⟩ := hboth
    have hdelimiter : last = ")" ∨ last = "," := by
      rcases placeOf_cases before last with hhere | ⟨-, hdelimiter⟩
      · exact hlast hhere
      · exact hdelimiter
    exact ⟨hdelimiter.resolve_left fun hcloser => hnot (hends hcloser), rfl⟩
  · rintro ⟨rfl, hplace⟩
    exact ⟨hplace.symm, fun h => absurd ((endsOperand_concat before ",").mp h) (by decide)⟩

/-- **One token more is one child more for the node that waits**, and makes no difference to
the arity of any other. -/
theorem arity_concat (hfront : Continuable (before ++ [last]))
    (htoken : (before ++ [last])[place]? = some token) (hkind : Kind.of? token = some kind)
    (next : String) :
    arity (before ++ [last] ++ [next]) (.token place) = arity (before ++ [last]) (.token place) +
      if place = placeOf before last ∧ ¬EndsOperand (before ++ [last]) then 1 else 0 := by
  have hlt : place < before.length + 1 := by
    simpa using (List.getElem?_eq_some_iff.mp htoken).1
  have hnew : (before ++ [last] ++ [next])[place]? = some token := by
    rw [List.getElem?_append_left (by simpa using hlt), htoken]
  have htake : (before ++ [last] ++ [next]).take place = (before ++ [last]).take place :=
    List.take_append_of_le_length (by simpa using Nat.le_of_lt hlt)
  have hbehind : place ≠ before.length + 1 := Nat.ne_of_lt hlt
  have hsame : place = before.length → last = token := by
    rintro rfl
    simpa using htoken
  simp only [arity, hnew, htoken, Option.bind_some, hkind, Option.elim_some]
  cases kind with
  | operator op | word =>
      simp only [arityAt, htake, List.length_append, List.length_singleton,
        Nat.add_right_cancel_iff, if_neg hbehind]
      have hplace : place = placeOf before last ↔ place = before.length := by
        rw [eq_comm, placeOf_eq_iff htoken hkind nofun nofun nofun]
      by_cases hlast : place = before.length
      · have hnot : ¬EndsOperand (before ++ [last]) := by
          rw [endsOperand_concat, hsame hlast, hkind]
          simp
        have hwaits : place = placeOf before last ∧ ¬EndsOperand (before ++ [last]) :=
          ⟨hplace.mpr hlast, hnot⟩
        rw [if_pos hlast, if_pos hwaits]
      · have hnot : ¬(place = placeOf before last ∧ ¬EndsOperand (before ++ [last])) :=
          fun hboth => hlast (hplace.mp hboth.1)
        rw [if_neg hlast, if_neg hnot]
  | openGroup =>
      obtain rfl := Kind.eq_of_spelling hkind rfl
      simp only [arityAt, List.length_append, List.length_singleton, Nat.add_right_cancel_iff,
        if_neg hbehind]
      by_cases hlast : place = before.length
      · obtain rfl := hsame hlast
        subst hlast
        have hnot : ¬EndsOperand (before ++ ["("]) := fun h =>
          absurd ((endsOperand_concat before "(").mp h) (by decide)
        have hplace : before.length = placeOf before "(" := (if_neg (by decide)).symm
        have hwaits : before.length = placeOf before "(" ∧ ¬EndsOperand (before ++ ["("]) :=
          ⟨hplace, hnot⟩
        have hno : commasIn (before ++ ["("] ++ [next]) before.length = 0 := by
          rw [commasIn_concat, commasIn_opener]
          rfl
        rw [hno, if_pos rfl, if_pos hwaits]
      · have hgroup := @placeOf_group_iff last place before fun h => absurd h hlast
        simp only [if_neg hlast, commasIn_concat, hgroup, Nat.add_assoc]
  | closer | comma =>
      have hpos : place ≠ 0 := by
        rintro rfl
        rw [← List.head?_eq_getElem?] at htoken
        obtain rfl := Kind.eq_of_spelling hkind rfl
        first | exact hfront.closer htoken | exact hfront.comma htoken
      obtain rfl := Kind.eq_of_spelling hkind rfl
      have hgroup := @placeOf_group_iff last place before fun h => by simp [hsame h]
      simp only [arityAt, if_neg hpos, commasIn_concat, hgroup, Nat.add_assoc]
  | number | closedGroup =>
      have hplace : place = placeOf before last ↔ place = before.length := by
        rw [eq_comm, placeOf_eq_iff htoken hkind nofun nofun nofun]
      have hnot : ¬(place = placeOf before last ∧ ¬EndsOperand (before ++ [last])) := by
        intro hboth
        refine hboth.2 ?_
        rw [endsOperand_concat, hsame (hplace.mp hboth.1), hkind]
        decide
      rw [if_neg hnot]
      rfl

/-! ### Words behind groups -/

theorem wordBehind_concat (before : List String) (last token : String) (place : Nat) :
    WordBehind (before ++ [last] ++ [token]) place ↔ WordBehind (before ++ [last]) place ∨
      last = ")" ∧ (openPlaces before).head? = some place ∧ Kind.of? token = some .word := by
  have hold : ∀ i < before.length, (before ++ [last] ++ [token])[i + 1]? = (before ++ [last])[i + 1]? :=
    fun i hi => List.getElem?_append_left (by simpa using hi)
  have hupto : ∀ i ≤ before.length + 1,
      (before ++ [last] ++ [token]).take i = (before ++ [last]).take i :=
    fun i hi => List.take_append_of_le_length (by simpa using hi)
  refine ⟨?_, ?_⟩
  · intro hex
    obtain ⟨i, hi, hcloser, hplace, next, hnext, hword⟩ := hex
    have hlt : i < before.length + 1 := by
      have hget := (List.getElem?_eq_some_iff.mp (Option.mem_def.mp hnext)).1
      simp only [List.length_append, List.length_singleton] at hget
      omega
    rw [hupto i (Nat.le_of_lt hlt)] at hplace
    rw [List.getElem?_append_left (by simpa using hlt)] at hcloser
    rcases Nat.lt_succ_iff_lt_or_eq.mp hlt with hinner | rfl
    · rw [hold i hinner] at hnext
      exact Or.inl ⟨i, by simpa using hlt, hcloser, hplace, next, hnext, hword⟩
    · obtain rfl : last = ")" := by simpa using hcloser
      obtain rfl : token = next := by simpa using hnext
      exact Or.inr ⟨rfl, by simpa using hplace, hword⟩
  · rintro (hex | ⟨rfl, hplace, hword⟩)
    · obtain ⟨i, hi, hcloser, hplace, next, hnext, hword⟩ := hex
      have hlt : i < before.length := by
        have hget := (List.getElem?_eq_some_iff.mp (Option.mem_def.mp hnext)).1
        simpa using hget
      refine ⟨i, ?_, ?_, ?_, next, ?_, hword⟩
      · simp only [List.length_append, List.length_singleton]
        omega
      · rw [List.getElem?_append_left (by simp; omega), hcloser]
      · rw [hupto i (by omega), hplace]
      · rw [hold i hlt]
        exact hnext
    · refine ⟨before.length, by simp, by simp, ?_, token, by simp, hword⟩
      simpa using hplace

end Calculator
