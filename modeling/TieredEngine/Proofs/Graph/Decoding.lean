import TieredEngine.Proofs.Graph.Isomorphism
import TieredEngine.Proofs.Texts
/-!
# Graphs can be read back from their text

Every part of the canonical text ends where it has to: a name at the first
character that no name has, a number at the first that is no digit, a list of
numbers at its bracket, a line at its newline. So two graphs with the same
text have, line by line, the same kinds and the same numbers on their edges,
and sending each node to the node with the same number is an isomorphism. Main
statement: two tidy graphs have the same text exactly if they are isomorphic
(`canonicalText_eq_iff_isomorphic`).
-/

namespace TieredEngine

/-! ## Kinds -/

theorem legible_mode : Legible Char.isAlpha ResumeMode.text where
  chars m := List.all_eq_true.1 (by cases m <;> decide)
  injective m m' h := by cases m <;> cases m' <;> first | rfl | exact absurd h (by decide)

theorem legible_reason : Legible Char.isAlpha DeoptReason.text where
  chars r := List.all_eq_true.1 (by cases r <;> decide)
  injective r r' h := by cases r <;> cases r' <;> first | rfl | exact absurd h (by decide)

theorem legible_check : Legible (fun c => c.isAlpha || c == '(' || c == ')') GuardCheck.text where
  chars c := List.all_eq_true.1 (by rcases c with (_ | _ | _) | (_ | _) <;> decide)
  injective c c' h := by
    rcases c with (_ | _ | _) | (_ | _) <;> rcases c' with (_ | _ | _) | (_ | _) <;>
      first | rfl | exact absurd h (by decide)

theorem toList_intText (n : ℤ) :
    (toString n).toList = if 0 ≤ n then (toString n.toNat).toList else '-' ::
      (toString (-n).toNat).toList := by
  rw [Int.toString_eq_repr, Int.repr_eq_if]
  split <;> simp

/-- No number starts like the name of a constant. -/
theorem head?_intText (n : ℤ) :
    ∃ c rest, (toString n).toList = c :: rest ∧ (c.isDigit ∨ c = '-') := by
  rw [toList_intText]
  split
  · cases hd : (toString n.toNat).toList with
    | nil => simp at hd
    | cons c rest =>
      exact ⟨c, rest, rfl, .inl (legible_number.chars n.toNat c (hd ▸ List.mem_cons_self))⟩
  · exact ⟨_, _, rfl, .inr rfl⟩

theorem intText_injective : Function.Injective (toString : ℤ → String) := by
  intro m n h
  have hlist := congrArg String.toList h
  rw [toList_intText, toList_intText] at hlist
  have hdigit : ∀ k l : ℕ, (toString k).toList ≠ '-' :: (toString l).toList := fun k l hk =>
    absurd (legible_number.chars k '-' (hk ▸ List.mem_cons_self)) (by decide)
  split at hlist <;> split at hlist
  · have := natText_injective (String.toList_inj.1 hlist)
    omega
  · exact absurd hlist (hdigit _ _)
  · exact absurd hlist.symm (hdigit _ _)
  · have := natText_injective (String.toList_inj.1 (List.cons.inj hlist).2)
    omega

theorem legible_value : Legible (fun c => c.isAlphanum || c == '-') Value.text where
  chars v c hc := by
    cases v with
    | int n =>
      have hdigit : ∀ m : ℕ, c ∈ (toString m).toList → (c.isAlphanum || c == '-') = true :=
        fun m hm => by
        simp [Char.isAlphanum, legible_number.chars m c hm]
      rw [Value.text, toList_intText] at hc
      split at hc
      · exact hdigit _ hc
      · rcases List.mem_cons.1 hc with rfl | hc
        · rfl
        · exact hdigit _ hc
    | bool b =>
      revert c
      exact List.all_eq_true.1 (by cases b <;> decide)
    | null =>
      revert c
      exact List.all_eq_true.1 (by decide)
  injective v w h := by
    have hword : ∀ (n : ℤ) (c : Char) (rest : List Char), (toString n).toList = c :: rest →
        c.isDigit ∨ c = '-' := by
      intro n c rest hc
      obtain ⟨c', rest', hn, hd⟩ := head?_intText n
      rw [hc] at hn
      exact (List.cons.inj hn).1 ▸ hd
    rcases v with n | (_ | _) | _ <;> rcases w with m | (_ | _) | _ <;>
      first
        | rfl
        | exact absurd h (by decide)
        | exact congrArg Value.int (Int64.toInt_inj.1 (intText_injective h))
        | exact absurd (hword n.toInt _ _ (congrArg String.toList h)) (by decide)
        | exact absurd (hword m.toInt _ _ (congrArg String.toList h.symm)) (by decide)

namespace NodeKind

/-- The name that a kind's text starts with. -/
def word : NodeKind → String
  | .start => "Start"
  | .ret => "Return"
  | .branch => "If"
  | .onTrue => "IfTrue"
  | .onFalse => "IfFalse"
  | .merge => "Merge"
  | .loopBegin => "LoopBegin"
  | .invoke .. => "Invoke"
  | .guard .. => "Guard"
  | .deoptimize _ => "Deoptimize"
  | .parameter _ => "Parameter"
  | .constant _ => "Constant"
  | .binary op => op.mnemonic
  | .unary op => op.mnemonic
  | .phi => "Phi"
  | .frameState _ => "FrameState"

/-- The bracketed rest of a kind's text. -/
def details : NodeKind → String
  | .invoke target site => "(" ++ targetText target ++ exprText site ++ ")"
  | .guard check reason => "(" ++ check.text ++ ", " ++ reason.text ++ ")"
  | .deoptimize reason => "(" ++ reason.text ++ ")"
  | .parameter index => "(" ++ toString index ++ ")"
  | .constant v => "(" ++ v.text ++ ")"
  | .frameState s => "(" ++ targetText s.target ++ exprText s.node ++ ", " ++ s.mode.text ++
      ", args=" ++ toString s.arguments.toNat ++ ", locals=" ++ toString s.locals.toNat ++
      ", stack=" ++ toString s.stack.toNat ++ ")"
  | _ => ""

theorem text_eq (k : NodeKind) : k.text = k.word ++ k.details := by
  have hopen : "Invoke(" = "Invoke" ++ "(" ∧ "Guard(" = "Guard" ++ "(" ∧
      "Deoptimize(" = "Deoptimize" ++ "(" ∧ "Parameter(" = "Parameter" ++ "(" ∧
      "Constant(" = "Constant" ++ "(" ∧ "FrameState(" = "FrameState" ++ "(" := by
    decide
  unfold text word details
  cases k with
  | frameState shape =>
    dsimp only
    unfold FrameShape.text
    simp only [hopen, String.append_assoc]
  | _ => simp only [hopen, String.append_assoc, String.append_empty]

theorem word_chars (k : NodeKind) : ∀ c ∈ k.word.toList, c.isAlpha := by
  refine List.all_eq_true.1 ?_
  cases k with
  | binary op => cases op <;> decide
  | unary op => cases op <;> decide
  | _ => rw [word]; decide

theorem stops_details_append {k : NodeKind} {r : List Char} (hr : Stops (· != ' ') r) :
    Stops Char.isAlpha (k.details.toList ++ r) := by
  have hr : Stops Char.isAlpha r := by
    intro c hc
    have : c = ' ' := by simpa using hr c hc
    subst this
    decide
  unfold details
  cases k <;> simp only [String.toList_append, List.append_assoc] <;>
    first | exact hr | exact stops_cons.2 rfl

/-- A kind and what comes after it can be told from the text, if a blank
follows or nothing. -/
theorem text_append_inj {k k' : NodeKind} {r s : List Char} (hr : Stops (· != ' ') r)
    (hs : Stops (· != ' ') s) (h : k.text.toList ++ r = k'.text.toList ++ s) : k = k' ∧ r = s := by
  rw [text_eq, text_eq, String.toList_append, String.toList_append, List.append_assoc,
    List.append_assoc] at h
  obtain ⟨hword, hrest⟩ := append_inj_of_stops k.word_chars k'.word_chars (stops_details_append hr)
    (stops_details_append hs) h
  replace hword := String.toList_inj.1 hword
  unfold word at hword
  unfold details at hrest
  -- names differ unless the constructors agree, and with them an operator
  rcases k with _ | _ | _ | _ | _ | _ | _ | ⟨t, site⟩ | ⟨check, reason⟩ | reason | index | v
      | (_ | _ | _ | _ | _) | (_ | _) | _ | shape <;>
    rcases k' with _ | _ | _ | _ | _ | _ | _ | ⟨t', site'⟩ | ⟨check', reason'⟩ | reason' | index'
      | v' | (_ | _ | _ | _ | _) | (_ | _) | _ | shape' <;>
    simp [BinaryOp.mnemonic, UnaryOp.mnemonic] at hword
  all_goals
    simp only [targetText, exprText, String.toList_append, List.append_assoc,
      List.append_cancel_left_eq] at hrest
  case invoke.invoke =>
    obtain ⟨ht, h1⟩ := legible_number.inj_of_separator (by decide) hrest
    obtain ⟨hsite, h2⟩ := legible_number.inj_of_separator (by decide) h1
    exact ⟨by rw [ht, hsite], h2⟩
  case guard.guard =>
    obtain ⟨hcheck, h1⟩ := legible_check.inj_of_separator (by decide) hrest
    obtain ⟨hreason, h2⟩ := legible_reason.inj_of_separator (by decide) h1
    exact ⟨by rw [hcheck, hreason], h2⟩
  case deoptimize.deoptimize =>
    obtain ⟨hreason, h1⟩ := legible_reason.inj_of_separator (by decide) hrest
    exact ⟨by rw [hreason], h1⟩
  case parameter.parameter =>
    obtain ⟨hindex, h1⟩ := legible_number.inj_of_separator (by decide) hrest
    exact ⟨by rw [hindex], h1⟩
  case constant.constant =>
    obtain ⟨hv, h1⟩ := legible_value.inj_of_separator (by decide) hrest
    exact ⟨by rw [hv], h1⟩
  case frameState.frameState =>
    obtain ⟨htarget, h1⟩ := legible_number.inj_of_separator (by decide) hrest
    obtain ⟨hnode, h2⟩ := legible_number.inj_of_separator (by decide) h1
    obtain ⟨hmode, h3⟩ := legible_mode.inj_of_separator (by decide) h2
    obtain ⟨hargs, h4⟩ := legible_number.inj_of_separator (by decide) h3
    obtain ⟨hlocals, h5⟩ := legible_number.inj_of_separator (by decide) h4
    obtain ⟨hstack, h6⟩ := legible_number.inj_of_separator (by decide) h5
    have hcounts := And.intro (UInt32.toNat_inj.1 hargs)
      (And.intro (UInt32.toNat_inj.1 hlocals) (UInt32.toNat_inj.1 hstack))
    exact ⟨congrArg frameState (by cases shape; cases shape'; simp_all), h6⟩
  all_goals exact ⟨rfl, hrest⟩

/-- A kind's text holds no newline. -/
theorem newline_notMem_text (k : NodeKind) : '\n' ∉ k.text.toList := by
  have hword : '\n' ∉ k.word.toList := fun hn => absurd (k.word_chars _ hn) (by decide)
  have hnumber : ∀ n : ℕ, '\n' ∉ (toString n).toList := fun n => legible_number.notMem n rfl
  have hmode : ∀ m : ResumeMode, '\n' ∉ m.text.toList := fun m => legible_mode.notMem m rfl
  have hreason : ∀ r : DeoptReason, '\n' ∉ r.text.toList := fun r => legible_reason.notMem r rfl
  have hcheck : ∀ c : GuardCheck, '\n' ∉ c.text.toList := fun c => legible_check.notMem c rfl
  have hvalue : ∀ v : Value, '\n' ∉ v.text.toList := fun v => legible_value.notMem v rfl
  rw [text_eq, String.toList_append, List.mem_append]
  refine not_or.2 ⟨hword, ?_⟩
  unfold details
  cases k <;>
    simp [targetText, exprText, hnumber, hmode, hreason, hcheck, hvalue, -Nat.toString_eq_repr]

end NodeKind

/-! ## Lines -/

namespace Graph

variable {g g' : Graph} {order order' : List NodeId} {x y : NodeId}

theorem numberIn_of_mem (hx : x ∈ order) : numberIn order x = toString (order.idxOf x) := by
  have hidx : order.idxOf? x = some (order.idxOf x) := by
    cases hi : order.idxOf? x with
    | none => exact absurd hx (List.idxOf?_eq_none_iff.1 hi)
    | some i => rw [List.idxOf_eq_getD_idxOf?, hi]; rfl
  unfold numberIn
  rw [hidx]

theorem numberIn_chars (order : List NodeId) (x : NodeId) :
    ∀ c ∈ (numberIn order x).toList, c.isDigit ∨ c = '?' := by
  intro c hc
  unfold numberIn at hc
  split at hc
  · exact .inl (legible_number.chars _ c hc)
  · exact .inr (by simpa using hc)

/-- The node of the other order that has the same number. -/
def matching (order order' : List NodeId) (x : NodeId) : NodeId := order'.getD (order.idxOf x) 0

theorem matching_eq (hx : x ∈ order) (hy : y ∈ order') (h : numberIn order x = numberIn order' y) :
    matching order order' x = y := by
  rw [numberIn_of_mem hx, numberIn_of_mem hy] at h
  unfold matching
  rw [natText_injective h, List.getD_eq_getElem?_getD, List.getElem?_idxOf hy]
  rfl

theorem map_matching_eq {ids ids' : List NodeId} (hids : ids ⊆ order) (hids' : ids' ⊆ order')
    (h : ids.map (numberIn order) = ids'.map (numberIn order')) :
    ids.map (matching order order') = ids' := by
  induction ids generalizing ids' with
  | nil => simpa using h
  | cons x ids ih =>
    cases ids' with
    | nil => simp at h
    | cons y ids' =>
      obtain ⟨hx, hrest⟩ := List.cons.inj h
      rw [List.map_cons, matching_eq (hids List.mem_cons_self) (hids' List.mem_cons_self) hx,
        ih (List.subset_of_cons_subset hids) (List.subset_of_cons_subset hids') hrest]

/-- The texts between the commas can be told from the whole. -/
theorem intercalate_inj {xs ys : List String} (hx : xs ≠ []) (hy : ys ≠ [])
    (hxc : ∀ x ∈ xs, ',' ∉ x.toList) (hyc : ∀ y ∈ ys, ',' ∉ y.toList)
    (h : (",".intercalate xs).toList = (",".intercalate ys).toList) : xs = ys := by
  have hsplit : ∀ {zs : List String}, zs ≠ [] → (∀ z ∈ zs, ',' ∉ z.toList) →
      (",".intercalate zs).toList.splitOn ',' = zs.map String.toList := by
    intro zs hz hc
    rw [String.toList_intercalate]
    refine List.splitOn_intercalate ',' ?_ (by simpa using hz)
    simpa using hc
  have hlists := hsplit hx hxc
  rw [h, hsplit hy hyc] at hlists
  exact (List.map_injective_iff.2 fun _ _ => String.toList_inj.1) hlists.symm

theorem toList_numberList_cons (label : String) (order : List NodeId) (x : NodeId)
    (ids : List NodeId) :
    (numberList label order (x :: ids)).toList =
      (" " ++ label ++ "=[").toList ++
        ((",".intercalate ((x :: ids).map (numberIn order))).toList ++ [']']) := by
  simp only [numberList, List.isEmpty_cons, Bool.false_eq_true, if_false, String.toList_append,
    List.append_assoc, String.reduceToList]

theorem mem_intercalate {xs : List (List Char)} {sep : List Char} {c : Char}
    (hc : c ∈ sep.intercalate xs) :
    c ∈ sep ∨ ∃ x ∈ xs, c ∈ x := by
  induction xs with
  | nil => simp at hc
  | cons x xs ih =>
    cases xs with
    | nil => exact .inr ⟨x, List.mem_cons_self, by simpa using hc⟩
    | cons y ys =>
      rw [List.intercalate_cons_cons, List.mem_append, List.mem_append] at hc
      rcases hc with (hc | hc) | hc
      · exact .inr ⟨x, List.mem_cons_self, hc⟩
      · exact .inl hc
      · obtain h | ⟨z, hz, hcz⟩ := ih hc
        · exact .inl h
        · exact .inr ⟨z, List.mem_cons_of_mem _ hz, hcz⟩

theorem numbers_chars (order ids : List NodeId) {c : Char}
    (hc : c ∈ (",".intercalate (ids.map (numberIn order))).toList) :
    c.isDigit ∨ c = '?' ∨ c = ',' := by
  rw [String.toList_intercalate, List.map_map] at hc
  obtain h | ⟨_, hl, hcl⟩ := mem_intercalate hc
  · exact .inr (.inr (by simpa using h))
  · obtain ⟨x, -, rfl⟩ := List.mem_map.1 hl
    rcases numberIn_chars order x c hcl with h | h
    · exact .inl h
    · exact .inr (.inl h)

/-- A list of numbers can be told from the text, unless another with its label
comes after it. -/
theorem numberList_append_inj {label : String} {ids ids' : List NodeId} {r s : List Char}
    (hr : ¬ (" " ++ label ++ "=[").toList <+: r) (hs : ¬ (" " ++ label ++ "=[").toList <+: s)
    (h : (numberList label order ids).toList ++ r = (numberList label order' ids').toList ++ s) :
    ids.map (numberIn order) = ids'.map (numberIn order') ∧ r = s := by
  have hopen : ∀ {order : List NodeId} {x ids t}, (" " ++ label ++ "=[").toList <+:
      (numberList label order (x :: ids)).toList ++ t := fun {order x ids t} => by
      rw [toList_numberList_cons, List.append_assoc]
      exact List.prefix_append _ _
  cases ids with
  | nil =>
    cases ids' with
    | nil => exact ⟨rfl, h⟩
    | cons y ids' => exact absurd (h ▸ hopen : (" " ++ label ++ "=[").toList <+: [] ++ r) hr
  | cons x ids =>
    cases ids' with
    | nil => exact absurd (h ▸ hopen : (" " ++ label ++ "=[").toList <+: [] ++ s) hs
    | cons y ids' =>
      rw [toList_numberList_cons, toList_numberList_cons] at h
      simp only [List.append_assoc, List.append_cancel_left_eq] at h
      have hbody : ∀ (order ids : List NodeId),
          ∀ c ∈ (",".intercalate (ids.map (numberIn order))).toList, (c != ']') = true := by
        intro order ids c hc
        refine bne_iff_ne.2 fun hb => ?_
        subst hb
        exact absurd (numbers_chars order ids hc) (by decide)
      obtain ⟨hnumbers, hrest⟩ :=
        append_inj_of_stops (p := (· != ']')) (hbody order _) (hbody order' _) (by simp) (by simp) h
      have hcomma : ∀ (order ids : List NodeId), ∀ z ∈ ids.map (numberIn order),
          ',' ∉ z.toList := by
        intro order ids z hz hc
        obtain ⟨w, -, rfl⟩ := List.mem_map.1 hz
        exact absurd (numberIn_chars order w _ hc) (by decide)
      exact ⟨intercalate_inj (by simp) (by simp) (hcomma order _) (hcomma order' _) hnumbers,
        (List.cons.inj hrest).2⟩

/-- The last field of a line. -/
def stateField (order : List NodeId) : Option NodeId → String
  | some state => " state=" ++ numberIn order state
  | none => ""

theorem toList_nodeLine (order : List NodeId) (n : Node) :
    (nodeLine order n).toList = n.kind.text.toList ++
    ((numberList "inputs" order n.inputs).toList ++
      ((numberList "control" order n.control).toList ++ (stateField order n.state).toList)) := by
  unfold nodeLine stateField
  cases n.state <;> simp only [String.toList_append, List.append_assoc]

theorem stateField_inj {state state' : Option NodeId}
    (h : (stateField order state).toList = (stateField order' state').toList) :
    state.map (numberIn order) = state'.map (numberIn order') := by
  unfold stateField at h
  cases state <;> cases state' <;> simp_all [String.toList_inj]

@[simp]
theorem numberList_nil (label : String) (order : List NodeId) : numberList label order [] = "" := by
  rw [numberList, List.isEmpty_nil, if_pos rfl]

theorem not_control_stateField (order : List NodeId) (state : Option NodeId) :
    ¬ (" " ++ "control" ++ "=[").toList <+: (stateField order state).toList := by
  cases state <;> simp [stateField]

theorem not_inputs_control (order : List NodeId) (ids : List NodeId) (state : Option NodeId) :
    ¬ (" " ++ "inputs" ++ "=[").toList <+:
      (numberList "control" order ids).toList ++ (stateField order state).toList := by
  cases ids with
  | nil => cases state <;> simp [stateField]
  | cons x ids => simp [toList_numberList_cons]

theorem stops_fields (order : List NodeId) (n : Node) :
    Stops (· != ' ') ((numberList "inputs" order n.inputs).toList ++
        ((numberList "control" order n.control).toList ++ (stateField order n.state).toList)) := by
  cases n.inputs with
  | nil =>
    cases n.control with
    | nil => cases n.state <;> simp [stateField]
    | cons x ids => simp [toList_numberList_cons]
  | cons x ids => simp [toList_numberList_cons]

/-- The fields of a node can be told from its line, as numbers. -/
theorem nodeLine_inj {n n' : Node} (h : nodeLine order n = nodeLine order' n') :
    n.kind = n'.kind ∧ n.inputs.map (numberIn order) = n'.inputs.map (numberIn order') ∧
      n.control.map (numberIn order) = n'.control.map (numberIn order') ∧
      n.state.map (numberIn order) = n'.state.map (numberIn order') := by
  replace h := congrArg String.toList h
  rw [toList_nodeLine, toList_nodeLine] at h
  obtain ⟨hkind, hfields⟩ :=
    NodeKind.text_append_inj (stops_fields order n) (stops_fields order' n') h
  obtain ⟨hinputs, hrest⟩ :=
    numberList_append_inj (not_inputs_control order _ _) (not_inputs_control order' _ _) hfields
  obtain ⟨hcontrol, hstate⟩ :=
    numberList_append_inj (not_control_stateField order _) (not_control_stateField order' _) hrest
  exact ⟨hkind, hinputs, hcontrol, stateField_inj hstate⟩

/-- A node with the same numbers on its edges is the renamed node. -/
theorem rename_matching_eq {n n' : Node} (hn : n.edges ⊆ order) (hn' : n'.edges ⊆ order')
    (h : n.kind = n'.kind ∧ n.inputs.map (numberIn order) = n'.inputs.map (numberIn order') ∧
      n.control.map (numberIn order) = n'.control.map (numberIn order') ∧
      n.state.map (numberIn order) = n'.state.map (numberIn order')) : n' =
        n.rename (matching order order') := by
  obtain ⟨kind, inputs, control, state⟩ := n
  obtain ⟨kind', inputs', control', state'⟩ := n'
  obtain ⟨rfl, hinputs, hcontrol, hstate⟩ := h
  simp only [Node.edges, List.append_subset] at hn hn'
  have hs : state.map (matching order order') = state' := by
    cases state with
    | none => exact (Option.map_eq_none_iff.1 hstate.symm).symm
    | some x =>
      cases state' with
      | none => simp at hstate
      | some y =>
        have hx : x ∈ order := hn.2 (by simp)
        have hy : y ∈ order' := hn'.2 (by simp)
        rw [Option.map_some, matching_eq hx hy (Option.some.inj hstate)]
  rw [Node.rename, map_matching_eq hn.1.1 hn'.1.1 hinputs,
    map_matching_eq hn.1.2 hn'.1.2 hcontrol, hs]

/-- No line holds a newline but the one at its end. -/
theorem newline_notMem_nodeLine (order : List NodeId) (n : Node) :
    '\n' ∉ (nodeLine order n).toList := by
  have hnumber : ∀ x, '\n' ∉ (numberIn order x).toList :=
    fun x hx => absurd (numberIn_chars order x _ hx) (by decide)
  have hlist : ∀ (label : String) (ids : List NodeId), '\n' ∉ label.toList →
      '\n' ∉ (numberList label order ids).toList := by
    intro label ids hlabel hmem
    cases ids with
    | nil => simp at hmem
    | cons x ids =>
      simp [toList_numberList_cons, -String.toList_intercalate, -List.map_cons, hlabel] at hmem
      exact absurd (numbers_chars order _ hmem) (by decide)
  have hstate : '\n' ∉ (stateField order n.state).toList := by
    cases n.state <;> simp [stateField, hnumber]
  rw [toList_nodeLine]
  simp only [List.mem_append, not_or]
  exact ⟨n.kind.newline_notMem_text, hlist _ _ (by decide), hlist _ _ (by decide), hstate⟩

/-! ## Reading a graph back -/

/-- A line of the text without its newline. -/
def lineChars (g : Graph) (order : List NodeId) (x : NodeId) : List Char :=
  (numberIn order x).toList ++ (' ' :: (((g.node? x).map (nodeLine order)).getD "").toList)

theorem toList_canonicalLine (g : Graph) (order : List NodeId) (x : NodeId) :
    (g.canonicalLine order x).toList = g.lineChars order x ++ ['\n'] := by
  simp only [canonicalLine, lineChars, String.toList_append, String.reduceToList, List.append_assoc,
    List.cons_append, List.nil_append]

theorem newline_notMem_lineChars (g : Graph) (order : List NodeId) (x : NodeId) :
    '\n' ∉ g.lineChars order x := by
  have hnumber : '\n' ∉ (numberIn order x).toList :=
    fun hx => absurd (numberIn_chars order x _ hx) (by decide)
  unfold lineChars
  cases g.node? x with
  | none => simp [hnumber]
  | some n => simp [hnumber, newline_notMem_nodeLine order n]

/-- Equal texts have equal lines. -/
theorem lineChars_eq_of_text_eq (h : String.join (order.map (g.canonicalLine order)) =
      String.join (order'.map (g'.canonicalLine order'))) :
    order.map (g.lineChars order) = order'.map (g'.lineChars order') := by
  have hlines : ∀ (g : Graph) (order : List NodeId),
      (String.join (order.map (g.canonicalLine order))).toList =
      (order.map (g.lineChars order)).flatMap (· ++ ['\n']) := by
    intro g order
    rw [String.toList_join, List.flatMap_map, List.flatMap_map]
    exact List.flatMap_congr fun x _ => toList_canonicalLine g order x
  refine lines_inj ?_ ?_ ?_
  · rintro l hl
    obtain ⟨x, -, rfl⟩ := List.mem_map.1 hl
    exact newline_notMem_lineChars g order x
  · rintro l hl
    obtain ⟨x, -, rfl⟩ := List.mem_map.1 hl
    exact newline_notMem_lineChars g' order' x
  · rw [← hlines, ← hlines, h]

/-- Matching nodes have the same number and, in equal texts, the same line. -/
theorem matching_spec (hn' : order'.Nodup)
    (h : order.map (g.lineChars order) = order'.map (g'.lineChars order')) (hx : x ∈ order) :
    matching order order' x ∈ order' ∧
      numberIn order' (matching order order' x) = numberIn order x ∧
      g'.lineChars order' (matching order order' x) = g.lineChars order x := by
  have hlen : order.length = order'.length := by simpa using congrArg List.length h
  have hi : order.idxOf x < order'.length := hlen ▸ List.idxOf_lt_length_of_mem hx
  have hmatch : matching order order' x = order'[order.idxOf x] := by
    simp [matching, List.getD_eq_getElem?_getD, hi]
  have hmem : matching order order' x ∈ order' := hmatch ▸ List.getElem_mem hi
  refine ⟨hmem, ?_, ?_⟩
  · rw [numberIn_of_mem hmem, numberIn_of_mem hx, hmatch, hn'.idxOf_getElem]
  · have hline := congrArg (·[order.idxOf x]?) h
    simp only [List.getElem?_map, List.getElem?_idxOf hx, List.getElem?_eq_getElem hi,
      Option.map_some, Option.some.injEq] at hline
    rw [hmatch, hline]

theorem Tidy.idxOf_start (hg : g.Tidy) : g.canonicalOrder.idxOf start = 0 := by
  have hsize := start_lt_size hg.verified
  have hmem : start ∈ g.positions := List.mem_range.2 hsize
  have hfuel : g.positions.length = (g.positions.length - 1) + 1 :=
    (Nat.sub_add_cancel (List.length_pos_of_mem hmem)).symm
  have hhead : g.reachable.head? = some start := by
    unfold reachable breadthFirst
    rw [hfuel, visit, List.dropWhile_cons_of_neg (by simpa using hmem)]
    rfl
  obtain ⟨rest, hrest⟩ := List.head?_eq_some_iff.1 hhead
  rw [hg.canonicalOrder_eq, hrest, List.cons_append, List.idxOf_cons_self]

/-- Sending each node to the node with its number is an isomorphism of graphs
with the same text. -/
theorem isIso_matching (hg : g.Tidy) (hg' : g'.Tidy)
    (h : g.canonicalOrder.map (g.lineChars g.canonicalOrder) =
      g'.canonicalOrder.map (g'.lineChars g'.canonicalOrder)) :
    IsIso g g' (matching g.canonicalOrder g'.canonicalOrder) := by
  have hin : ∀ {x}, x ∈ g.canonicalOrder ↔ g.contains x := hg.mem_canonicalOrder_iff
  have hin' : ∀ {x}, x ∈ g'.canonicalOrder ↔ g'.contains x := hg'.mem_canonicalOrder_iff
  have hspec : ∀ {x}, x ∈ g.canonicalOrder → _ :=
    fun hx => matching_spec hg'.canonicalOrder_nodup h hx
  have hspec' : ∀ {x}, x ∈ g'.canonicalOrder → _ :=
    fun hx => matching_spec hg.canonicalOrder_nodup h.symm hx
  refine ⟨⟨?_, ?_, ?_⟩, ?_, ?_⟩
  · exact fun x hx => hin'.1 (hspec (hin.2 hx)).1
  · intro x hx y hy hxy
    have hnumber : numberIn g.canonicalOrder x = numberIn g.canonicalOrder y := by
      rw [← (hspec (hin.2 hx)).2.1, ← (hspec (hin.2 hy)).2.1, hxy]
    rw [numberIn_of_mem (hin.2 hx), numberIn_of_mem (hin.2 hy)] at hnumber
    exact (List.idxOf_inj (hin.2 hx)).1 (natText_injective hnumber)
  · intro y hy
    obtain ⟨hmem, hnumber, -⟩ := hspec' (hin'.2 hy)
    exact ⟨_, hin.1 hmem, matching_eq hmem (hin'.2 hy) hnumber⟩
  · have hstart : start ∈ g.canonicalOrder := by
      obtain ⟨n, hn, -⟩ := kind?_eq_some.1 (kind?_start_of_verify hg.verified)
      exact hin.2 (contains_iff.2 ⟨n, hn⟩)
    have hstart' : start ∈ g'.canonicalOrder := by
      obtain ⟨n, hn, -⟩ := kind?_eq_some.1 (kind?_start_of_verify hg'.verified)
      exact hin'.2 (contains_iff.2 ⟨n, hn⟩)
    refine matching_eq hstart hstart' ?_
    rw [numberIn_of_mem hstart, numberIn_of_mem hstart', hg.idxOf_start, hg'.idxOf_start]
  · intro x n hn
    obtain ⟨hmem, hnumber, hline⟩ := hspec (hin.2 (contains_iff.2 ⟨n, hn⟩))
    obtain ⟨n', hn'⟩ := contains_iff.1 (hin'.1 hmem)
    rw [hn', Option.some.injEq]
    have hnode : nodeLine g.canonicalOrder n = nodeLine g'.canonicalOrder n' := by
      unfold lineChars at hline
      rw [hnumber, hn, hn'] at hline
      exact String.toList_inj.1 (List.cons.inj (List.append_cancel_left hline)).2.symm
    have hedges : n.edges ⊆ g.canonicalOrder :=
      fun y hy => hin.2 (contains_of_edge hg.verified hn hy)
    have hedges' : n'.edges ⊆ g'.canonicalOrder :=
      fun y hy => hin'.2 (contains_of_edge hg'.verified hn' hy)
    exact rename_matching_eq hedges hedges' (nodeLine_inj hnode)

/-- The canonical text decides isomorphism: two tidy graphs have texts, and
the texts are equal exactly if the graphs are the same but for the numbers of
their nodes. -/
theorem canonicalText_eq_iff_isomorphic (hg : g.Tidy) (hg' : g'.Tidy) :
    ∃ text text', g.canonicalText = .ok text ∧
      g'.canonicalText = .ok text' ∧ (text = text' ↔ Isomorphic g g') := by
  refine ⟨_, _, hg.canonicalText_eq, hg'.canonicalText_eq, fun h => ?_, fun ⟨f, hf⟩ => ?_⟩
  · exact ⟨_, isIso_matching hg hg' (lineChars_eq_of_text_eq h)⟩
  · have htext := hf.canonicalText_eq hg hg'
    rw [hg.canonicalText_eq, hg'.canonicalText_eq] at htext
    exact (Except.ok.inj htext).symm

/-- A parameter decides which of two values is returned. -/
def fork : Graph where
  name := "fork"
  nodes := #[some { kind := .start }, some { kind := .parameter 0 },
    some { kind := .branch, inputs := [1], control := [0] },
    some { kind := .onTrue, control := [2] }, some { kind := .onFalse, control := [2] },
    some { kind := .constant (.int 7) }, some { kind := .ret, inputs := [5], control := [3] },
    some { kind := .ret, inputs := [1], control := [4] }]
  shared := []

/-- The same graph made in another order, with a node taken out. -/
def forkMoved : Graph where
  name := "moved"
  nodes := #[some { kind := .start }, some { kind := .branch, inputs := [6], control := [0] }, none,
    some { kind := .onFalse, control := [1] }, some { kind := .onTrue, control := [1] },
    some { kind := .ret, inputs := [6], control := [3] }, some { kind := .parameter 0 },
    some { kind := .ret, inputs := [8], control := [4] }, some { kind := .constant (.int 7) }]
  shared := []

/-- Where the nodes of the first graph are in the second, and back. -/
def forkMove (x : NodeId) : NodeId := [0, 6, 1, 4, 3, 8, 7, 5].getD x 0

def forkBack (y : NodeId) : NodeId := [0, 2, 0, 4, 3, 7, 1, 6, 5].getD y 0

theorem isIso_forkMove : IsIso fork forkMoved forkMove where
  bijective := by
    have hlt : ∀ {g : Graph} {x}, g.contains x → x < g.nodes.size := fun h =>
      lt_size_of_node? (contains_iff.1 h).choose_spec
    have hthere : ∀ x < 8, fork.contains x → forkMoved.contains (forkMove x) ∧
        forkBack (forkMove x) = x := by decide
    have hback : ∀ y < 9, forkMoved.contains y → fork.contains (forkBack y) ∧
        forkMove (forkBack y) = y := by decide
    exact Set.InvOn.bijOn
      ⟨fun x hx => (hthere x (hlt hx) hx).2, fun y hy => (hback y (hlt hy) hy).2⟩
      (fun x hx => (hthere x (hlt hx) hx).1) fun y hy => (hback y (hlt hy) hy).1
  start := rfl
  node x n hn := by
    have hmoved : ∀ x < 8,
        forkMoved.node? (forkMove x) = (fork.node? x).map (·.rename forkMove) := by decide
    rw [hmoved x (lt_size_of_node? hn), hn]
    rfl

/-- They have the same text, as they are the same but for the numbers of their
nodes. -/
theorem canonicalText_fork_eq_iff :
    fork.Tidy ∧ forkMoved.Tidy ∧ Isomorphic fork forkMoved ∧ ∃ text text',
      fork.canonicalText = .ok text ∧ forkMoved.canonicalText = .ok text' ∧
      (text = text' ↔ Isomorphic fork forkMoved) ∧ text = text' := by
  have hfork : fork.Tidy := by decide
  have hmoved : forkMoved.Tidy := by decide
  have hsame : Isomorphic fork forkMoved := ⟨_, isIso_forkMove⟩
  obtain ⟨text, text', htext, htext', hiff⟩ := canonicalText_eq_iff_isomorphic hfork hmoved
  exact ⟨hfork, hmoved, hsame, text, text', htext, htext', hiff, hiff.2 hsame⟩

end Graph

end TieredEngine
