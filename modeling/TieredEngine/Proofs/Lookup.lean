import Mathlib.Data.List.Chain
import TieredEngine.Proofs.Interpreter.Validation
/-!
# Looking expressions up

Numbering, visiting and searching each go through a tree in their own way. In
a routine they agree: visiting comes to what stands in the body and to nothing
else, the ids count the visits, and the search for an id gives the one way
down to the expression that has it. The same visits collect the call sites and
the local slots: `Routine.Indexes`.
-/

namespace TieredEngine

namespace Expr

/-! ## What numbering keeps -/

mutual

/-- The expression with all ids alike. -/
def withoutIds : Expr → Expr
  | .constant _ value => .constant 0 value
  | .argument _ index => .argument 0 index
  | .readLocal _ slot => .readLocal 0 slot
  | .writeLocal _ slot value => .writeLocal 0 slot value.withoutIds
  | .binary _ op lhs rhs => .binary 0 op lhs.withoutIds rhs.withoutIds
  | .unary _ op operand => .unary 0 op operand.withoutIds
  | .block _ parts => .block 0 (withoutIdsAll parts)
  | .ifThen _ condition body => .ifThen 0 condition.withoutIds body.withoutIds
  | .ifElse _ condition body alternative =>
    .ifElse 0 condition.withoutIds body.withoutIds alternative.withoutIds
  | .whileLoop _ condition body => .whileLoop 0 condition.withoutIds body.withoutIds
  | .ret _ value => .ret 0 value.withoutIds
  | .call _ target arguments => .call 0 target (withoutIdsAll arguments)

/-- The expressions of a list with all ids alike. -/
def withoutIdsAll : List Expr → List Expr
  | [] => []
  | e :: es => e.withoutIds :: withoutIdsAll es

end

theorem withoutIdsAll_numberAll_of {es : List Expr}
    (h : ∀ c ∈ es, ∀ k, (c.number k).withoutIds = c.withoutIds) (k : ExprId) :
    withoutIdsAll (numberAll es k) = withoutIdsAll es := by
  induction es generalizing k with
  | nil => rfl
  | cons e es ih =>
    rw [numberAll, withoutIdsAll, withoutIdsAll, h e List.mem_cons_self,
      ih fun c hc => h c (List.mem_cons_of_mem _ hc)]

/-- Numbering changes nothing but the ids. -/
theorem withoutIds_number (e : Expr) (k : ExprId) : (e.number k).withoutIds = e.withoutIds := by
  induction e using induction_children generalizing k with
  | step e ih =>
    have hall : withoutIdsAll (numberAll e.children (k + 1)) = withoutIdsAll e.children :=
      withoutIdsAll_numberAll_of ih _
    cases e with
    | constant | argument | readLocal => rfl
    | block id parts => exact congrArg (block 0) hall
    | call id target arguments => exact congrArg (call 0 target) hall
    | _ =>
      simp only [children, numberAll, withoutIdsAll, List.cons.injEq, and_true] at hall
      simp only [number, withoutIds, hall]

/-! ## What stands in a tree -/

/-- The second expression stands in the first: it is the first, or a child of
one that stands there. -/
def Contains (e x : Expr) : Prop := Relation.ReflTransGen (fun p c : Expr => c ∈ p.children) e x

theorem preorderAll_eq_flatMap (es : List Expr) : preorderAll es = es.flatMap preorder := by
  induction es with
  | nil => rfl
  | cons e es ih => rw [preorderAll, List.flatMap_cons, ih]

/-- Visiting comes to what stands in the tree. -/
theorem contains_iff {e x : Expr} : e.Contains x ↔ x ∈ e.preorder := by
  constructor
  · intro h
    induction h using Relation.ReflTransGen.head_induction_on with
    | refl => exact self_mem_preorder x
    | head hc _ ih => exact preorder_subset_of_mem_children hc ih
  · intro h
    induction e using induction_children with
    | step e ih =>
      rw [preorder_eq] at h
      rcases List.mem_cons.1 h with rfl | h
      · exact .refl
      · obtain ⟨c, hc, hx⟩ := mem_preorderAll.1 h
        exact .head hc (ih c hc hx)

/-! ## Ways down -/

/-- The expressions lead down from the root of the tree to one with the id,
each of them to a child of its own. -/
structure LeadsTo (e : Expr) (id : ExprId) (path : List Expr) : Prop where
  head : path.head? = some e
  linked : path.IsChain fun p c => c ∈ p.children
  last : path.getLast?.map Expr.id = some id

theorem LeadsTo.cons {e c : Expr} {id : ExprId} {path : List Expr} (hc : c ∈ e.children)
    (h : c.LeadsTo id path) :
    e.LeadsTo id (e :: path) := by
  obtain ⟨hhead, hlinked, hlast⟩ := h
  cases path with
  | nil => cases hhead
  | cons c' path =>
    cases hhead
    exact ⟨rfl, .cons_cons hc hlinked, hlast⟩

theorem exists_mem_of_pathToAny {goal : ExprId} {es path : List Expr}
    (h : pathToAny goal es = some path) :
    ∃ c ∈ es, pathTo goal c = some path := by
  induction es with
  | nil => cases h
  | cons e es ih =>
    rw [pathToAny, Option.or_eq_some_iff] at h
    rcases h with h | ⟨-, h⟩
    · exact ⟨e, List.mem_cons_self, h⟩
    · obtain ⟨c, hc, hp⟩ := ih h
      exact ⟨c, List.mem_cons_of_mem _ hc, hp⟩

/-- What a search finds is a way down. -/
theorem leadsTo_of_pathTo {e : Expr} {id : ExprId} {path : List Expr}
    (h : pathTo id e = some path) : e.LeadsTo id path := by
  induction e using induction_children generalizing path with
  | step e ih =>
    rw [pathTo_eq] at h
    split at h
    · cases h
      exact ⟨rfl, .singleton e, by simpa⟩
    · obtain ⟨below, hbelow, rfl⟩ := Option.map_eq_some_iff.1 h
      obtain ⟨c, hc, hp⟩ := exists_mem_of_pathToAny hbelow
      exact (ih c hc hp).cons hc

/-- In a numbered tree a search finds every way down. -/
theorem NumberedFrom.pathTo_of_leadsTo {k : Nat} {e : Expr} {id : ExprId} {path : List Expr}
    (hk : e.NumberedFrom k) (h : e.LeadsTo id path) : pathTo id e = some path := by
  induction path generalizing e k with
  | nil => cases h.head
  | cons e' path ih =>
    obtain ⟨hhead, hlinked, hlast⟩ := h
    cases hhead
    cases path with
    | nil =>
      have hid : e'.id = id := Option.some.inj hlast
      rw [pathTo_eq, if_pos hid]
    | cons c path =>
      obtain ⟨hc, hrest⟩ := List.isChain_cons_cons.1 hlinked
      obtain ⟨i, hi⟩ := List.mem_iff_getElem?.1 hc
      obtain ⟨j, -, hj, -⟩ := hk.child hi
      have hfound : pathTo id c = some (c :: path) := ih hj ⟨rfl, hrest, hlast⟩
      -- the id is one of the child's subtree, for outside of it the search
      -- would have found nothing
      have hin : c.id ≤ id ∧ id < c.id + c.nodeCount := by
        rw [hj.id_eq]
        obtain ⟨c₀, rfl⟩ := hj
        by_contra hout
        rw [nodeCount_number] at hout
        rw [pathTo_number_of_lt (by grind)] at hfound
        cases hfound
      rw [hk.pathTo_child hi hin.1 hin.2, hfound, Option.map_some]

end Expr

/-! ## Routines -/

namespace Routine

variable {r : Routine}

theorem preorder_ids (r : Routine) : r.body.preorder.map Expr.id = List.range r.nodeCount := by
  obtain ⟨e, he⟩ := r.numbered
  rw [nodeCount, he, Expr.preorder_number_ids, Expr.nodeCount_number, List.range_eq_range']

theorem path?_eq_some_iff {id : ExprId} {path : List Expr} :
    r.path? id = some path ↔ r.body.LeadsTo id path := by
  constructor
  · intro h
    rw [path?] at h
    split at h
    · exact Expr.leadsTo_of_pathTo h
    · cases h
  · intro h
    have hpath := Expr.NumberedFrom.pathTo_of_leadsTo r.numbered h
    obtain ⟨e, he⟩ := r.numbered
    have hlt : id < r.nodeCount := by
      by_contra hge
      rw [nodeCount, he, Expr.nodeCount_number] at hge
      rw [he, Expr.pathTo_number_of_lt (by grind)] at hpath
      cases hpath
    rw [path?, if_pos hlt, hpath]

theorem isSome_path?_iff {id : ExprId} : (r.path? id).isSome ↔ id < r.nodeCount := by
  constructor
  · intro h
    by_contra hge
    rw [path?, if_neg hge] at h
    cases h
  · intro h
    obtain ⟨ss, n, hw, rfl⟩ := Interpreter.exists_within_of_lt h
    rw [hw.path?_eq, Option.isSome_some]

theorem mem_callSites_iff {id : ExprId} {target : TargetId} :
    (id, target) ∈ r.callSites ↔ ∃ arguments, r.body.Contains (.call id target arguments) := by
  simp only [callSites, List.mem_filterMap, Expr.contains_iff]
  constructor
  · rintro ⟨x, hx, hsite⟩
    cases x <;> cases hsite
    exact ⟨_, hx⟩
  · rintro ⟨arguments, hx⟩
    exact ⟨_, hx, rfl⟩

theorem callSites_sorted (r : Routine) : (r.callSites.map Prod.fst).Pairwise (· < ·) := by
  have hids : (r.body.preorder.map Expr.id).Pairwise (· < ·) := by
    rw [preorder_ids]
    exact List.pairwise_lt_range
  have hsite : ∀ {x : Expr} {site}, x.callSite? = some site → site.1 = x.id := by
    intro x site h
    cases x <;> cases h
    rfl
  rw [callSites, List.pairwise_map, List.pairwise_filterMap]
  refine (List.pairwise_map.1 hids).imp fun hlt a ha b hb => ?_
  rw [hsite ha, hsite hb]
  exact hlt

/-- No local slot that the routine reads or writes is the last word. -/
def SlotsFit (r : Routine) : Prop :=
  ∀ x, r.body.Contains x → ∀ slot, x.slot? = some slot → IsIndex slot

theorem slotsFit_iff :
    r.SlotsFit ↔ ∀ slot ∈ r.body.preorder.filterMap Expr.slot?, IsIndex slot := by
  simp only [SlotsFit, List.mem_filterMap, Expr.contains_iff]
  exact ⟨fun h slot ⟨x, hx, hslot⟩ => h x hx slot hslot,
    fun h x hx slot hslot => h slot ⟨x, hx, hslot⟩⟩

instance : Decidable r.SlotsFit := @decidable_of_iff _ _ slotsFit_iff.symm (List.decidableBAll _ _)

/-- The number of local slots is above all slots in use but the last word. -/
theorem localCount_le_iff {n : Nat} : r.localCount ≤ n ↔
    ∀ x, r.body.Contains x → ∀ slot, x.slot? = some slot → IsIndex slot → slot.toNat < n := by
  simp only [localCount, Expr.bound_le_iff, List.mem_filterMap, Expr.contains_iff]
  exact ⟨fun h x hx slot hslot => h slot ⟨x, hx, hslot⟩,
    fun h slot ⟨x, hx, hslot⟩ => h x hx slot hslot⟩

theorem SlotsFit.lt_localCount (h : r.SlotsFit) {x : Expr} (hx : r.body.Contains x) {slot : UInt64}
    (hslot : x.slot? = some slot) : slot.toNat < r.localCount :=
  localCount_le_iff.1 (Nat.le_refl _) x hx slot hslot (h x hx slot hslot)

/-- The routine has the expression for its body, and all that looks into it by
ids is exact. -/
structure Indexes (r : Routine) (e : Expr) : Prop where
  /-- The body is the expression, up to ids. -/
  body : r.body.withoutIds = e.withoutIds
  /-- Visits come to what stands in the body. -/
  visits : ∀ x, x ∈ r.body.preorder ↔ r.body.Contains x
  /-- An expression is visited first, then its children from left to right,
  each with all that it contains. -/
  order : ∀ x, r.body.Contains x → x.preorder = x :: x.children.flatMap Expr.preorder
  /-- The ids count the visits. -/
  ids : r.body.preorder.map Expr.id = List.range r.nodeCount
  found : ∀ id, (r.path? id).isSome ↔ id < r.nodeCount
  /-- The search for an id gives the only way down to it. -/
  path : ∀ id path, r.path? id = some path ↔ r.body.LeadsTo id path
  sites : ∀ id target, (id, target) ∈ r.callSites ↔
    ∃ arguments, r.body.Contains (.call id target arguments)
  sorted : (r.callSites.map Prod.fst).Pairwise (· < ·)
  /-- The number of local slots is the least that is above all slots in use,
  unless the last word is one of them. -/
  slots : r.SlotsFit → ∀ n, r.localCount ≤ n ↔
    (∀ id slot, r.body.Contains (.readLocal id slot) → slot.toNat < n) ∧
      ∀ id slot value, r.body.Contains (.writeLocal id slot value) → slot.toNat < n

/-- A routine has the expression that it is made of for its body, with ids in
pre-order. -/
theorem ofBody_indexes (name : String) (parameters : Nat) (e : Expr) :
    (ofBody name parameters e).Indexes e where
  body := e.withoutIds_number 0
  visits _ := Expr.contains_iff.symm
  order x _ := by rw [Expr.preorder_eq, Expr.preorderAll_eq_flatMap]
  ids := preorder_ids _
  found _ := isSome_path?_iff
  path _ _ := path?_eq_some_iff
  sites _ _ := mem_callSites_iff
  sorted := callSites_sorted _
  slots hfits n := by
    rw [localCount_le_iff]
    constructor
    · intro h
      exact ⟨fun id slot hx => h _ hx slot rfl (hfits _ hx slot rfl),
        fun id slot value hx => h _ hx slot rfl (hfits _ hx slot rfl)⟩
    · rintro ⟨hread, hwrite⟩ x hx slot hslot -
      cases x <;> cases hslot
      · exact hread _ _ hx
      · exact hwrite _ _ _ hx

end Routine

end TieredEngine
