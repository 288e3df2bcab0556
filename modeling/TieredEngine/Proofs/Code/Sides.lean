import TieredEngine.Proofs.Code.Machine
import TieredEngine.Proofs.Code.Readings
import TieredEngine.Proofs.Optimize.Steps
/-!
# The sides of a branch

Running code and the reduction of branches on constants both take the first
successor of a branch for the side of truth and the second for the other.
Verification counts two successors and asks nothing of them. So a branch of a
verified graph is left by its sides if it has both of them
(`verified_branch_leaves_by_side`), and may be left by the wrong one if it has
not (`lopsided_branch_leaves_by_wrong_side`).
-/

namespace TieredEngine

namespace Code

open TieredEngine.Graph TieredEngine.Optimize

variable {g : Graph} {m a b x q : NodeId} {n : Node}

/-- Control leaves a branch for the first successor if the condition is true,
and for the second if it is false. -/
theorem next_of_branch {σ : Type} {host : Host σ} (c : Code) {arguments : List Value}
    {previous : Option NodeId} {next : Position} {act act' : Activation σ}
    (hn : c.graph.node? m = some n) (hk : n.kind = .branch) (hx : n.inputs = [x])
    (hab : c.graph.successors m = [a, b])
    (hstep : step host c arguments ⟨m, previous⟩ act = .done (.go next) act') :
    ∃ t r, valueOf c.graph arguments x act.registers = .done (.bool t) r ∧
      next = ⟨if t then a else b, some m⟩ := by
  unfold step at hstep
  simp only [hn, hk] at hstep
  obtain ⟨v, a₁, hread, hrest⟩ := Comp.bind_eq_done hstep
  obtain ⟨r, hvalue, rfl⟩ := reading_eq_done hread
  rw [inputAt_eq (show n.inputs[0]? = some x by rw [hx]; rfl), pure_bind] at hvalue
  cases hcond : v.condition with
  | error e =>
    rw [hcond] at hrest
    cases hrest
  | ok t =>
    rw [hcond, Flow.successors_eq, hab] at hrest
    obtain rfl := condition_eq_ok.1 hcond
    refine ⟨t, r, hvalue, ?_⟩
    cases t <;> cases hrest <;> rfl

/-- A branch on a constant is spliced out together with the first successor if
the constant is true, and with the second if it is false. -/
theorem reduceBranch_of_constant {t : Bool} (hx : n.inputs = [x]) (hq : n.control = [q])
    (hab : g.successors m = [a, b]) (ht : g.constantAt x = some (.bool t)) :
    reduceBranch g m n = .ok (some (.controlSimplified,
      (((g.replaceControl (if t then a else b) q).remove (if t then a else b)).remove
        m).cutUnreachable.1)) := by
  unfold reduceBranch
  simp only [input_eq m (show n.inputs[0]? = some x by rw [hx]; rfl), predecessor_eq m hq, bind,
    Except.bind, ht, hab]
  rfl

/-- A branch of a verified graph has two successors, and the table of
successors gives them in the same order. If control goes on from it to its two
sides, these are the side of truth and the other one, in this order. Then
running code leaves the branch for the side of its condition, and reducing it
on a constant splices out that side and no other node. -/
theorem verified_branch_leaves_by_side (hv : g.verify = .ok ()) (hn : g.node? m = some n)
    (hk : n.kind = .branch) :
    (g.successors m).length = 2 ∧ g.flow.successors m = g.successors m ∧
    (g.GoesOn m .branch → ∃ a b x q, g.kind? a = some .onTrue ∧ g.kind? b = some .onFalse ∧
      g.successors m = [a, b] ∧ n.inputs = [x] ∧ n.control = [q] ∧
      (∀ {σ : Type} (host : Host σ) target arguments previous act next act',
        step host ⟨target, g, g.flow⟩ arguments ⟨m, previous⟩ act = .done (.go next) act' →
        ∃ t r, valueOf g arguments x act.registers = .done (.bool t) r ∧
          next = ⟨if t then a else b, some m⟩) ∧
      ∀ t, g.constantAt x = some (.bool t) → reduceBranch g m n = .ok (some (.controlSimplified,
        (((g.replaceControl (if t then a else b) q).remove (if t then a else b)).remove
          m).cutUnreachable.1))) := by
  have hverified := verify_eq_ok_iff.1 hv
  refine ⟨?_, Flow.successors_eq _ _, ?_⟩
  · have hlen := hverified.successors m n hn (by rw [hk]; rfl)
    rwa [hk] at hlen
  · rintro ⟨a, b, ha, hb, hfollows⟩
    have hab := successors_eq_of_sides ha hb hfollows
    have harity := hverified.arity m n hn
    simp only [Node.Arity, hk] at harity
    obtain ⟨x, hx⟩ := List.length_eq_one_iff.1 harity.1
    obtain ⟨q, hq⟩ := List.length_eq_one_iff.1 harity.2
    refine ⟨a, b, x, q, ha, hb, hab, hx, hq, ?_, fun t ht => reduceBranch_of_constant hx hq hab ht⟩
    intro σ host target arguments previous act next act' hstep
    exact next_of_branch ⟨target, g, g.flow⟩ hn hk hx hab hstep

/-- A graph with a branch that returns one from its second side. What else
hangs off the branch is a side of truth or a merge, and returns two. -/
def twoWays (other : NodeKind) : Graph where
  name := "ways"
  nodes :=
    #[some { kind := .start }, some { kind := .parameter 0 }, some { kind := .constant (.int 1) },
    some { kind := .constant (.int 2) }, some { kind := .branch, inputs := [1], control := [0] },
    some { kind := .onFalse, control := [4] }, some { kind := .ret, inputs := [2], control := [5] },
    some { kind := other, control := [4] }, some { kind := .ret, inputs := [3], control := [7] }]
  shared := []

theorem balanced_branch_leaves_by_side :
    (twoWays .onTrue).verify = .ok () ∧ (twoWays .onTrue).GoesOn 4 .branch ∧
      ∃ a b, (twoWays .onTrue).successors 4 = [a, b] ∧
      (twoWays .onTrue).kind? a = some .onTrue ∧ (twoWays .onTrue).kind? b = some .onFalse := by
  have hv : (twoWays .onTrue).verify = .ok () := rfl
  have hgo : (twoWays .onTrue).GoesOn 4 .branch := by
    refine ⟨7, 5, rfl, rfl, fun s => ?_⟩
    rw [follows_iff_mem_successors, show (twoWays .onTrue).successors 4 = [7, 5] from rfl]
    simp
  obtain ⟨a, b, -, -, ha, hb, hab, -⟩ :=
    (verified_branch_leaves_by_side hv (m := 4) rfl rfl).2.2 hgo
  exact ⟨hv, hgo, a, b, hab, ha, hb⟩

/-- With a merge in place of the side of truth the graph is verified all the
same, its branch has no side of truth, and a true condition leaves it by the
side of falsehood. -/
theorem lopsided_branch_leaves_by_wrong_side :
    (twoWays .merge).verify = .ok () ∧ (twoWays .merge).successors 4 = [5, 7] ∧
    (twoWays .merge).kind? 5 = some .onFalse ∧ (twoWays .merge).kind? 7 = some .merge ∧
    (⟨0, twoWays .merge, (twoWays .merge).flow⟩ : Code).run
    (⟨fun _ _ w => .done .null w, fun _ => true⟩ : Host Unit) 4
      [.bool true] () = .done (.returned (.int 1)) () :=
  ⟨rfl, rfl, rfl, rfl, rfl⟩

end Code

end TieredEngine
