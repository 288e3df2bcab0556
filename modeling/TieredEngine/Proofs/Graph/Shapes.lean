import Mathlib.Algebra.Group.Nat.Defs
import TieredEngine.Graph.Kind
/-!
# Counting the values of a frame

A frame state counts its values in words, so a count or the sum of the counts
may overflow. `Counts` says that they did not. Where they did, the values
cannot be taken apart: `counts_iff`.
-/

namespace TieredEngine

namespace FrameShape

variable {shape : FrameShape} {count : Nat}

/-- The shape counts so many values, sort by sort, and a word can hold the
sum. -/
structure Counts (shape : FrameShape) (count : Nat) : Prop where
  total : shape.arguments.toNat + shape.locals.toNat + shape.stack.toNat = count
  fits : count < 2 ^ 32

/-- The sum of the counts does not overflow. -/
def Fits (shape : FrameShape) : Prop :=
  shape.arguments.toNat + shape.locals.toNat + shape.stack.toNat < 2 ^ 32

instance : Decidable shape.Fits := Nat.decLt _ _

theorem Counts.stackStart_eq (h : shape.Counts count) :
    shape.stackStart = shape.arguments.toNat + shape.locals.toNat := by
  obtain ⟨rfl, hfits⟩ := h
  rw [stackStart, UInt32.toNat_add]
  exact Nat.mod_eq_of_lt (by omega)

theorem Counts.valueCount_eq (h : shape.Counts count) : shape.valueCount = count := by
  have hstart : (shape.arguments + shape.locals).toNat = _ := h.stackStart_eq
  obtain ⟨rfl, hfits⟩ := h
  rw [valueCount, UInt32.toNat_add, hstart]
  exact Nat.mod_eq_of_lt hfits

theorem Counts.splits (h : shape.Counts count) : shape.splits count := by
  have htotal := h.total
  simp only [FrameShape.splits, h.stackStart_eq, Bool.and_eq_true, decide_eq_true_eq]
  omega

/-- Values whose number passed the check can be taken apart exactly if no count
overflowed. -/
theorem counts_iff : shape.Counts count ↔ count = shape.valueCount ∧ shape.splits count := by
  constructor
  · exact fun h => ⟨h.valueCount_eq.symm, h.splits⟩
  · rintro ⟨rfl, h⟩
    have ha := shape.arguments.toNat_lt
    have hl := shape.locals.toNat_lt
    have hs := shape.stack.toNat_lt
    simp only [FrameShape.splits, stackStart, valueCount, UInt32.toNat_add, Bool.and_eq_true,
      decide_eq_true_eq] at h ⊢
    constructor <;> omega

theorem Fits.counts (h : shape.Fits) : shape.Counts shape.valueCount := by
  have hcounts : shape.Counts _ := ⟨rfl, h⟩
  rwa [hcounts.valueCount_eq]

/-! ## Taking the values apart -/

section

variable {values : List Value} (h : shape.Counts values.length)

include h

theorem Counts.length_arguments : (shape.fill values).arguments.length = shape.arguments.toNat := by
  have htotal := h.total
  rw [fill, List.length_take]
  omega

theorem Counts.length_locals : (shape.fill values).locals.length = shape.locals.toNat := by
  have htotal := h.total
  rw [fill, List.length_drop, List.length_take, h.stackStart_eq]
  omega

theorem Counts.length_stack : (shape.fill values).stack.length = shape.stack.toNat := by
  have htotal := h.total
  rw [fill, List.length_drop, h.stackStart_eq]
  omega

end

/-- The arguments and the local slots are the values below the stack. -/
theorem Counts.append_fill {values : List Value} (h : shape.Counts values.length) :
    (shape.fill values).arguments ++ (shape.fill values).locals ++ (shape.fill values).stack =
      values := by
  have hbelow : values.take shape.arguments.toNat =
      (values.take shape.stackStart).take shape.arguments.toNat := by
    rw [List.take_take, h.stackStart_eq, Nat.min_eq_left (Nat.le_add_right _ _)]
  simp only [fill]
  rw [hbelow, List.take_append_drop, List.take_append_drop]

/-! ## Words for lengths -/

/-- The counts of the shape are words for numbers with this sum. -/
def NarrowedFrom (shape : FrameShape) (count : Nat) : Prop :=
  ∃ arguments locals stack, arguments + locals + stack = count ∧
    shape.arguments = .ofNat arguments ∧ shape.locals = .ofNat locals ∧ shape.stack = .ofNat stack

/-- Where a word can hold the sum, nothing is lost. -/
theorem NarrowedFrom.counts (h : shape.NarrowedFrom count) (hfits : count < 2 ^ 32) :
    shape.Counts count := by
  obtain ⟨arguments, locals, stack, rfl, ha, hl, hs⟩ := h
  refine ⟨?_, hfits⟩
  rw [ha, hl, hs, UInt32.toNat_ofNat', UInt32.toNat_ofNat', UInt32.toNat_ofNat']
  omega

theorem narrowedFrom_ofLengths {target : TargetId} {node : ExprId} {mode : ResumeMode}
    {arguments locals stack : Nat} :
    (ofLengths target node mode arguments locals stack).NarrowedFrom (arguments + locals + stack) :=
  ⟨arguments, locals, stack, rfl, rfl, rfl, rfl⟩

section

variable {target : TargetId} {node : ExprId} {mode : ResumeMode} {arguments locals stack : Nat}

@[simp]
theorem target_ofLengths :
    (ofLengths target node mode arguments locals stack).target = target := by rw [ofLengths]

@[simp]
theorem node_ofLengths :
    (ofLengths target node mode arguments locals stack).node = node := by rw [ofLengths]

@[simp]
theorem mode_ofLengths :
    (ofLengths target node mode arguments locals stack).mode = mode := by rw [ofLengths]

variable (h : arguments + locals + stack < 2 ^ 32)

include h

theorem toNat_arguments_ofLengths :
    (ofLengths target node mode arguments locals stack).arguments.toNat = arguments := by
  rw [ofLengths, UInt32.toNat_ofNat']
  omega

theorem toNat_locals_ofLengths :
    (ofLengths target node mode arguments locals stack).locals.toNat = locals := by
  rw [ofLengths, UInt32.toNat_ofNat']
  omega

theorem toNat_stack_ofLengths :
    (ofLengths target node mode arguments locals stack).stack.toNat = stack := by
  rw [ofLengths, UInt32.toNat_ofNat']
  omega

end

/-- The frame of a shape that was made for its values. -/
theorem fill_ofLengths {target : TargetId} {node : ExprId} {mode : ResumeMode}
    {as ls ss : List Value} (h : as.length + ls.length + ss.length < 2 ^ 32) :
    (ofLengths target node mode as.length ls.length ss.length).fill (as ++ ls ++ ss) =
      ⟨target, node, mode, as, ls, ss⟩ := by
  have hstart : (ofLengths target node mode as.length ls.length ss.length).stackStart =
      (as ++ ls).length := by
    rw [(narrowedFrom_ofLengths.counts h).stackStart_eq, List.length_append,
      toNat_arguments_ofLengths h, toNat_locals_ofLengths h]
  simp only [fill, hstart, toNat_arguments_ofLengths h, List.take_left, List.drop_left]
  simp

end FrameShape

end TieredEngine
