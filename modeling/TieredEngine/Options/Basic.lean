/-!
# Options

The settings of an engine. They bound work: when to compile, how far to
inline, how long passes go on, how deep calls nest.
-/

namespace TieredEngine

/-- The settings of an engine, as machine words. -/
structure Options where
  /-- Interpreted runs before a target is compiled automatically. -/
  compilationThreshold : UInt64 := 3
  /-- Whether hot targets are compiled automatically. -/
  autoCompile : Bool := true
  /-- The run count that a callee must exceed to be inlined. -/
  inliningMinHotness : UInt64 := 0
  /-- How deep inlined calls may nest. -/
  maxInliningDepth : UInt32 := 8
  /-- The total size that may be inlined into one compilation. -/
  inliningBudget : UInt64 := 1000
  /-- The cap on rounds of the optimizer and of each canonicalization. -/
  canonicalizerIterations : UInt64 := 32
  /-- Deoptimizations after which a target stays interpreted. -/
  maxDeopts : UInt32 := 10
  /-- How deep guest calls may nest. -/
  maxCallDepth : UInt64 := 256
deriving DecidableEq

end TieredEngine
