import BoundaryTag.Layout

/-!
# Refusals

The errors that callers are expected to handle: a request that is refused, and an arena or a heap
that cannot be made from the given parameters.
-/

namespace BoundaryTag

/-- Why a request was refused. -/
inductive AllocError where
  /-- The arena could not grow far enough, or no block size is large enough. -/
  | arenaExhausted
  /-- The request is for no bytes, or for more alignment than the heap gives. -/
  | invalidRequest
  deriving DecidableEq

/-- The text of a refusal. -/
def AllocError.message : AllocError → String
  | arenaExhausted => "arena exhausted"
  | invalidRequest => "invalid allocation request"

/-- The constructor errors of arenas and heaps. -/
inductive InitError where
  /-- Memory for the layout could not be provided. -/
  | allocFailed (layout : Layout)
  /-- The parameters are impossible to satisfy. -/
  | invalidConfig
  /-- The memory would reach past the end of the address space. -/
  | invalidLocation
  /-- The arena cannot hold even the sentinels. -/
  | arenaExhausted
  deriving DecidableEq

/-- The text of a constructor error. -/
def InitError.message : InitError → String
  | allocFailed layout => "failed to allocate " ++ layout.describe
  | invalidConfig => "invalid allocator configuration"
  | invalidLocation => "managed region would overflow the address space"
  | arenaExhausted => "arena too small for heap sentinels"

end BoundaryTag
