import Symex.Json

namespace Symex

/-- A span of time. -/
structure Duration where
  seconds : Nat
  nanoseconds : Nat := 0
deriving DecidableEq

namespace Duration

def ofMilliseconds (ms : Nat) : Duration := ⟨ms / 1000, ms % 1000 * 1000000⟩

/-- Whole milliseconds, rounded up, so that only no time at all is none. -/
def toMilliseconds (d : Duration) : Nat := d.seconds * 1000 + (d.nanoseconds + 999999) / 1000000

def hasOnly (names : List String) : Json → Bool
  | .object fields => fields.all fun (name, _) ↦ names.contains name
  | _ => true

/-- Nanoseconds beyond a second are carried over. There are no other fields. -/
def ofForm? (j : Json) : Option Duration := do
  guard (hasOnly ["secs", "nanos"] j)
  let j ← j.record? ["secs", "nanos"]
  let seconds ← (j.field "secs").word?
  let nanoseconds ← (j.field "nanos").half?
  let seconds := seconds + nanoseconds / 1000000000
  if seconds < pow2 64 then return ⟨seconds, nanoseconds % 1000000000⟩ else none

def toForm (d : Duration) : Json :=
  .object [("secs", .nat d.seconds), ("nanos", .nat d.nanoseconds)]

end Duration

structure Config where
  /-- The time that one question to the solver may take. -/
  solverTimeout : Option Duration := some ⟨10, 0⟩
  maxForks : Option Nat := none
  /-- The depth at which paths are given up; zero for no limit. -/
  maxDepth : Nat := 0
  /-- The memory that all states may hold. -/
  maxMemory : Option Nat := none
  /-- No forks while too much memory is held. -/
  maxMemoryInhibit : Bool := true
  inhibitForking : Bool := false
  /-- The number of objects that a pointer is resolved to; zero for no limit. -/
  maxResolutions : Nat := 0
  /-- Errors are reported each time, not once for each place and message. -/
  emitAllErrors : Bool := false
  simplifySymbolicIndices : Bool := false
  /-- The size from which on offsets into an object are made concrete; zero for never. -/
  maxSymbolicArraySize : Nat := 0
  allowExternalCalls : Bool := true
  allowSymbolicExternalArguments : Bool := false
  checkDivisionByZero : Bool := true
  forkOnSchedule : Bool := false
  /-- The number of times that a running thread may be replaced by force; zero for no limit. -/
  maxPreemptions : Nat := 0
  /-- Paths without a seed are given up. -/
  onlyReplaySeeds : Bool := false
  /-- The run ends with its seeds. -/
  onlySeed : Bool := false
  seedTime : Option Duration := none
  /-- Seeds that are too short go on with zeros. -/
  zeroSeedExtension : Bool := false
  /-- Seeds may be too short. -/
  allowSeedExtension : Bool := false
  mergeAtJoinPoints : Bool := false
  randomSeed : Nat := 1
  /-- The number of steps from one look at the memory to the next; zero for never. -/
  memoryCheckInterval : Nat := 0x10000
  /-- Larger allocations fail. -/
  maxAllocationSize : Nat := 10 * 1024 * 1024
deriving DecidableEq

namespace Config

/-- Sets the field called `name`. Spans of time are read by `duration?`. -/
def set? (duration? : Json → Option Duration) (c : Config) (name : String) (j : Json) :
    Option Config := do
  match name with
  | "solver_timeout" => return { c with solverTimeout := ← j.optional? duration? }
  | "max_forks" => return { c with maxForks := ← j.optional? Json.word? }
  | "max_depth" => return { c with maxDepth := ← j.half? }
  | "max_memory" => return { c with maxMemory := ← j.optional? Json.word? }
  | "max_memory_inhibit" => return { c with maxMemoryInhibit := ← j.bool? }
  | "inhibit_forking" => return { c with inhibitForking := ← j.bool? }
  | "max_resolutions" => return { c with maxResolutions := ← j.word? }
  | "emit_all_errors" => return { c with emitAllErrors := ← j.bool? }
  | "simplify_symbolic_indices" => return { c with simplifySymbolicIndices := ← j.bool? }
  | "max_symbolic_array_size" => return { c with maxSymbolicArraySize := ← j.word? }
  | "allow_external_calls" => return { c with allowExternalCalls := ← j.bool? }
  | "allow_symbolic_external_arguments" =>
    return { c with allowSymbolicExternalArguments := ← j.bool? }
  | "check_division_by_zero" => return { c with checkDivisionByZero := ← j.bool? }
  | "fork_on_schedule" => return { c with forkOnSchedule := ← j.bool? }
  | "max_preemptions" => return { c with maxPreemptions := ← j.half? }
  | "only_replay_seeds" => return { c with onlyReplaySeeds := ← j.bool? }
  | "only_seed" => return { c with onlySeed := ← j.bool? }
  | "seed_time" => return { c with seedTime := ← j.optional? duration? }
  | "zero_seed_extension" => return { c with zeroSeedExtension := ← j.bool? }
  | "allow_seed_extension" => return { c with allowSeedExtension := ← j.bool? }
  | "merge_at_join_points" => return { c with mergeAtJoinPoints := ← j.bool? }
  | "random_seed" => return { c with randomSeed := ← j.word? }
  | "memory_check_interval" => return { c with memoryCheckInterval := ← j.word? }
  | "max_allocation_size" => return { c with maxAllocationSize := ← j.word? }
  | _ => return c

def toForm (c : Config) : Json :=
  .object [("solver_timeout", .ofOption Duration.toForm c.solverTimeout),
    ("max_forks", .ofOption .nat c.maxForks), ("max_depth", .nat c.maxDepth),
    ("max_memory", .ofOption .nat c.maxMemory), ("max_memory_inhibit", .bool c.maxMemoryInhibit),
    ("inhibit_forking", .bool c.inhibitForking), ("max_resolutions", .nat c.maxResolutions),
    ("emit_all_errors", .bool c.emitAllErrors),
    ("simplify_symbolic_indices", .bool c.simplifySymbolicIndices),
    ("max_symbolic_array_size", .nat c.maxSymbolicArraySize),
    ("allow_external_calls", .bool c.allowExternalCalls),
    ("allow_symbolic_external_arguments", .bool c.allowSymbolicExternalArguments),
    ("check_division_by_zero", .bool c.checkDivisionByZero),
    ("fork_on_schedule", .bool c.forkOnSchedule), ("max_preemptions", .nat c.maxPreemptions),
    ("only_replay_seeds", .bool c.onlyReplaySeeds), ("only_seed", .bool c.onlySeed),
    ("seed_time", .ofOption Duration.toForm c.seedTime),
    ("zero_seed_extension", .bool c.zeroSeedExtension),
    ("allow_seed_extension", .bool c.allowSeedExtension),
    ("merge_at_join_points", .bool c.mergeAtJoinPoints), ("random_seed", .nat c.randomSeed),
    ("memory_check_interval", .nat c.memoryCheckInterval),
    ("max_allocation_size", .nat c.maxAllocationSize)]

def fieldNames : List String :=
  match toForm {} with
  | .object fields => fields.map (·.1)
  | _ => []

/-- Fields that are missing have their defaults, and unknown fields are ignored. -/
def ofForm? (j : Json) : Option Config := do
  match ← j.record? fieldNames 0 with
  | .object fields => fields.foldlM (fun c (name, value) ↦ c.set? Duration.ofForm? name value) {}
  | _ => none

end Config

end Symex
