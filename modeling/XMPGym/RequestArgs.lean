import XMPGym.GatherScatter
import XMPGym.Lib.Ownership

/-!
# Request arguments on the heap

The allocators of request arguments and the functions that free them, by the blocks of the heap that
they ask for and give back; `malloc` always has one.  What is in a block, how large it is and where
in it an access falls are left out, with the fields that are no pointers of a request's own and what
zlib and protobuf allocate and free themselves.
-/

open Ownership

namespace XMPGym.HeapUse

/-- The pointers in the arguments of a request; `input j` is `inputs[j]` on the core. -/
inductive Field
  | srcPayload
  | dstPayload
  | auxPayload
  | desc
  | aecs
  | preProcInput
  | preProcOutput
  | axFuncOutput
  | postProcOutput
  | input (j : ℕ)
  deriving DecidableEq

/-- The global pointers. -/
inductive Global
  | itemBuf
  | userFillerBuf
  | globIndirArr
  | globDstBuf
  deriving DecidableEq

/-- The values of the global pointers; `none` is `NULL`. -/
abbrev Globals := Global → Option ℕ

/-- Where the arguments of a request are, and those of its pointers that have been set. -/
structure Args where
  block : ℕ
  field : Field → Option ℕ

/-- The table of the arguments. -/
structure Table where
  block : ℕ
  args : List Args

/-- No pointer has been set. -/
def unset : Field → Option ℕ := fun _ => none

/-! ## Allocation -/

/-- A block whose address goes to a field or, with `none`, is dropped. -/
def mallocField (field : Field → Option ℕ) (dst : Option Field) :
    Prog Globals (Field → Option ℕ) := do
  let b ← malloc
  pure (match dst with
    | none => field
    | some f => Function.update field f (some b))

/-- One round of the loop of an allocator: the arguments, then what they point to. -/
def mallocArgs (shared : Field → Option ℕ) (mallocs : List (Option Field)) :
    Prog Globals Args := do
  let block ← malloc
  let field ← mallocs.foldlM mallocField shared
  pure ⟨block, field⟩

/-- An allocator: the table, what the requests share, and a round for each of them. -/
def allocArgs (setUp : Prog Globals (Field → Option ℕ)) (mallocs : List (Option Field))
    (totalRequests : ℕ) : Prog Globals Table := do
  let block ← malloc
  let shared ← setUp
  let args ← collect (mallocArgs shared mallocs) totalRequests
  pure ⟨block, args⟩

/-- A global pointer is set. -/
def setGlobal (g : Global) (p : Option ℕ) : Prog Globals Unit :=
  setGlobals fun s => Function.update s g p

/-! ## Freeing -/

/-- The pointer `args->f`; to read one that has not been set is undefined. -/
def loadField (a : Args) (f : Field) : Prog Globals ℕ := do
  access a.block
  match a.field f with
  | none => fault
  | some b => pure b

/-- One round of the loop of a free function, which reads the table for each request. -/
def freeRequest (freed : List Field) (T : Table) (a : Args) : Prog Globals Unit := do
  access T.block
  freed.forM fun f => do
    let b ← loadField a f
    free b
  free a.block

/-- The loop of a free function. -/
def freeRequests (freed : List Field) (T : Table) : Prog Globals Unit :=
  T.args.forM (freeRequest freed T)

/-- A free function that ends with the table. -/
def freeArgs (freed : List Field) (T : Table) : Prog Globals Unit := do
  freeRequests freed T
  free T.block

/-- `free(g)` of a global pointer: nothing happens for `NULL`. -/
def freeGlobal (g : Global) : Prog Globals Unit := do
  let s ← globals
  match s g with
  | none => pure ()
  | some b => free b

/-! ## `decompress_and_hash_request.cpp` -/

def compressedMcReqAllocator : ℕ → Prog Globals Table :=
  allocArgs (pure unset) [some (.input 0), some (.input 1), some (.input 2)]

def compressedMcReqFree : Table → Prog Globals Unit := freeArgs [.input 0, .input 1]

def allocDecompAndHashOffloadArgs : ℕ → Prog Globals Table :=
  allocArgs (pure unset) [some .srcPayload, some .dstPayload, some .desc]

def allocDecompAndHashOffloadArgsStamped : ℕ → Prog Globals Table :=
  allocArgs (pure unset) [some .srcPayload, some .dstPayload, some .desc]

def freeDecompAndHashOffloadArgs : Table → Prog Globals Unit :=
  freeArgs [.srcPayload, .dstPayload, .desc]

def freeDecompAndHashOffloadArgsStamped : Table → Prog Globals Unit :=
  freeArgs [.srcPayload, .dstPayload, .desc]

/-! ## `three_phase.cpp` -/

/-- `create_random_chain` and `create_random_chain_starting_at` drop `indices`. -/
def allocOffloadSerializedAccessArgs : ℕ → Prog Globals Table :=
  allocArgs (pure unset)
    [some .srcPayload, none, some .dstPayload, some .auxPayload, none, some .desc]

def allocOffloadLinearAccessArgs : ℕ → Prog Globals Table :=
  allocArgs (pure unset) [some .srcPayload, some .dstPayload, some .desc]

def freeOffloadSerializedAccessArgs : Table → Prog Globals Unit :=
  freeArgs [.srcPayload, .dstPayload]

def freeOffloadLinearAccessArgs : Table → Prog Globals Unit := freeArgs [.srcPayload, .dstPayload]

/-! ## `memcpy_dp_request.cpp`, with the `input_gen_dp` of `mlp.cpp` -/

/-- `input_populate((char **)&item_buf)` -/
def populateItemBuf : Prog Globals Unit := do
  let b ← malloc
  setGlobal .itemBuf (some b)

def allocCpuMemcpyAndComputeArgs (totalRequests : ℕ) : Prog Globals Table := do
  populateItemBuf
  allocArgs (pure unset) [some (.input 0), some (.input 1), some (.input 2)] totalRequests

def freeCpuMemcpyAndComputeArgs (T : Table) : Prog Globals Unit := do
  freeArgs [.input 0, .input 1, .input 2] T
  freeGlobal .itemBuf

/-- The `alloc_offload_memcpy_and_compute_args` with stamps. -/
def allocOffloadMemcpyAndComputeArgsTimed : ℕ → Prog Globals Table :=
  allocArgs (do populateItemBuf; pure unset) [some .srcPayload, some .dstPayload, some .desc]

/-- The `free_offload_memcpy_and_compute_args` with stamps. -/
def freeOffloadMemcpyAndComputeArgsTimed (T : Table) : Prog Globals Unit := do
  freeArgs [.srcPayload, .dstPayload] T
  freeGlobal .itemBuf

/-- The `alloc_offload_memcpy_and_compute_args` without stamps, which leaves `item_buf` as it is. -/
def allocOffloadMemcpyAndComputeArgs : ℕ → Prog Globals Table :=
  allocArgs (pure unset) [some .srcPayload, some .dstPayload, some .desc]

/-- The `free_offload_memcpy_and_compute_args` without stamps. -/
def freeOffloadMemcpyAndComputeArgs : Table → Prog Globals Unit :=
  freeArgs [.srcPayload, .dstPayload]

/-! ## `decompress_and_scatter_request.cpp` -/

/-- `indirect_array_gen(&glob_indir_arr)`, whose loop divides by the number of entries. -/
def indirectArrayGen (inputSize numAccesses : ℕ) : Prog Globals ℕ := do
  let b ← malloc
  if numAccesses ≠ 0 ∧ numFeatureEnt inputSize = 0 then fault
  setGlobal .globIndirArr (some b)
  pure b

section scatter

variable (inputSize numAccesses : ℕ)

/-- `if (glob_indir_arr == NULL) indirect_array_gen(&glob_indir_arr);` and its value. -/
def genGlobIndirArr : Prog Globals (Option ℕ) := do
  let s ← globals
  match s .globIndirArr with
  | some b => pure (some b)
  | none => do
    let b ← indirectArrayGen inputSize numAccesses
    pure (some b)

/-- The field that every request points to `glob_indir_arr` with. -/
def shareGlobIndirArr (f : Field) : Prog Globals (Field → Option ℕ) := do
  let p ← genGlobIndirArr inputSize numAccesses
  pure (Function.update unset f p)

def allocOffloadDecompAndScatterArgs : ℕ → Prog Globals Table :=
  allocArgs (shareGlobIndirArr inputSize numAccesses .auxPayload)
    [some .srcPayload, some .dstPayload, some .desc]

def allocOffloadDecompAndScatterArgsTimed : ℕ → Prog Globals Table :=
  allocArgs (shareGlobIndirArr inputSize numAccesses .auxPayload)
    [some .srcPayload, some .dstPayload, some .desc]

def cpuCompressedPayloadAllocator : ℕ → Prog Globals Table :=
  allocArgs (shareGlobIndirArr inputSize numAccesses (.input 3))
    [some (.input 0), some (.input 1), some (.input 2)]

end scatter

/-- `free(glob_indir_arr); glob_indir_arr = NULL;` -/
def freeGlobIndirArr : Prog Globals Unit := do
  freeGlobal .globIndirArr
  setGlobal .globIndirArr none

def freeOffloadDecompAndScatterArgs (T : Table) : Prog Globals Unit := do
  freeArgs [.srcPayload, .dstPayload, .desc] T
  freeGlobIndirArr

def freeOffloadDecompAndScatterArgsTimed (T : Table) : Prog Globals Unit := do
  freeRequests [.srcPayload, .dstPayload, .desc] T
  freeGlobIndirArr
  free T.block

def freeCpuCompressedPayloads (T : Table) : Prog Globals Unit := do
  freeArgs [.input 0, .input 1, .input 2] T
  freeGlobIndirArr

/-! ## `three_phase_components.cpp` and `three_phase_composable.cpp` -/

/-- `valbuf` and `compbuf` are dropped. -/
def genCompressedSerializedPutRequest (dst : Field) : List (Option Field) := [none, none, some dst]

/-- `valbuf` is dropped. -/
def genCompressedRequest (dst : Field) : List (Option Field) := [none, some dst]

def genPlaintextRequest (dst : Field) : List (Option Field) := [some dst]

section generator

variable (inputGenerator : Field → List (Option Field))

def threeFuncAllocator : ℕ → Prog Globals Table :=
  allocArgs (pure unset) (inputGenerator .preProcInput ++
    [some .preProcOutput, some .axFuncOutput, some .postProcOutput, some .desc])

def nullTwoFuncAllocator : ℕ → Prog Globals Table :=
  allocArgs (pure unset) (inputGenerator .preProcOutput ++
    [some .preProcInput, some .axFuncOutput, some .postProcOutput, some .desc])

def axcoreAxcoreAllocator : ℕ → Prog Globals Table :=
  allocArgs (pure unset) (inputGenerator .preProcInput ++
    [some .preProcOutput, some .axFuncOutput, some .desc])

def axcoreAxcoreCompressAecsAllocator : ℕ → Prog Globals Table :=
  allocArgs (pure unset) (inputGenerator .preProcInput ++
    [some .preProcOutput, some .axFuncOutput, some .desc, some .aecs])

def memcpyCompGpcoreAxcoreNullAllocator : ℕ → Prog Globals Table :=
  allocArgs (pure unset) (inputGenerator .preProcInput ++
    [some .preProcOutput, some .axFuncOutput, some .postProcOutput, some .desc, some .aecs])

end generator

def freeThreePhaseStampedArgs : Table → Prog Globals Unit :=
  freeArgs [.preProcInput, .preProcOutput, .axFuncOutput, .postProcOutput, .desc]

def freeNullTwoPhase : Table → Prog Globals Unit :=
  freeArgs [.preProcInput, .preProcOutput, .axFuncOutput, .postProcOutput, .desc]

def freeAxcoreAxcore : Table → Prog Globals Unit :=
  freeArgs [.preProcInput, .preProcOutput, .axFuncOutput, .desc]

def freeAxcoreAxcoreCompressAecs : Table → Prog Globals Unit :=
  freeArgs [.preProcInput, .preProcOutput, .axFuncOutput, .desc, .aecs]

/-! ## What requests touch -/

/-- An access to the arguments of request `i`, to what a field of them points to, or to what a
global pointer points to, wherever it falls in the block. -/
inductive Access
  | args (i : ℕ)
  | field (i : ℕ) (f : Field)
  | global (g : Global)
  deriving DecidableEq

/-- Through `NULL`, past the table or through a pointer that has not been set an access is
undefined. -/
def Access.perform (T : Table) : Access → Prog Globals Unit
  | .args i => do
    access T.block
    match T.args[i]? with
    | none => fault
    | some a => access a.block
  | .field i f => do
    access T.block
    match T.args[i]? with
    | none => fault
    | some a => do
      let b ← loadField a f
      access b
  | .global g => do
    let s ← globals
    match s g with
    | none => fault
    | some b => access b

end XMPGym.HeapUse
