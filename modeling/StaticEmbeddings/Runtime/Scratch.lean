import StaticEmbeddings.Lib.Ownership
import StaticEmbeddings.Sizes

/-!
# Scratch buffers

The scratch part of `se_tokenizer.c` on one thread. What the allocator does is a list of choices: a
new address, or `none` for a failure.

* `seMalloc`, `seRealloc`, `seFree`.
* `growBuffer`, `grow`, `seScratchReserve`: growing; `shrink`, `seScratchTrim`: shrinking.
* `seScratchAcquire`, `seScratchRelease`.
* `Action`, `run`: a thread that acquires, grows and releases.
-/

namespace StaticEmbeddings

open Ownership

/-- The buffers of `se_scratch_t`. -/
inductive BufferName
  | cps | cps2 | bytes | ids | acc
  deriving DecidableEq, Repr

/-- The size of an element. -/
def BufferName.elemSize : BufferName → ℕ
  | bytes => 1
  | _ => 4

/-- A pointer and the capacity beside it. -/
structure Buffer where
  ptr : Option ℕ
  cap : ℕ
  deriving DecidableEq, Repr

/-- `se_scratch_t`. -/
abbrev Scratch := BufferName → Buffer

/-- `se_scratch_init`. -/
def emptyScratch : Scratch := fun _ => ⟨none, 0⟩

/-- What a thread sees: the heap, the allocator's next choices, the scratch at each address, and the
thread-local slot with its flag. -/
structure ThreadState where
  blocks : Blocks
  choices : List (Option ℕ)
  scratches : ℕ → Scratch
  tls : Option ℕ
  inUse : Bool

/-- `sizeof(se_scratch_t)`. -/
abbrev scratchSize : ℕ := 80

/-- `sizeof(se_tls_scratch_t)`. -/
abbrev tlsScratchSize : ℕ := 88

/-! ## The allocator -/

/-- The heap without the block behind a pointer. -/
def freed (blocks : Blocks) : Option ℕ → Blocks
  | none => blocks
  | some p => Function.update blocks p none

/-- `se_realloc`: the allocator chooses an address that is not in use; a failure changes nothing. -/
def seRealloc (ptr : Option ℕ) (bytes : ℕ) (s : ThreadState) : Option ℕ × ThreadState :=
  match s.choices with
  | [] => (none, s)
  | none :: rest => (none, { s with choices := rest })
  | some q :: rest =>
    if freed s.blocks ptr q = none then
      (some q, { s with
        blocks := Function.update (freed s.blocks ptr) q (some bytes), choices := rest })
    else (none, { s with choices := rest })

/-- `se_malloc`. -/
def seMalloc (bytes : ℕ) (s : ThreadState) : Option ℕ × ThreadState := seRealloc none bytes s

/-- `se_free`. -/
def seFree (ptr : Option ℕ) (s : ThreadState) : ThreadState :=
  { s with blocks := freed s.blocks ptr }

/-! ## Growing and shrinking -/

/-- Writes the pointer and the capacity of a buffer. -/
def ThreadState.setBuffer (s : ThreadState) (a : ℕ) (f : BufferName) (b : Buffer) : ThreadState :=
  { s with scratches := Function.update s.scratches a (Function.update (s.scratches a) f b) }

/-- `grow_buffer`: the pointer it returns, and the capacity it leaves behind. -/
def growBuffer (buf : Option ℕ) (cap need elemSize minCapacity : ℕ) (s : ThreadState) :
    Option ℕ × ℕ × ThreadState :=
  if cap ≥ need then (buf, cap, s)
  else
    match (seNextCapacity cap need minCapacity).bind fun next =>
      (seArrayBytes next elemSize).map fun bytes => (next, bytes) with
    | none => (none, cap, s)
    | some (next, bytes) =>
      match seRealloc buf bytes s with
      | (none, s) => (none, cap, s)
      | (some p, s) => (some p, next, s)

/-- The common part of `grow_u32`, `grow_bytes` and `grow_float`. -/
def grow (minCapacity a : ℕ) (f : BufferName) (need : ℕ) (s : ThreadState) : Bool × ThreadState :=
  let b := s.scratches a f
  match growBuffer b.ptr b.cap need f.elemSize minCapacity s with
  | (none, cap, s) => (false, s.setBuffer a f ⟨b.ptr, cap⟩)
  | (some p, cap, s) => (true, s.setBuffer a f ⟨some p, cap⟩)

/-- `grow_u32`. -/
def growU32 (a : ℕ) (f : BufferName) (need : ℕ) : ThreadState → Bool × ThreadState :=
  grow 256 a f need

/-- `grow_bytes`. -/
def growBytes (a need : ℕ) : ThreadState → Bool × ThreadState := grow 256 a .bytes need

/-- `grow_float`. -/
def growFloat (a need : ℕ) : ThreadState → Bool × ThreadState := grow need a .acc need

/-- The growth of each buffer. -/
def growNamed (a : ℕ) (f : BufferName) (need : ℕ) : ThreadState → Bool × ThreadState :=
  match f with
  | .bytes => growBytes a need
  | .acc => growFloat a need
  | f => growU32 a f need

/-- `SE_SCRATCH_CPS_KEEP`. -/
abbrev cpsKeep : ℕ := 256

/-- `SE_SCRATCH_IDS_RESERVE`. -/
abbrev idsReserve : ℕ := 512

/-- `SE_SCRATCH_IDS_RETAIN_MAX`. -/
abbrev idsRetainMax : ℕ := 8192

/-- `SE_SCRATCH_BYTES_KEEP`. -/
abbrev bytesKeep : ℕ := 1024

/-- The growths of a list, up to the first that fails. -/
def growAll (a : ℕ) : List (BufferName × ℕ) → ThreadState → Bool × ThreadState
  | [], s => (true, s)
  | (f, need) :: rest, s =>
    match growNamed a f need s with
    | (false, s) => (false, s)
    | (true, s) => growAll a rest s

/-- The lines of `se_scratch_reserve`. -/
def reservation (dim : ℕ) : List (BufferName × ℕ) :=
  [(.cps, cpsKeep), (.cps2, cpsKeep), (.ids, idsReserve), (.bytes, bytesKeep), (.acc, dim)]

/-- `se_scratch_reserve`. -/
def seScratchReserve (a dim : ℕ) : ThreadState → Bool × ThreadState := growAll a (reservation dim)

/-- `shrink_u32` and `shrink_bytes`. -/
def shrink (a : ℕ) (f : BufferName) (keep : ℕ) (s : ThreadState) : Bool × ThreadState :=
  let b := s.scratches a f
  if b.cap ≤ keep then (true, s)
  else
    match b.ptr with
    | none => (true, s.setBuffer a f ⟨none, 0⟩)
    | some p =>
      match seArrayBytes keep f.elemSize with
      | none => (false, s)
      | some bytes =>
        match seRealloc (some p) bytes s with
        | (none, s) => (false, s)
        | (some q, s) => (true, s.setBuffer a f ⟨some q, keep⟩)

/-- `se_scratch_trim`. The function is `void`; the flag tells whether every call returned `1`. -/
def seScratchTrim (a : ℕ) (s : ThreadState) : Bool × ThreadState :=
  let (ok₁, s) := shrink a .cps cpsKeep s
  let (ok₂, s) := shrink a .cps2 cpsKeep s
  let (ok₃, s) := if (s.scratches a .ids).cap > idsRetainMax then shrink a .ids idsRetainMax s
    else (true, s)
  let (ok₄, s) := shrink a .bytes bytesKeep s
  (ok₁ && ok₂ && ok₃ && ok₄, s)

/-- `se_scratch_free`. -/
def seScratchFree (a : ℕ) (s : ThreadState) : ThreadState :=
  [BufferName.cps, .cps2, .bytes, .ids, .acc].foldl
    (fun s f => (seFree (s.scratches a f).ptr s).setBuffer a f ⟨none, 0⟩) s

/-! ## Acquiring and releasing -/

/-- `pthread_setspecific`, which may fail. -/
def setSpecific (a : ℕ) (s : ThreadState) : Bool × ThreadState :=
  match s.choices with
  | some _ :: rest => (true, { s with tls := some a, choices := rest })
  | none :: rest => (false, { s with choices := rest })
  | [] => (false, s)

/-- `se_scratch_tls_slot`. -/
def seScratchTlsSlot (s : ThreadState) : Option ℕ × ThreadState :=
  match s.tls with
  | some a => (some a, s)
  | none =>
    match seMalloc tlsScratchSize s with
    | (none, s) => (none, s)
    | (some a, s) =>
      let s := { s with scratches := Function.update s.scratches a emptyScratch, inUse := false }
      match setSpecific a s with
      | (true, s) => (some a, s)
      | (false, s) => (none, seFree (some a) s)

/-- `se_scratch_acquire`. -/
def seScratchAcquire (dim : ℕ) (s : ThreadState) : Option ℕ × ThreadState :=
  match seScratchTlsSlot s with
  | (none, s) => (none, s)
  | (some a, s) =>
    if ¬ s.inUse then
      match seScratchReserve a dim s with
      | (false, s) => (none, s)
      | (true, s) => (some a, { s with inUse := true })
    else
      match seMalloc scratchSize s with
      | (none, s) => (none, s)
      | (some heap, s) =>
        let s := { s with scratches := Function.update s.scratches heap emptyScratch }
        match seScratchReserve heap dim s with
        | (false, s) => (none, seFree (some heap) (seScratchFree heap s))
        | (true, s) => (some heap, s)

/-- `se_scratch_release`, with the flag of the trim. -/
def seScratchRelease (a : ℕ) (s : ThreadState) : Bool × ThreadState :=
  if s.tls = some a then seScratchTrim a { s with inUse := false }
  else (true, seFree (some a) (seScratchFree a s))

/-! ## Runs -/

/-- What a thread does with scratches. -/
inductive Action
  | acquire (dim : ℕ)
  | grow (a : ℕ) (f : BufferName) (need : ℕ)
  | reserve (a dim : ℕ)
  | release (a : ℕ)
  deriving DecidableEq, Repr

/-- The state of the thread and its outstanding acquisitions. -/
structure Outstanding where
  state : ThreadState
  held : List ℕ

/-- One call; only what is held is grown or released. -/
def Outstanding.step (o : Outstanding) : Action → Option Outstanding
  | .acquire dim =>
    match seScratchAcquire dim o.state with
    | (none, s) => some { o with state := s }
    | (some a, s) => some ⟨s, a :: o.held⟩
  | .grow a f need =>
    if a ∈ o.held then some { o with state := (growNamed a f need o.state).2 } else none
  | .reserve a dim =>
    if a ∈ o.held then some { o with state := (seScratchReserve a dim o.state).2 } else none
  | .release a =>
    if a ∈ o.held then some ⟨(seScratchRelease a o.state).2, o.held.erase a⟩ else none

/-- A sequence of calls. -/
def Outstanding.run (o : Outstanding) (actions : List Action) : Option Outstanding :=
  actions.foldlM Outstanding.step o

/-- A thread without a slot, on a heap that has other blocks. -/
def Outstanding.start (blocks : Blocks) (choices : List (Option ℕ)) (scratches : ℕ → Scratch)
    (inUse : Bool) : Outstanding :=
  ⟨⟨blocks, choices, scratches, none, inUse⟩, []⟩

end StaticEmbeddings
