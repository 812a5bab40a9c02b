import StaticEmbeddings.Lib.Interleaving
import Mathlib.Data.Fintype.Basic
import Mathlib.Tactic.Common

/-!
# Operations on an open model

Ruby threads and fibers that call `embed`, `embed_token_ids`, `warmup!` and `close` on one model, at
the granularity of the GVL: a task moves when a call into Ruby returns or raises, or when a section
without the GVL ends, and what it then does up to the next such point is one step.

* `Pc`: where a task can stand; `State`, `step`: the model, the tasks and the worker threads.
* `Protected`: a step that neither unmaps the file nor frees an input below a reader.
* `HandlerInterrupted`: an interrupt in `fiber_worker_ensure` while its worker runs.
* `Pc.entered`: past `get_model` and not counted yet; `ReadsClosed`: a call that reads the mapping
  behind a `close`.
* `Guarded`: what the counter guards, and what it does not.
-/

namespace StaticEmbeddings

open Interleaving

/-! ## Tasks -/

/-- The calls that are interleaved. -/
inductive Op
  | embed | embedTokenIds | warmup | close
  deriving DecidableEq, Repr

/-- The call into Ruby, or the section without the GVL, in which a task stands. Staged inputs are
numbered.

* `resolving`: `resolve_max_tokens`; `scheduling`: `current_fiber_is_blocking` and the checks in front
  of a section; `native`: `batch_execute` without the GVL; `checking`: `rb_thread_check_ints`.
* `creating`, `joining`: `fiber_worker_wait`; `killing`, `rejoining`: `fiber_worker_ensure`.
* `limiting`, `converting`: the conversions of `embed_token_ids`; `idsCalling`, `idsNative`,
  `idsReturned`: `rb_thread_call_without_gvl` there, before, in and behind its section;
  `idsChecking`: `rb_thread_check_ints`.
* `warmupCalling`, `warmupNative`, `warmupReturned`: the same of `warmup!`. -/
inductive Pc
  | idle
  | resolving
  | scheduling (job : ℕ)
  | native (job : ℕ)
  | checking (job : ℕ)
  | creating (job : ℕ)
  | joining (job : ℕ)
  | killing (job : ℕ)
  | rejoining (job : ℕ)
  | limiting
  | converting (job : ℕ)
  | idsCalling (job : ℕ)
  | idsNative (job : ℕ)
  | idsReturned (job : ℕ)
  | idsChecking (job : ℕ)
  | warmupCalling
  | warmupNative
  | warmupReturned
  deriving DecidableEq, Repr

/-- The thread of `fiber_thread_body`: created, inside `batch_execute`, or ended. -/
inductive Worker
  | waiting | reading | ended
  deriving DecidableEq, Repr

/-- How a task goes on: with the work under the GVL, in a section without it or on a worker thread;
with another round of `embed_texts_internal`; or it returns. -/
inductive Choice
  | inline | released | fiber | nextRound | done
  deriving DecidableEq, Repr

/-- A task calls a method, a call into Ruby returns to it or raises, its section without the GVL ends;
a worker thread enters `batch_execute`, or ends. -/
inductive Act (ι : Type)
  | enter (i : ι) (op : Op)
  | ret (i : ι) (choice : Choice)
  | raise (i : ι)
  | finish (i : ι)
  | workerStart (job : ℕ)
  | workerEnd (job : ℕ)
  deriving DecidableEq, Repr

/-- `model_wrapper_t`, the tasks, the inputs that are allocated, the worker of each, and how many
inputs there have been. -/
structure State (ι : Type) where
  isOpen : Bool
  activeOps : ℕ
  pc : ι → Pc
  staged : ℕ → Bool
  worker : ℕ → Option Worker
  jobs : ℕ

variable {ι : Type} [DecidableEq ι]

/-- A model that has been opened. -/
def State.opened : State ι :=
  { isOpen := true, activeOps := 0, pc := fun _ => .idle, staged := fun _ => false,
    worker := fun _ => none, jobs := 0 }

/-! ## Steps -/

namespace State

def goto (s : State ι) (i : ι) (p : Pc) : State ι := { s with pc := Function.update s.pc i p }

/-- `active_ops++`, on an `unsigned int`. -/
def incr (s : State ι) : State ι := { s with activeOps := (s.activeOps + 1) % 2 ^ 32 }

/-- `active_ops--`. -/
def decr (s : State ι) : State ι := { s with activeOps := (s.activeOps + (2 ^ 32 - 1)) % 2 ^ 32 }

/-- `build_input_indexed`, or the allocation of `run.ids`. -/
def stage (s : State ι) : State ι :=
  { s with staged := Function.update s.staged s.jobs true, jobs := s.jobs + 1 }

/-- `free_input`, or `se_free(run->ids)`. -/
def freeInput (s : State ι) (job : ℕ) : State ι :=
  { s with staged := Function.update s.staged job false }

def setWorker (s : State ι) (job : ℕ) (w : Worker) : State ι :=
  { s with worker := Function.update s.worker job (some w) }

/-- A round of `embed_texts_internal` up to `run_job`. -/
def protectedRunJob (s : State ι) (i : ι) : State ι :=
  (s.stage.incr).goto i (.scheduling s.jobs)

/-- `run_job_ensure`, `free_input`, and the end of the call. -/
def leaveJob (s : State ι) (i : ι) (job : ℕ) : State ι := ((s.decr).freeInput job).goto i .idle

/-- What follows when `run_job` returns. -/
def runJobReturned (s : State ι) (i : ι) (job : ℕ) : Choice → Option (State ι)
  | .nextRound => some (((s.decr).freeInput job).protectedRunJob i)
  | .done => some (s.leaveJob i job)
  | _ => none

/-- `model_close`. -/
def modelClose (s : State ι) : State ι :=
  if s.isOpen = true ∧ s.activeOps = 0 then { s with isOpen := false } else s

/-- A call, up to its first call into Ruby. -/
def enter (s : State ι) (i : ι) : Op → State ι
  | .close => s.modelClose
  | .embed => if s.isOpen then s.goto i .resolving else s
  | .embedTokenIds => if s.isOpen then s.goto i .limiting else s
  | .warmup => if s.isOpen then (s.incr).goto i .warmupCalling else s

/-- A call into Ruby returns. -/
def ret (s : State ι) (i : ι) (choice : Choice) : Option (State ι) :=
  match s.pc i, choice with
  -- `embed_one_value` embeds a short text in place, without `active_ops`
  | .resolving, .inline => some (s.goto i .idle)
  | .resolving, .done => some (s.goto i .idle)
  | .resolving, .nextRound => some (s.protectedRunJob i)
  | .scheduling job, .inline => some (s.goto i (.checking job))
  | .scheduling job, .released => some (s.goto i (.native job))
  | .scheduling job, .fiber => some (s.goto i (.creating job))
  | .checking job, choice => s.runJobReturned i job choice
  | .creating job, .done => some ((s.setWorker job .waiting).goto i (.joining job))
  | .joining job, choice =>
    if s.worker job = some .ended then s.runJobReturned i job choice else none
  | .killing job, .done => some (s.goto i (.rejoining job))
  -- the exception that led to the handler goes on
  | .rejoining job, .done => if s.worker job = some .ended then some (s.leaveJob i job) else none
  | .limiting, .done => some (s.stage.goto i (.converting s.jobs))
  | .converting job, .inline => some (s.goto i (.idsChecking job))
  | .converting job, .released => some ((s.incr).goto i (.idsCalling job))
  | .idsCalling job, .done => some (s.goto i (.idsNative job))
  | .idsReturned job, .done => some ((s.decr).goto i (.idsChecking job))
  | .idsChecking job, .done => some ((s.freeInput job).goto i .idle)
  | .warmupCalling, .done => some (s.goto i .warmupNative)
  | .warmupReturned, .done => some ((s.decr).goto i .idle)
  | _, _ => none

/-- A call into Ruby raises. -/
def raise (s : State ι) (i : ι) : Option (State ι) :=
  match s.pc i with
  | .resolving | .limiting => some (s.goto i .idle)
  | .scheduling job | .checking job | .creating job => some (s.leaveJob i job)
  | .joining job => some (s.goto i (.killing job))
  | .killing job | .rejoining job => some (s.leaveJob i job)
  -- `embed_token_ids_ensure`, with `run->active` or without
  | .idsCalling job | .idsReturned job => some (((s.decr).freeInput job).goto i .idle)
  | .converting job | .idsChecking job => some ((s.freeInput job).goto i .idle)
  | .warmupCalling | .warmupReturned => some ((s.decr).goto i .idle)
  | .idle | .native _ | .idsNative _ | .warmupNative => none

/-- A section without the GVL ends. -/
def finish (s : State ι) (i : ι) : Option (State ι) :=
  match s.pc i with
  | .native job => some (s.goto i (.checking job))
  | .idsNative job => some (s.goto i (.idsReturned job))
  | .warmupNative => some (s.goto i .warmupReturned)
  | _ => none

end State

/-- A step of a task or of a worker thread. -/
def step (s : State ι) : Act ι → Option (State ι)
  | .enter i op => if s.pc i = .idle then some (s.enter i op) else none
  | .ret i choice => s.ret i choice
  | .raise i => s.raise i
  | .finish i => s.finish i
  | .workerStart job => if s.worker job = some .waiting then some (s.setWorker job .reading) else none
  | .workerEnd job =>
    if s.worker job = some .waiting ∨ s.worker job = some .reading then
      some (s.setWorker job .ended)
    else none

/-! ## Readers -/

/-- Between `active_ops++` and the `active_ops--` that belongs to it. -/
def Pc.counted : Pc → Bool
  | .scheduling _ | .native _ | .checking _ | .creating _ | .joining _ | .killing _ | .rejoining _
  | .idsCalling _ | .idsNative _ | .idsReturned _
  | .warmupCalling | .warmupNative | .warmupReturned => true
  | .idle | .resolving | .limiting | .converting _ | .idsChecking _ => false

/-- The staged input of a task. -/
def Pc.input : Pc → Option ℕ
  | .scheduling job | .native job | .checking job | .creating job | .joining job | .killing job
  | .rejoining job | .converting job | .idsCalling job | .idsNative job | .idsReturned job
  | .idsChecking job => some job
  | .idle | .resolving | .limiting | .warmupCalling | .warmupNative | .warmupReturned => none

/-- A section without the GVL that reads the mapping. -/
def Pc.reads : Pc → Bool
  | .native _ | .idsNative _ | .warmupNative => true
  | _ => false

/-- A task whose worker thread may still run. -/
def Pc.watches : Pc → Bool
  | .joining _ | .killing _ | .rejoining _ => true
  | _ => false

/-- A worker thread that has been created and has not ended. -/
def State.Running (s : State ι) (job : ℕ) : Prop :=
  s.worker job = some .waiting ∨ s.worker job = some .reading

instance (s : State ι) (job : ℕ) : Decidable (s.Running job) :=
  inferInstanceAs (Decidable (_ ∨ _))

/-- A native section or a worker reads the mapping. -/
def State.ReadsMapping (s : State ι) : Prop :=
  (∃ i, (s.pc i).reads = true) ∨ ∃ job, s.Running job

/-- A native section or a worker reads an input. -/
def State.ReadsInput (s : State ι) (job : ℕ) : Prop :=
  (∃ i, (s.pc i).reads = true ∧ (s.pc i).input = some job) ∨ s.Running job

/-- A step that does not close the mapping and does not free an input while it is read. Who goes on
to read behind a `close` is the matter of `ReadsClosed`. -/
structure Protected (s s' : State ι) : Prop where
  mapping : s.isOpen = true → s'.isOpen = false → ¬ s.ReadsMapping
  input : ∀ job, s.staged job = true → s'.staged job = false → ¬ s.ReadsInput job

/-- The input whose worker `fiber_worker_ensure` waits for. -/
def Pc.handler : Pc → Option ℕ
  | .killing job | .rejoining job => some job
  | _ => none

/-- A call of `fiber_worker_ensure` raises while the worker thread runs. -/
def HandlerInterrupted (s : State ι) : Act ι → Prop
  | .raise i => ∃ job, job ∈ (s.pc i).handler ∧ s.Running job
  | _ => False

instance (s : State ι) (a : Act ι) : Decidable (HandlerInterrupted s a) :=
  match a with
  | .raise i => inferInstanceAs (Decidable (∃ job, job ∈ (s.pc i).handler ∧ s.Running job))
  | .enter .. | .ret .. | .finish .. | .workerStart .. | .workerEnd .. =>
    inferInstanceAs (Decidable False)

/-- How many tasks are between `active_ops++` and `active_ops--`. -/
def State.counted [Fintype ι] (s : State ι) : ℕ := countWhere Pc.counted s.pc

/-- A step with no such interrupt, and with fewer operations than an `unsigned int` can count. -/
def Undisturbed [Fintype ι] (s : State ι) (a : Act ι) (s' : State ι) : Prop :=
  ¬ HandlerInterrupted s a ∧ s'.counted < 2 ^ 32

instance [Fintype ι] (s : State ι) (a : Act ι) (s' : State ι) : Decidable (Undisturbed s a s') :=
  inferInstanceAs (Decidable (_ ∧ _))

/-! ## Readers behind a `close` -/

/-- Past `get_model` and in front of `active_ops++`, or of the work of a call that is never counted:
the call into Ruby (`to_int` of `max_tokens` or of an id) may run `close`. -/
def Pc.entered : Pc → Bool
  | .resolving | .limiting | .converting _ => true
  | .idle | .scheduling _ | .native _ | .checking _ | .creating _ | .joining _ | .killing _
  | .rejoining _ | .idsCalling _ | .idsNative _ | .idsReturned _ | .idsChecking _
  | .warmupCalling | .warmupNative | .warmupReturned => false

/-- What is done up to the next call into Ruby reads the mapping: `se_embed_one` of a short text,
`resolve_copy_len` of a round, `batch_execute` and `ids_execute` with the lock held. -/
def Pc.readsHeld : Pc → Choice → Bool
  | .resolving, .inline | .resolving, .nextRound | .scheduling _, .inline | .checking _, .nextRound
  | .joining _, .nextRound | .converting _, .inline => true
  | _, _ => false

/-- A step in which a task reads the mapping, or its worker thread does, or with which its section
ends that has. -/
def Reads (s : State ι) (i : ι) : Act ι → Prop
  | .ret k choice => k = i ∧ (s.pc i).readsHeld choice = true
  | .finish k => k = i
  | .workerStart job | .workerEnd job => (s.pc i).input = some job ∧ (s.pc i).watches = true
  | .enter .. | .raise _ => False

/-- The task may go on to read a mapping that is closed. -/
def ReadsClosed [Fintype ι] (s : State ι) (i : ι) : Prop :=
  ∃ t a t', ReachableBy step Undisturbed s t ∧ step t a = some t' ∧ Undisturbed t a t' ∧
    t.isOpen = false ∧ Reads t i a

/-- What `active_ops` is good for in a state.

* `counter`, `busy`: it is the number of calls between `active_ops++` and `active_ops--`.
* `covered`: a step closes and frees nothing that is read, if it is no interrupt of the handler.
* `uncovered`: behind a `close`, the mapping is read by the calls that are past `get_model` and not
  counted, and by no others. -/
structure Guarded [Fintype ι] (s : State ι) : Prop where
  counter : s.activeOps = s.counted
  busy : 0 < s.activeOps ↔ ∃ i, (s.pc i).counted = true
  covered : ∀ a s', step s a = some s' → (Protected s s' ↔ ¬ HandlerInterrupted s a)
  uncovered : ∀ a s', step s a = some s' → s.isOpen = true → s'.isOpen = false →
    ∀ i, ReadsClosed s' i ↔ (s.pc i).entered = true

end StaticEmbeddings
