import SnakeOs.Dma.Descriptors
import SnakeOs.Lib.Runs

namespace SnakeOs.Dma
open Arch

/-- An entry of `dma_job_pool`. -/
abbrev Job := Fin 32

/-- The channels 0 to `DMA_CHANNEL_MAX_ID`. -/
abbrev Channel := Fin 7

def dmaXferMaxQLen : Nat := 32
def dmaBusyMaxQLen : Nat := 7

def responseOk : Int := 0
def responseErr : Int := -1

/-- What a `dma_job_t` holds besides its list links. `xfer` is the number of the
`dma_copy` call it works for. -/
structure JobData where
  xfer : Nat := 0
  llpDescr : Nat → LlpDescr := fun _ => {}
  doneStatus : Int := 0

/-- Where a `dma_copy` call stands: `reject` is the call of `dma_end_io` with an
error, `fill` the loop over the vector, `enqueue` the first locked region, `test`
the unlocked look at `dma_busy`. -/
inductive CopyPc
  | entry
  | alloc
  | reject
  | fill (j : Job)
  | enqueue (j : Job)
  | test
  | schedule
deriving DecidableEq

/-- One executing call of `dma_copy`. -/
structure Copy where
  id : Nat
  vec : List Vec
  pc : CopyPc

/-- Where the worker thread stands. In the done walk `j` is the job taken off the
queue and `t` the entry saved by `list_for_each_safe`, `none` being the list head. -/
inductive Worker
  | idle
  | xferEntry
  | xferLock
  | doneEntry
  | doneCall (j : Job) (t : Option Job)
  | doneFree (j : Job) (t : Option Job)
  | doneNext (t : Option Job)
deriving DecidableEq

/-- The driver's variables, its executing functions, the work items, the controller,
and the log of `dma_end_io` calls. -/
structure State where
  poolDma : U32
  jobs : Job → JobData
  jobQ : List Job
  xferQ : List Job
  doneQ : List Job
  running : Channel → Option Job
  xferQLen : Nat
  doneQLen : Nat
  busyQLen : Nat
  busy : Bool
  regs : Channel → Regs
  active : Channel → Bool
  tcStatus : Channel → Bool
  errStatus : Channel → Bool
  xferPending : Bool
  donePending : Bool
  worker : Worker
  copies : List Copy
  submitted : Nat
  ended : List (Nat × Int)

/-- After `dma_init`, with the pool at `pool` and the registers found as `r`. -/
def init (pool : U32) (r : Channel → Regs) : State where
  poolDma := pool
  jobs := fun _ => {}
  jobQ := List.finRange 32
  xferQ := []
  doneQ := []
  running := fun _ => none
  xferQLen := 0
  doneQLen := 0
  busyQLen := 0
  busy := false
  regs := fun i => channelInit (disableChannel (r i))
  active := fun _ => false
  tcStatus := fun _ => false
  errStatus := fun _ => false
  xferPending := false
  donePending := false
  worker := .idle
  copies := []
  submitted := 0
  ended := []

/-- `llp_descr_dma` of a job. -/
def llpDescrDma (s : State) (j : Job) : U32 :=
  s.poolDma + BitVec.ofNat 32 (j.val * (maxDmaVec * llpDescrSize))

/-- Building the descriptors and setting the fields of the job. -/
def fillJob (s : State) (j : Job) (c : Copy) : JobData where
  xfer := c.id
  llpDescr := fillDescrs (llpDescrDma s j) c.vec (s.jobs j).llpDescr
  doneStatus := 0

/-- One step of the `dma_copy` call `c`, with the other calls in `rest`. -/
def stepCopy (s : State) (c : Copy) (rest : List Copy) : State :=
  match c.pc with
  | .entry =>
    if s.xferQLen > dmaXferMaxQLen then
      { s with copies := { c with pc := .reject } :: rest }
    else { s with copies := { c with pc := .alloc } :: rest }
  | .alloc =>
    match s.jobQ with
    | [] => { s with copies := { c with pc := .reject } :: rest }
    | j :: q => { s with jobQ := q, copies := { c with pc := .fill j } :: rest }
  | .reject => { s with ended := s.ended ++ [(c.id, responseErr)], copies := rest }
  | .fill j =>
    { s with jobs := Function.update s.jobs j (fillJob s j c),
             copies := { c with pc := .enqueue j } :: rest }
  | .enqueue j =>
    { s with xferQ := s.xferQ ++ [j], xferQLen := s.xferQLen + 1,
             copies := { c with pc := .test } :: rest }
  | .test =>
    if s.busy then { s with copies := rest }
    else { s with copies := { c with pc := .schedule } :: rest }
  | .schedule => { s with xferPending := true, copies := rest }

/-- The first channel with `dma_running_job[i] == NULL`. -/
def freeChannel (s : State) : Option Channel :=
  (List.finRange 7).find? fun i => (s.running i).isNone

/-- Moving job `j` from the queue to channel `i` and starting it. -/
def startJob (s : State) (j : Job) (i : Channel) : State :=
  { s with xferQ := s.xferQ.erase j
           running := Function.update s.running i (some j)
           xferQLen := s.xferQLen - 1
           busyQLen := s.busyQLen + 1
           regs := Function.update s.regs i (program (s.regs i) ((s.jobs j).llpDescr 0))
           active := Function.update s.active i true }

/-- The walk over `dma_xfer_q` under the lock. -/
def xferLoop : List Job → State → State
  | [], s => s
  | j :: rest, s =>
    let s' := match freeChannel s with
      | some i => startJob s j i
      | none => s
    if s'.busyQLen = dmaBusyMaxQLen then { s' with busy := true } else xferLoop rest s'

/-- The entry after `b` in a list, `none` for the list head. -/
def nextOf (b : Job) : List Job → Option Job
  | [] => none
  | a :: q => if a = b then q.head? else nextOf b q

/-- One round of the walk over `dma_done_q` at `pos`, up to the unlock. -/
def takeDone (s : State) (pos : Option Job) : State :=
  match pos with
  | none => { s with worker := .idle }
  | some j => { s with worker := .doneCall j (nextOf j s.doneQ), doneQ := s.doneQ.erase j,
                       doneQLen := s.doneQLen - 1 }

/-- One step of the worker thread inside a work function. -/
def stepWorker (s : State) : Option State :=
  match s.worker with
  | .idle => none
  | .xferEntry =>
    if s.busy then some { s with worker := .idle } else some { s with worker := .xferLock }
  | .xferLock => some { xferLoop s.xferQ s with worker := .idle }
  | .doneEntry => some (takeDone s s.doneQ.head?)
  | .doneCall j t =>
    some { s with ended := s.ended ++ [((s.jobs j).xfer, (s.jobs j).doneStatus)],
                  worker := .doneFree j t }
  | .doneFree j t => some { s with jobQ := j :: s.jobQ, worker := .doneNext t }
  | .doneNext t => some (takeDone s t)

/-- The body of both interrupt handlers for the channel `i` they serve. -/
def serve (s : State) (status : Int) (i : Channel) : State :=
  let s := { s with regs := Function.update s.regs i (disableChannel (s.regs i)),
                    active := Function.update s.active i false }
  match s.running i with
  | none => s
  | some j =>
    { s with running := Function.update s.running i none
             jobs := Function.update s.jobs j { s.jobs j with doneStatus := status }
             doneQ := s.doneQ ++ [j]
             doneQLen := s.doneQLen + 1
             busyQLen := s.busyQLen - 1
             busy := false
             donePending := true
             xferPending := s.xferPending || s.xferQLen != 0 }

/-- `dma_tc_isr`: serves the first channel whose terminal count is reported. -/
def dmaTcIsr (s : State) : State :=
  match (List.finRange 7).find? s.tcStatus with
  | none => s
  | some i =>
    { serve s responseOk i with tcStatus := Function.update s.tcStatus i false }

/-- `dma_err_isr`. -/
def dmaErrIsr (s : State) : State :=
  match (List.finRange 7).find? s.errStatus with
  | none => s
  | some i =>
    { serve s responseErr i with errStatus := Function.update s.errStatus i false }

/-- What can happen next: a new `dma_copy` call, a step of the `k`-th executing call,
the worker picking up a work item or going on, the controller finishing a started
job, and the interrupt handlers. -/
inductive Act
  | call (vec : List Vec)
  | copy (k : Nat)
  | startXfer
  | startDone
  | work
  | tcEvent (i : Channel)
  | errEvent (i : Channel)
  | tcIsr
  | errIsr

/-- One step of the system; `none` where the step is not possible. -/
def step (s : State) : Act → Option State
  | .call vec =>
    if 1 ≤ vec.length ∧ vec.length ≤ maxDmaVec then
      some { s with copies := ⟨s.submitted, vec, .entry⟩ :: s.copies, submitted := s.submitted + 1 }
    else none
  | .copy k => (s.copies[k]?).map fun c => stepCopy s c (s.copies.eraseIdx k)
  | .startXfer =>
    if s.worker = .idle ∧ s.xferPending then
      some { s with xferPending := false, worker := .xferEntry }
    else none
  | .startDone =>
    if s.worker = .idle ∧ s.donePending then
      some { s with donePending := false, worker := .doneEntry }
    else none
  | .work => stepWorker s
  | .tcEvent i =>
    if s.active i then
      some { s with active := Function.update s.active i false,
                    tcStatus := Function.update s.tcStatus i true }
    else none
  | .errEvent i =>
    if s.active i then
      some { s with active := Function.update s.active i false,
                    errStatus := Function.update s.errStatus i true }
    else none
  | .tcIsr => some (dmaTcIsr s)
  | .errIsr => some (dmaErrIsr s)

/-- The states the driver can be in. -/
def Reachable (s : State) : Prop := ∃ pool r, Lib.Reach step Lib.anyStep (init pool r) s

end SnakeOs.Dma
