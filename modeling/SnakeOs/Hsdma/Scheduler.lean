import SnakeOs.Arch.Memory
import SnakeOs.Lib.Runs

namespace SnakeOs.Hsdma
open Arch

/-- An entry of `hsdma_job_pool`. -/
abbrev Job := Fin 32

def hsdmaXferMaxQLen : Nat := 32
def maxHsdmaVec : Nat := 32
def llpDescrSize : Nat := 16

def responseOk : Int := 0
def responseErr : Int := -1

/-- `hsdma_vec_t`. -/
structure Vec where
  dataDirection : U8
  srcAddr : U32
  dstAddr : U32
  size : U32
deriving DecidableEq

/-- `hsdma_llp_descr_t` without its reserved bits. -/
structure LlpDescr where
  srcAddr : U32 := 0
  dstAddr : U32 := 0
  llp : U32 := 0
  totSize : BitVec 16 := 0
  tcMask : BitVec 1 := 0
  dataDirection : BitVec 1 := 0
deriving DecidableEq

/-- The check at the top of the descriptor loop. -/
def Vec.aligned (v : Vec) : Bool :=
  v.srcAddr &&& 0x3 = 0 ∧ v.dstAddr &&& 0x3 = 0 ∧ v.size &&& 0x3 = 0

def llpDescrOf (dma : U32) (nr i : Nat) (v : Vec) : LlpDescr where
  srcAddr := virtToPhys v.srcAddr
  dstAddr := virtToPhys v.dstAddr
  totSize := ((v.size >>> 2) &&& 0xFFF).setWidth 16
  dataDirection := v.dataDirection.setWidth 1
  llp := if i = nr - 1 then 0 else dma + BitVec.ofNat 32 ((i + 1) * llpDescrSize)
  tcMask := if i = nr - 1 then 0 else 1

/-- The table after the loop: `nr_vec` cleared entries, those before the first
unaligned element filled in. -/
def fillDescrs (dma : U32) (vec : List Vec) (old : Nat → LlpDescr) : Nat → LlpDescr :=
  fun i => match (vec.takeWhile Vec.aligned)[i]? with
    | some v => llpDescrOf dma vec.length i v
    | none => if i < vec.length then {} else old i

/-- The registers of the controller. -/
structure Regs where
  control : U32
  master0 : U32
  master1 : U32
  llp : U32
  totSize : U32

/-- Programming the first descriptor of a job. The two directions touch different
bits of the size register. -/
def program (r : Regs) (d : LlpDescr) : Regs :=
  let dir := if d.dataDirection = 0 then
      { r with master0 := d.srcAddr, master1 := d.dstAddr,
               totSize := r.totSize &&& ~~~((0x1 : U32) <<< 29) }
    else
      { r with master0 := d.dstAddr, master1 := d.srcAddr,
               totSize := r.totSize ||| ((0x1 : U32) <<< 20) }
  let size := dir.totSize ||| d.totSize.setWidth 32
  { dir with
    llp := d.llp
    totSize := if d.tcMask = 0 then size &&& ~~~((0x1 : U32) <<< 28)
      else size ||| ((0x1 : U32) <<< 28)
    control := dir.control ||| 0x1 }

structure JobData where
  xfer : Nat := 0
  llpDescr : Nat → LlpDescr := fun _ => {}
  doneStatus : Int := 0

/-- Where an `hsdma_copy` call stands: `refuse` is the error callback for an
unaligned vector, after which the job is freed in `release`. -/
inductive CopyPc
  | entry
  | alloc
  | reject
  | fill (j : Job)
  | refuse (j : Job)
  | release (j : Job)
  | enqueue (j : Job)
  | test
  | schedule
deriving DecidableEq

structure Copy where
  id : Nat
  vec : List Vec
  pc : CopyPc

/-- Where the worker thread stands; `xferLock` is the whole locked body of
`hsdma_process_xfer_job`, still to be entered. -/
inductive Worker
  | idle
  | xferLock
  | doneEntry
  | doneCall (j : Job) (t : Option Job)
  | doneFree (j : Job) (t : Option Job)
  | doneNext (t : Option Job)
deriving DecidableEq

/-- The driver's variables, its executing functions, the work items, the controller
with `outstanding` started jobs and `irq` raised interrupts, and the log of
`hsdma_end_io` calls. `oops` marks an access through a pointer to no job. -/
structure State where
  poolDma : U32
  jobs : Job → JobData
  jobQ : List Job
  xferQ : List Job
  doneQ : List Job
  running : Option Job
  xferQLen : Nat
  doneQLen : Nat
  busy : Bool
  regs : Regs
  outstanding : Nat
  irq : Nat
  xferPending : Bool
  donePending : Bool
  worker : Worker
  copies : List Copy
  submitted : Nat
  ended : List (Nat × Int)
  oops : Bool

/-- After `hsdma_init`. -/
def init (pool : U32) (r : Regs) : State where
  poolDma := pool
  jobs := fun _ => {}
  jobQ := List.finRange 32
  xferQ := []
  doneQ := []
  running := none
  xferQLen := 0
  doneQLen := 0
  busy := false
  regs := { r with control := 0x0, totSize := 0x10000000 }
  outstanding := 0
  irq := 0
  xferPending := false
  donePending := false
  worker := .idle
  copies := []
  submitted := 0
  ended := []
  oops := false

def llpDescrDma (s : State) (j : Job) : U32 :=
  s.poolDma + BitVec.ofNat 32 (j.val * (maxHsdmaVec * llpDescrSize))

/-- One step of the `hsdma_copy` call `c`, with the other calls in `rest`. -/
def stepCopy (s : State) (c : Copy) (rest : List Copy) : State :=
  match c.pc with
  | .entry =>
    if s.xferQLen > hsdmaXferMaxQLen then
      { s with copies := { c with pc := .reject } :: rest }
    else { s with copies := { c with pc := .alloc } :: rest }
  | .alloc =>
    match s.jobQ with
    | [] => { s with copies := { c with pc := .reject } :: rest }
    | j :: q => { s with jobQ := q, copies := { c with pc := .fill j } :: rest }
  | .reject => { s with ended := s.ended ++ [(c.id, responseErr)], copies := rest }
  | .fill j =>
    let descrs := fillDescrs (llpDescrDma s j) c.vec (s.jobs j).llpDescr
    if c.vec.all Vec.aligned then
      { s with jobs := Function.update s.jobs j ⟨c.id, descrs, 0⟩,
               copies := { c with pc := .enqueue j } :: rest }
    else
      { s with jobs := Function.update s.jobs j { s.jobs j with llpDescr := descrs },
               copies := { c with pc := .refuse j } :: rest }
  | .refuse j =>
    { s with ended := s.ended ++ [(c.id, responseErr)],
             copies := { c with pc := .release j } :: rest }
  | .release j => { s with jobQ := j :: s.jobQ, copies := rest }
  | .enqueue j =>
    { s with xferQ := s.xferQ ++ [j], xferQLen := s.xferQLen + 1,
             copies := { c with pc := .test } :: rest }
  | .test =>
    if s.busy then { s with copies := rest }
    else { s with copies := { c with pc := .schedule } :: rest }
  | .schedule => { s with xferPending := true, copies := rest }

/-- The locked body of `hsdma_process_xfer_job`. The entry taken off an empty queue
is the queue head itself. -/
def hsdmaProcessXferJob (s : State) : State :=
  match s.xferQ with
  | [] => { s with oops := true }
  | j :: q =>
    { s with worker := .idle, xferQ := q, running := some j, xferQLen := s.xferQLen - 1,
             busy := true, regs := program s.regs ((s.jobs j).llpDescr 0),
             outstanding := s.outstanding + 1 }

/-- The entry after `b` in a list, `none` for the list head. -/
def nextOf (b : Job) : List Job → Option Job
  | [] => none
  | a :: q => if a = b then q.head? else nextOf b q

/-- One round of the walk over `hsdma_done_q` at `pos`, up to the unlock. -/
def takeDone (s : State) (pos : Option Job) : State :=
  match pos with
  | none => { s with worker := .idle }
  | some j => { s with worker := .doneCall j (nextOf j s.doneQ), doneQ := s.doneQ.erase j,
                       doneQLen := s.doneQLen - 1 }

def stepWorker (s : State) : Option State :=
  match s.worker with
  | .idle => none
  | .xferLock => some (hsdmaProcessXferJob s)
  | .doneEntry => some (takeDone s s.doneQ.head?)
  | .doneCall j t =>
    some { s with ended := s.ended ++ [((s.jobs j).xfer, (s.jobs j).doneStatus)],
                  worker := .doneFree j t }
  | .doneFree j t => some { s with jobQ := j :: s.jobQ, worker := .doneNext t }
  | .doneNext t => some (takeDone s t)

/-- `hsdma_isr`, with the raised interrupt acknowledged. -/
def hsdmaIsr (s : State) : State :=
  match s.running with
  | none => { s with oops := true }
  | some j =>
    let status := if s.regs.control &&& ((0x1 : U32) <<< 12) = 0 then responseOk else responseErr
    { s with running := none
             irq := s.irq - 1
             doneQ := s.doneQ ++ [j]
             doneQLen := s.doneQLen + 1
             jobs := Function.update s.jobs j { s.jobs j with doneStatus := status }
             regs := { s.regs with control := s.regs.control &&& ~~~(0x1 : U32) }
             busy := false
             donePending := true
             xferPending := s.xferPending || s.xferQLen != 0 }

/-- What can happen next; `complete` is the controller finishing a started job, with
its error bit. -/
inductive Act
  | call (vec : List Vec)
  | copy (k : Nat)
  | startXfer
  | startDone
  | work
  | complete (err : Bool)
  | isr

/-- One step of the system; nothing happens any more after an `oops`. -/
def step (s : State) (a : Act) : Option State :=
  if s.oops then none else
  match a with
  | .call vec =>
    if vec.length ≤ maxHsdmaVec then
      some { s with copies := ⟨s.submitted, vec, .entry⟩ :: s.copies, submitted := s.submitted + 1 }
    else none
  | .copy k => (s.copies[k]?).map fun c => stepCopy s c (s.copies.eraseIdx k)
  | .startXfer =>
    if s.worker = .idle ∧ s.xferPending then
      some { s with xferPending := false, worker := .xferLock }
    else none
  | .startDone =>
    if s.worker = .idle ∧ s.donePending then
      some { s with donePending := false, worker := .doneEntry }
    else none
  | .work => stepWorker s
  | .complete err =>
    if s.outstanding = 0 then none else
      let control := s.regs.control &&& ~~~((0x1 : U32) <<< 12)
      some { s with
        outstanding := s.outstanding - 1
        irq := s.irq + 1
        regs := { s.regs with control := if err then control ||| ((0x1 : U32) <<< 12) else control } }
  | .isr => if s.irq = 0 then none else some (hsdmaIsr s)

/-- The states the driver can be in. -/
def Reachable (s : State) : Prop := ∃ pool r, Lib.Reach step Lib.anyStep (init pool r) s

end SnakeOs.Hsdma
