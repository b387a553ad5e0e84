import SnakeOs.UBoot.Pool
import SnakeOs.Lib.Chain
import SnakeOs.Lib.Slots
import Mathlib.Data.List.Nodup

namespace SnakeOs.UBoot
open Lib

def Dev.txPkts (d : Dev) : List Nat := (List.range maxTfdNum).filterMap d.txRingPkt

def Dev.rxPkts (d : Dev) : List Nat := (List.range maxRfdNum).filterMap d.rxRingPkt

/-- Only the free list and the queue differ. -/
structure Relinked (d e : Dev) : Prop where
  txDesc : e.txDesc = d.txDesc := by rfl
  rxDesc : e.rxDesc = d.rxDesc := by rfl
  txRingPkt : e.txRingPkt = d.txRingPkt := by rfl
  rxRingPkt : e.rxRingPkt = d.rxRingPkt := by rfl
  curTx : e.curTx = d.curTx := by rfl
  curRx : e.curRx = d.curRx := by rfl
  rxsd : e.rxsd = d.rxsd := by rfl
  frame : e.frame = d.frame := by rfl
  sent : e.sent = d.sent := by rfl
  placed : e.placed = d.placed := by rfl

/-- The free list and the queue as the links say, with the packets that are in neither. -/
structure Lists (d : Dev) (free queue others : List Nat) : Prop where
  freeList : Chain d.next d.freePktList free
  txQueue : Chain d.next d.txPktQHead queue
  tail : d.txPktQTail = queue.getLast?
  count : d.txPktQCount = queue.length
  once : (free ++ (queue ++ others)).Perm (List.range numPktBuffer)

theorem Lists.nodup {d : Dev} {free queue others : List Nat} (h : Lists d free queue others) :
    (free ++ (queue ++ others)).Nodup := h.once.nodup_iff.mpr List.nodup_range

/-- The packets outside may change places, and the rest of the driver its state. -/
theorem Lists.regroup {d e : Dev} {free queue others others' : List Nat}
    (h : Lists d free queue others) (hn : e.next = d.next) (hf : e.freePktList = d.freePktList)
    (hh : e.txPktQHead = d.txPktQHead) (ht : e.txPktQTail = d.txPktQTail)
    (hc : e.txPktQCount = d.txPktQCount) (ho : others'.Perm others) :
    Lists e free queue others' where
  freeList := by rw [hn, hf]; exact h.freeList
  txQueue := by rw [hn, hh]; exact h.txQueue
  tail := ht.trans h.tail
  count := hc.trans h.count
  once := ((ho.append_left queue).append_left free).trans h.once

/-- A packet in hand is on neither list. -/
theorem Lists.held {d : Dev} {free queue others : List Nat} {p : Nat}
    (h : Lists d free queue (p :: others)) : p ∉ free ∧ p ∉ queue := by
  have hd := h.nodup
  rw [← List.append_assoc, List.nodup_append] at hd
  have hp : p ∉ free ++ queue := fun hm => hd.2.2 p hm p List.mem_cons_self rfl
  simpa only [List.mem_append, not_or] using hp

theorem allocPkt_none {d : Dev} (ha : (allocPkt d).2 = none) : (allocPkt d).1 = d := by
  unfold allocPkt at ha ⊢
  cases hf : d.freePktList with
  | none => rfl
  | some p => simp [hf] at ha

/-- What `star_nic_alloc_pkt` does when there is a packet. -/
theorem allocPkt_some {d : Dev} {free queue others : List Nat} {p : Nat}
    (h : Lists d free queue others) (ha : (allocPkt d).2 = some p) :
    ∃ free', free = p :: free' ∧ Lists (allocPkt d).1 free' queue (p :: others) ∧
      (allocPkt d).1.next p = none ∧ Relinked d (allocPkt d).1 := by
  unfold allocPkt at ha ⊢
  cases hf : d.freePktList with
  | none => simp [hf] at ha
  | some q =>
    simp only [hf, Option.some.injEq] at ha
    subst ha
    have hfree := h.freeList
    rw [hf] at hfree
    obtain ⟨free', rfl, hrest⟩ := chain_some.mp hfree
    have hd := h.nodup
    rw [List.cons_append, List.nodup_cons] at hd
    simp only [List.mem_append, not_or] at hd
    refine ⟨free', rfl, ⟨hrest.update hd.1.1 none, h.txQueue.update hd.1.2.1 none, h.tail, h.count, ?_⟩,
      Function.update_self .., {}⟩
    refine List.Perm.trans ?_ h.once
    rw [← List.append_assoc, ← List.append_assoc]
    exact List.perm_middle

theorem freePkt_lists {d : Dev} {free queue others : List Nat} {p : Nat}
    (h : Lists d free queue (p :: others)) : Lists (freePkt d p) (p :: free) queue others where
  freeList := h.freeList.push h.held.1
  txQueue := h.txQueue.update h.held.2 _
  tail := h.tail
  count := h.count
  once := by
    refine List.Perm.trans ?_ h.once
    rw [← List.append_assoc, ← List.append_assoc]
    exact List.perm_middle.symm

theorem txPktEnqueue_lists {d : Dev} {free queue others : List Nat} {p : Nat}
    (h : Lists d free queue (p :: others)) (hp : d.next p = none) :
    Lists (txPktEnqueue d p) free (queue ++ [p]) others := by
  have honce : (free ++ (queue ++ [p] ++ others)).Perm (List.range numPktBuffer) := by
    rw [List.append_assoc]
    exact h.once
  have hcount : d.txPktQCount + 1 = (queue ++ [p]).length := by
    rw [List.length_append, List.length_singleton, h.count]
  cases queue with
  | nil =>
    have htail : d.txPktQTail = none := h.tail
    have hhead : d.txPktQHead = none := by
      cases hq : d.txPktQHead with
      | none => rfl
      | some q =>
        have hc := h.txQueue
        rw [hq] at hc
        cases hc
    refine ⟨?_, ?_, List.getLast?_concat.symm, ?_, honce⟩
    · simp only [txPktEnqueue, htail]
      exact h.freeList
    · simp only [txPktEnqueue, htail, hhead]
      refine .cons p [] ?_
      rw [hp]
      exact .nil
    · simp only [txPktEnqueue, htail]
      exact hcount
  | cons q queue =>
    have htail : d.txPktQTail = some ((q :: queue).getLast (List.cons_ne_nil q queue)) := by
      rw [h.tail, List.getLast?_eq_getLast_of_ne_nil]
    have hd := h.nodup
    rw [List.nodup_append] at hd
    obtain ⟨_, hqd, hdis⟩ := hd
    have hlast : (q :: queue).getLast (List.cons_ne_nil q queue) ∉ free := fun hm =>
      hdis _ hm _ (List.mem_append_left _ (List.getLast_mem _)) rfl
    obtain ⟨_, hhead⟩ : ∃ r, d.txPktQHead = some r := by
      cases hq : d.txPktQHead with
      | none =>
        have hc := h.txQueue
        rw [hq] at hc
        cases hc
      | some r => exact ⟨r, rfl⟩
    have hqueue := h.txQueue
    rw [hhead] at hqueue
    obtain ⟨_, he, _⟩ := chain_some.mp hqueue
    obtain rfl := (List.cons.inj he).1
    refine ⟨?_, ?_, List.getLast?_concat.symm, ?_, honce⟩
    · simp only [txPktEnqueue, htail]
      exact h.freeList.update hlast _
    · simp only [txPktEnqueue, htail, Dev.setNext, hhead]
      exact hqueue.snoc (List.nodup_append.mp hqd).1 h.held.2 hp
    · simp only [txPktEnqueue, htail]
      exact hcount

theorem txPktRequeue_lists {d : Dev} {free queue others : List Nat} {p : Nat}
    (h : Lists d free queue (p :: others)) : Lists (txPktRequeue d p) free (p :: queue) others where
  freeList := h.freeList.update h.held.1 _
  txQueue := h.txQueue.push h.held.2
  tail := by
    simp only [txPktRequeue, Dev.setNext, h.tail]
    cases queue with
    | nil => rfl
    | cons q queue =>
      rw [List.getLast?_cons_cons, List.getLast?_eq_getLast_of_ne_nil (List.cons_ne_nil q queue)]
  count := by simp [txPktRequeue, Dev.setNext, h.count]
  once := by
    refine List.Perm.trans ?_ h.once
    rw [List.cons_append]
    exact List.perm_middle.symm.append_left free

/-- What `star_nic_tx_pkt_dequeue` does. -/
theorem txPktDequeue_lists {d : Dev} {free queue others : List Nat}
    (h : Lists d free queue others) :
    (queue = [] ∧ txPktDequeue d = (d, none)) ∨
      ∃ p queue', queue = p :: queue' ∧ (txPktDequeue d).2 = some p ∧
        Lists (txPktDequeue d).1 free queue' (p :: others) ∧ Relinked d (txPktDequeue d).1 := by
  unfold txPktDequeue
  cases hh : d.txPktQHead with
  | none =>
    have hq := h.txQueue
    rw [hh, chain_none] at hq
    exact .inl ⟨hq, rfl⟩
  | some p =>
    right
    have hq := h.txQueue
    rw [hh] at hq
    obtain ⟨queue', rfl, hrest⟩ := chain_some.mp hq
    have hd := h.nodup
    rw [List.cons_append, List.nodup_middle, List.nodup_cons] at hd
    simp only [List.mem_append, not_or] at hd
    refine ⟨p, queue', rfl, rfl, ⟨h.freeList.update hd.1.1 none, hrest.update hd.1.2.1 none, ?_, ?_, ?_⟩,
      {}⟩
    · have ht := h.tail
      cases hn : d.next p with
      | none =>
        rw [hn, chain_none] at hrest
        simp only [hn, hrest, List.getLast?_nil]
      | some q =>
        rw [hn] at hrest
        obtain ⟨queue'', rfl, _⟩ := chain_some.mp hrest
        simp only [hn, ht, List.getLast?_cons_cons]
    · simp [h.count]
    · refine List.Perm.trans ?_ h.once
      exact List.perm_middle.append_left free

theorem txPktEnqueue_relinked (d : Dev) (p : Nat) : Relinked d (txPktEnqueue d p) := by
  unfold txPktEnqueue
  cases d.txPktQTail <;> exact {}

def TxPc.held : TxPc → List Nat
  | .enqueue p | .test p => [p]
  | .dequeue | .give _ => []

def RxPc.held : RxPc → List Nat
  | .receive p => [p]
  | .look | .swap _ => []

/-- The packets that `eth_send` and `star_nic_rx` have in hand. -/
def Nic.held (s : Nic) : List Nat :=
  s.tx.elim [] TxPc.held ++ s.rx.elim [] fun c => c.pc.held

/-- The packets of `eth_send` calls that are not yet in the ring, oldest first. -/
def Nic.waiting (s : Nic) (queue : List Nat) : List Nat :=
  match s.tx with
  | some (.test p) => p :: queue
  | some (.enqueue p) => queue ++ [p]
  | _ => queue

/-- The rings: a descriptor of the hardware points to the packet of its slot. -/
structure Rings (d : Dev) : Prop where
  curTx : d.curTx < maxTfdNum
  curRx : d.curRx < maxRfdNum
  rxsd : d.rxsd < maxRfdNum
  txOwned : ∀ i < maxTfdNum, (d.txDesc i).cpuOwn = false → d.txRingPkt i = some (d.txDesc i).dataPtr
  rxOwned : ∀ i < maxRfdNum, (d.rxDesc i).cpuOwn = false → d.rxRingPkt i = some (d.rxDesc i).dataPtr

theorem Rings.relinked {d e : Dev} (h : Rings d) (hr : Relinked d e) : Rings e where
  curTx := hr.curTx ▸ h.curTx
  curRx := hr.curRx ▸ h.curRx
  rxsd := hr.rxsd ▸ h.rxsd
  txOwned := by
    rw [hr.txDesc, hr.txRingPkt]
    exact h.txOwned
  rxOwned := by
    rw [hr.rxDesc, hr.rxRingPkt]
    exact h.rxOwned

/-- What `eth_send` relies on. -/
def TxOk (d : Dev) : TxPc → Prop
  | .enqueue p => d.next p = none
  | .give p => d.txRingPkt d.curTx = some p ∧ (d.txDesc d.curTx).cpuOwn = true
  | .dequeue | .test _ => True

def RxOk (d : Dev) : RxPc → Prop
  | .swap p => d.rxRingPkt d.curRx = some p
  | .look | .receive _ => True

/-- The invariant of the driver. -/
structure Inv (s : Nic) (free queue : List Nat) : Prop where
  lists : Lists s.dev free queue (s.held ++ (s.dev.txPkts ++ s.dev.rxPkts))
  rings : Rings s.dev
  tx : ∀ pc, s.tx = some pc → TxOk s.dev pc
  rx : ∀ c, s.rx = some c → RxOk s.dev c.pc
  order : s.dev.sent = s.dev.placed ++ (s.waiting queue).map s.dev.frame

theorem nextIdx_lt {n i : Nat} (h : i < n) : nextIdx n i < n := by
  simp only [nextIdx]
  split <;> omega

theorem freeOld_lists {d : Dev} {free queue held : List Nat} (hcur : d.curTx < maxTfdNum)
    (h : Lists d free queue (held ++ (d.txPkts ++ d.rxPkts))) :
    Relinked d (freeOld d) ∧ ∃ free', Lists (freeOld d) free' queue (held ++
      ((List.range maxTfdNum).filterMap (Function.update d.txRingPkt d.curTx none) ++
        d.rxPkts)) := by
  unfold freeOld
  cases hslot : d.txRingPkt d.curTx with
  | none =>
    refine ⟨{}, free, h.regroup rfl rfl rfl rfl rfl (List.Perm.append_left _ ?_)⟩
    rw [show Function.update d.txRingPkt d.curTx none = d.txRingPkt from
      hslot ▸ Function.update_eq_self _ _]
    exact List.Perm.refl _
  | some old =>
    have hclear := filterMap_clear List.nodup_range (List.mem_range.mpr hcur) hslot
    refine ⟨{}, old :: free, freePkt_lists (h.regroup rfl rfl rfl rfl rfl ?_)⟩
    exact (List.perm_middle.symm).trans ((hclear.symm.append_right _).append_left _)

theorem RxOk.keep {d e : Dev} {pc : RxPc} (h : RxOk d pc) (hring : e.rxRingPkt = d.rxRingPkt)
    (hcur : e.curRx = d.curRx) : RxOk e pc := by
  cases pc with
  | look => trivial
  | swap p => exact (congrFun hring _).trans (hcur ▸ h)
  | receive p => trivial

theorem Rings.place {d : Dev} (h : Rings d) (hown : (d.txDesc d.curTx).cpuOwn = true) (p : Nat)
    (placed : List Nat) :
    Rings { d with txRingPkt := Function.update d.txRingPkt d.curTx (some p), placed := placed } where
  curTx := h.curTx
  curRx := h.curRx
  rxsd := h.rxsd
  txOwned := by
    intro i hi hc
    have hne : i ≠ d.curTx := fun e => by rw [e, hown] at hc; cases hc
    exact (Function.update_of_ne hne _ _).trans (h.txOwned i hi hc)
  rxOwned := h.rxOwned

theorem Rings.give {d : Dev} {p len : Nat} (h : Rings d) (hp : d.txRingPkt d.curTx = some p) :
    Rings { d with
      txDesc := Function.update d.txDesc d.curTx ⟨p, len, true, true, false⟩
      curTx := nextIdx maxTfdNum d.curTx } where
  curTx := nextIdx_lt h.curTx
  curRx := h.curRx
  rxsd := h.rxsd
  txOwned := by
    intro i hi hc
    by_cases he : i = d.curTx
    · subst he
      simpa using hp
    · simp only [Function.update_of_ne he] at hc ⊢
      exact h.txOwned i hi hc
  rxOwned := h.rxOwned

/-- Each step of `eth_send` keeps the invariant. -/
theorem stepTx_inv {s : Nic} {free queue : List Nat} {pc : TxPc} (h : Inv s free queue)
    (hpc : s.tx = some pc) : ∃ free' queue',
      Inv { s with dev := (stepTx s.dev pc).1, tx := (stepTx s.dev pc).2 } free' queue' := by
  obtain ⟨d, rx, tx⟩ := s
  obtain rfl : tx = some pc := hpc
  obtain ⟨hlists, hrings, htx, hrx, horder⟩ := h
  have hok := htx pc rfl
  simp only [Nic.held, Option.elim_some] at hlists
  cases pc with
  | enqueue p =>
    have hr := txPktEnqueue_relinked d p
    have hl := txPktEnqueue_lists hlists hok
    refine ⟨free, queue ++ [p], hl.regroup rfl rfl rfl rfl rfl ?_, hrings.relinked hr, ?_,
      fun c hc => (hrx c hc).keep hr.rxRingPkt hr.curRx, ?_⟩
    · simp only [Nic.held, Dev.txPkts, Dev.rxPkts, stepTx, hr.txRingPkt, hr.rxRingPkt]
      exact List.Perm.refl _
    · intro pc hpc
      obtain rfl := Option.some.inj hpc
      trivial
    · simp only [stepTx, Nic.waiting, hr.sent, hr.placed, hr.frame]
      exact horder
  | dequeue =>
    rcases txPktDequeue_lists hlists with ⟨rfl, hnone⟩ | ⟨p, queue', rfl, hp, hl, hr⟩
    · simp only [stepTx, hnone]
      exact ⟨free, [], hlists, hrings, fun pc hpc => (by cases hpc), hrx, horder⟩
    · simp only [stepTx]
      generalize txPktDequeue d = res at hp hl hr ⊢
      obtain ⟨e, pkt⟩ := res
      obtain rfl : pkt = some p := hp
      simp only at hl hr ⊢
      refine ⟨free, queue', hl.regroup rfl rfl rfl rfl rfl ?_, hrings.relinked hr, ?_,
        fun c hc => (hrx c hc).keep hr.rxRingPkt hr.curRx, ?_⟩
      · simp only [Nic.held, Dev.txPkts, Dev.rxPkts, hr.txRingPkt, hr.rxRingPkt]
        exact List.Perm.refl _
      · intro pc hpc
        obtain rfl := Option.some.inj hpc
        trivial
      · simp only [Nic.waiting, hr.sent, hr.placed, hr.frame]
        exact horder
  | test p =>
    simp only [stepTx]
    split
    · exact ⟨free, p :: queue, txPktRequeue_lists hlists, hrings.relinked {},
        fun pc hpc => (by cases hpc), fun c hc => (hrx c hc).keep rfl rfl, horder⟩
    · rename_i hown
      have hown : (d.txDesc d.curTx).cpuOwn = true := by simpa using hown
      obtain ⟨hr, free', hl⟩ := freeOld_lists hrings.curTx hlists
      generalize freeOld d = e at hr hl ⊢
      have hown' : (e.txDesc e.curTx).cpuOwn = true := by rw [hr.txDesc, hr.curTx, hown]
      refine ⟨free', queue, hl.regroup rfl rfl rfl rfl rfl ?_, (hrings.relinked hr).place hown' p _,
        ?_, fun c hc => (hrx c hc).keep hr.rxRingPkt hr.curRx, ?_⟩
      · have hfill := filterMap_update_perm List.nodup_range
          (List.mem_range.mpr hrings.curTx) d.txRingPkt p
        simp only [Nic.held, Dev.txPkts, Dev.rxPkts, hr.txRingPkt, hr.rxRingPkt, hr.curTx,
          Option.elim_some, TxPc.held, List.nil_append, List.cons_append]
        refine ((hfill.append_right _).append_left _).trans ?_
        rw [List.cons_append]
        exact List.perm_middle
      · intro pc hpc
        obtain rfl := Option.some.inj hpc
        exact ⟨Function.update_self .., hown'⟩
      · simp only [Nic.waiting, List.map_cons] at horder
        simp only [Nic.waiting, hr.sent, hr.placed, hr.frame, horder, List.append_assoc,
          List.singleton_append]
  | give p =>
    simp only [stepTx]
    refine ⟨free, queue, hlists.regroup rfl rfl rfl rfl rfl (.refl _), hrings.give hok.1, ?_,
      fun c hc => (hrx c hc).keep rfl rfl, horder⟩
    intro pc hpc
    obtain rfl := Option.some.inj hpc
    trivial

theorem ethSend_inv {s : Nic} {free queue : List Nat} (h : Inv s free queue) (htx : s.tx = none)
    (frame len : Nat) : ∃ free', Inv { s with
      dev := (ethSend s.dev frame len).1, tx := (ethSend s.dev frame len).2 } free' queue := by
  obtain ⟨d, rx, tx⟩ := s
  obtain rfl : tx = none := htx
  obtain ⟨hlists, hrings, -, hrx, horder⟩ := h
  simp only [ethSend]
  have hnone := allocPkt_none (d := d)
  have hsome (p : Nat) (hp : (allocPkt d).2 = some p) := allocPkt_some hlists hp
  generalize allocPkt d = res at hnone hsome ⊢
  obtain ⟨e, pkt⟩ := res
  cases pkt with
  | none =>
    obtain rfl : e = d := hnone rfl
    exact ⟨free, hlists, hrings, fun pc hpc => (by cases hpc), hrx, horder⟩
  | some p =>
    obtain ⟨free', rfl, hl, hend, hr⟩ := hsome p rfl
    simp only at hl hend hr ⊢
    refine ⟨free', hl.regroup rfl rfl rfl rfl rfl ?_, ?_, ?_, fun c hc =>
      (hrx c hc).keep hr.rxRingPkt hr.curRx, ?_⟩
    · simp only [Nic.held, Dev.txPkts, Dev.rxPkts, hr.txRingPkt, hr.rxRingPkt]
      exact List.Perm.refl _
    · have hr' := hrings.relinked hr
      exact ⟨hr'.curTx, hr'.curRx, hr'.rxsd, hr'.txOwned, hr'.rxOwned⟩
    · intro pc hpc
      obtain rfl := Option.some.inj hpc
      exact hend
    · -- the new packet is none of those that wait
      have hkeep : queue.map (Function.update d.frame p frame) = queue.map d.frame :=
        List.map_congr_left fun q hq =>
          Function.update_of_ne (fun e : q = p => hl.held.2 (e ▸ hq)) _ _
      simp only [Nic.waiting] at horder ⊢
      rw [hr.sent, hr.placed, hr.frame, horder, List.map_append, hkeep]
      simp

/-- Each step of `star_nic_rx` keeps the invariant. -/
theorem stepRx_inv {s : Nic} {free queue : List Nat} {c : RxCall} {res : Dev × Option RxCall}
    (h : Inv s free queue) (htx : s.tx = none) (hc : s.rx = some c)
    (hres : stepRx s.dev c = some res) :
    ∃ free', Inv { s with dev := res.1, rx := res.2 } free' queue := by
  obtain ⟨d, rx, tx⟩ := s
  obtain rfl : tx = none := htx
  obtain rfl : rx = some c := hc
  obtain ⟨hlists, hrings, -, hrx, horder⟩ := h
  have hok := hrx c rfl
  obtain ⟨pc, firstTime, rxcount⟩ := c
  simp only [Nic.held, Option.elim_some, Option.elim_none] at hlists
  cases pc with
  | look =>
    simp only [stepRx] at hres
    split at hres
    · split at hres
      · obtain rfl := Option.some.inj hres
        refine ⟨free, hlists, hrings, fun pc hpc => (by cases hpc), fun c hc => ?_, horder⟩
        obtain rfl := Option.some.inj hc
        trivial
      · obtain rfl := Option.some.inj hres
        exact ⟨free, hlists, hrings, fun pc hpc => (by cases hpc), fun c hc => (by cases hc), horder⟩
    · obtain ⟨p, hp, rfl⟩ := Option.map_eq_some_iff.mp hres
      refine ⟨free, hlists.regroup rfl rfl rfl rfl rfl (.refl _), hrings.relinked {},
        fun pc hpc => (by cases hpc), fun c hc => ?_, horder⟩
      obtain rfl := Option.some.inj hc
      exact hp
  | swap p =>
    simp only [stepRx] at hres
    have hsome (q : Nat) (hq : (allocPkt d).2 = some q) := allocPkt_some hlists hq
    generalize allocPkt d = res' at hsome hres
    obtain ⟨e, pkt⟩ := res'
    cases pkt with
    | none => cases hres
    | some q =>
      obtain rfl := Option.some.inj hres
      obtain ⟨free', rfl, hl, -, hr⟩ := hsome q rfl
      simp only at hl hr ⊢
      refine ⟨free', hl.regroup rfl rfl rfl rfl rfl ?_, ?_, fun pc hpc => (by cases hpc),
        fun c hc => ?_, ?_⟩
      · have hmem := List.mem_range.mpr hrings.curRx
        have hclear := filterMap_clear List.nodup_range hmem hok
        have hfill := filterMap_update_perm List.nodup_range hmem d.rxRingPkt q
        simp only [Nic.held, Dev.txPkts, Dev.rxPkts, hr.txRingPkt, hr.rxRingPkt, hr.curRx,
          Option.elim_some, Option.elim_none, RxPc.held, List.nil_append, List.singleton_append]
        -- `p` out of its slot and `q` in
        refine ((hfill.append_left _).cons p).trans ?_
        refine List.Perm.trans ?_ ((hclear.append_left _).cons q).symm
        exact (List.perm_middle.cons p).trans ((List.Perm.swap q p _).trans
          (List.perm_middle.symm.cons q))
      · have hr' := hrings.relinked hr
        refine ⟨hr'.curTx, hr'.curRx, hr'.rxsd, hr'.txOwned, fun i hi hc => ?_⟩
        by_cases he : i = e.curRx
        · subst he
          simp
        · simp only [Function.update_of_ne he] at hc ⊢
          exact hr'.rxOwned i hi hc
      · obtain rfl := Option.some.inj hc
        trivial
      · simp only [Nic.waiting, hr.sent, hr.placed, hr.frame]
        exact horder
  | receive p =>
    have hl := freePkt_lists hlists
    have hr : Rings { freePkt d p with curRx := nextIdx maxRfdNum d.curRx } :=
      ⟨hrings.curTx, nextIdx_lt hrings.curRx, hrings.rxsd, hrings.txOwned, hrings.rxOwned⟩
    simp only [stepRx] at hres
    split at hres
    all_goals
      obtain rfl := Option.some.inj hres
      refine ⟨p :: free, hl.regroup rfl rfl rfl rfl rfl (.refl _), hr, fun pc hpc => (by cases hpc),
        fun c hc => ?_, horder⟩
    · cases hc
    · obtain rfl := Option.some.inj hc
      trivial

theorem complete_inv {s : Nic} {free queue : List Nat} {d : Dev} (h : Inv s free queue)
    (hd : complete s.dev = some d) : Inv { s with dev := d } free queue := by
  simp only [complete] at hd
  split at hd
  · obtain rfl := Option.some.inj hd
    have hown (i : Nat) : ((Function.update s.dev.txDesc s.dev.txsd
        { s.dev.txDesc s.dev.txsd with cpuOwn := true }) i).cpuOwn = false →
        i ≠ s.dev.txsd := fun hc he => by simp [he] at hc
    refine ⟨h.lists.regroup rfl rfl rfl rfl rfl (.refl _), ⟨h.rings.curTx, h.rings.curRx,
      h.rings.rxsd, fun i hi hc => ?_, h.rings.rxOwned⟩, fun pc hpc => ?_,
      fun c hc => (h.rx c hc).keep rfl rfl, h.order⟩
    · have hne := hown i hc
      simp only [Function.update_of_ne hne] at hc ⊢
      exact h.rings.txOwned i hi hc
    · have hok := h.tx pc hpc
      cases pc with
      | give p =>
        refine ⟨hok.1, ?_⟩
        by_cases he : s.dev.curTx = s.dev.txsd
        · simp [he]
        · simp only [Function.update_of_ne he]
          exact hok.2
      | enqueue p => exact hok
      | dequeue => trivial
      | test p => trivial
  · cases hd

/-- The packets that wait for the ring are not in a receive slot. -/
theorem Inv.waiting_not_rx {s : Nic} {free queue : List Nat} (h : Inv s free queue) {p : Nat}
    (hp : p ∈ s.dev.rxPkts) : p ∉ s.waiting queue := by
  have hsub : s.waiting queue ⊆ queue ++ s.held := by
    intro q hq
    simp only [Nic.waiting] at hq
    simp only [Nic.held, List.mem_append]
    split at hq <;> simp_all [TxPc.held] <;> tauto
  have hd := h.lists.nodup
  rw [List.nodup_append] at hd
  have hd := hd.2.1
  rw [← List.append_assoc, List.nodup_append] at hd
  exact fun hm => hd.2.2 p (hsub hm) p (List.mem_append_right _ hp) rfl

theorem fill_inv {s : Nic} {free queue : List Nat} {d : Dev} {frame len : Nat}
    (h : Inv s free queue) (hd : fill s.dev frame len = some d) :
    Inv { s with dev := d } free queue := by
  simp only [fill] at hd
  split at hd
  · rename_i hown
    obtain rfl := Option.some.inj hd
    have hslot := h.rings.rxOwned _ h.rings.rxsd hown
    have hmem : (s.dev.rxDesc s.dev.rxsd).dataPtr ∈ s.dev.rxPkts :=
      List.mem_filterMap.mpr ⟨_, List.mem_range.mpr h.rings.rxsd, hslot⟩
    refine ⟨h.lists.regroup rfl rfl rfl rfl rfl (.refl _), ⟨h.rings.curTx, h.rings.curRx,
      nextIdx_lt h.rings.rxsd, h.rings.txOwned, fun i hi hc => ?_⟩, h.tx,
      fun c hc => (h.rx c hc).keep rfl rfl, ?_⟩
    · have hne : i ≠ s.dev.rxsd := fun he => by simp [he] at hc
      simp only [Function.update_of_ne hne] at hc ⊢
      exact h.rings.rxOwned i hi hc
    · refine h.order.trans (congrArg _ (List.map_congr_left fun q hq => ?_))
      have hne : q ≠ (s.dev.rxDesc s.dev.rxsd).dataPtr :=
        fun e => h.waiting_not_rx hmem (e ▸ hq)
      exact (Function.update_of_ne hne _ _).symm
  · cases hd

theorem start_inv : Inv start (List.range' maxRfdNum (numPktBuffer - maxRfdNum)) [] where
  lists := ⟨by decide +kernel, by decide +kernel, rfl, rfl, by decide +kernel⟩
  rings := ⟨by decide, by decide, by decide, by decide +kernel, by decide +kernel⟩
  tx := fun pc hpc => (by cases hpc)
  rx := fun c hc => (by cases hc)
  order := rfl

theorem step_inv {s t : Nic} {a : Act} {free queue : List Nat} (h : Inv s free queue)
    (ht : step s a = some t) : ∃ free' queue', Inv t free' queue' := by
  cases a with
  | complete =>
    obtain ⟨d, hd, rfl⟩ := Option.map_eq_some_iff.mp ht
    exact ⟨free, queue, complete_inv h hd⟩
  | fill frame len =>
    obtain ⟨d, hd, rfl⟩ := Option.map_eq_some_iff.mp ht
    exact ⟨free, queue, fill_inv h hd⟩
  | ethSend frame len =>
    simp only [step] at ht
    split at ht
    · rename_i hcan
      have htx : s.tx = none := by
        simp only [canSend, Bool.and_eq_true, Option.isNone_iff_eq_none] at hcan
        exact hcan.1
      obtain rfl := Option.some.inj ht
      obtain ⟨free', h'⟩ := ethSend_inv h htx frame len
      exact ⟨free', queue, h'⟩
    · cases ht
  | ethRx =>
    simp only [step] at ht
    split at ht
    · rename_i hidle
      simp only [Bool.and_eq_true, Option.isNone_iff_eq_none] at hidle
      obtain rfl := Option.some.inj ht
      refine ⟨free, queue, ?_, h.rings, h.tx, fun c hc => ?_, h.order⟩
      · have hl := h.lists
        simp only [Nic.held, hidle.1] at hl
        exact hl
      · obtain rfl := Option.some.inj hc
        trivial
    · cases ht
  | go =>
    simp only [step] at ht
    split at ht
    · rename_i pc hpc
      obtain rfl := Option.some.inj ht
      exact stepTx_inv h hpc
    · rename_i c htx hc
      obtain ⟨res, hres, rfl⟩ := Option.map_eq_some_iff.mp ht
      obtain ⟨free', h'⟩ := stepRx_inv h htx hc hres
      exact ⟨free', queue, h'⟩
    · cases ht

/-- The claim of the pool, with the packets of the free list and of the transmit queue in
the order of their links. -/
structure PoolSound (s : Nic) (free queue : List Nat) : Prop where
  freeList : Chain s.dev.next s.dev.freePktList free
  txQueue : Chain s.dev.next s.dev.txPktQHead queue
  tail : s.dev.txPktQTail = queue.getLast?
  count : s.dev.txPktQCount = queue.length
  /-- Each packet is in one place. -/
  once : ∀ p < numPktBuffer, free.count p + queue.count p +
    ((List.range maxTfdNum).countP fun i => s.dev.txRingPkt i = some p) +
    ((List.range maxRfdNum).countP fun i => s.dev.rxRingPkt i = some p) + s.held.count p = 1
  /-- Nothing else is in these places. -/
  pool : ∀ p ∈ free ++ queue ++ s.dev.txPkts ++ s.dev.rxPkts ++ s.held, p < numPktBuffer
  /-- The packet of a descriptor that the hardware owns is in its slot, so it is not free. -/
  owned : ∀ i < maxTfdNum, (s.dev.txDesc i).cpuOwn = false →
    s.dev.txRingPkt i = some (s.dev.txDesc i).dataPtr ∧ (s.dev.txDesc i).dataPtr ∉ free
  /-- The frames not yet in the ring are the last ones sent, in order. -/
  order : s.dev.sent = s.dev.placed ++ (s.waiting queue).map s.dev.frame

theorem Inv.sound {s : Nic} {free queue : List Nat} (h : Inv s free queue) :
    PoolSound s free queue where
  freeList := h.lists.freeList
  txQueue := h.lists.txQueue
  tail := h.lists.tail
  count := h.lists.count
  once := by
    intro p hp
    have hc := h.lists.once.count_eq p
    rw [List.count_eq_one_of_mem List.nodup_range (List.mem_range.mpr hp)] at hc
    have hslots (n : Nat) (f : Nat → Option Nat) : ((List.range n).filterMap f).count p =
        (List.range n).countP fun i => f i = some p := by
      rw [List.count_filterMap]
      exact List.countP_congr (by simp)
    simp only [List.count_append, Dev.txPkts, Dev.rxPkts, hslots] at hc
    omega
  pool := by
    intro p hp
    refine List.mem_range.mp (h.lists.once.mem_iff.mp ?_)
    simp only [List.mem_append] at hp ⊢
    tauto
  owned := by
    intro i hi hc
    have hslot := h.rings.txOwned i hi hc
    refine ⟨hslot, fun hm => ?_⟩
    have hmem : (s.dev.txDesc i).dataPtr ∈ s.dev.txPkts :=
      List.mem_filterMap.mpr ⟨i, List.mem_range.mpr hi, hslot⟩
    refine (List.nodup_append.mp h.lists.nodup).2.2 _ hm _ ?_ rfl
    exact List.mem_append_right _ (List.mem_append_right _ (List.mem_append_left _ hmem))
  order := h.order

/-- In every run, with sends between and inside receptions and the hardware at any pace,
the packets stay accounted for and go to the ring in order. -/
theorem pool_sound {s : Nic} (h : Reach step anyStep start s) :
    ∃ free queue, PoolSound s free queue := by
  have hinv : ∃ free queue, Inv s free queue := by
    refine h.invariant (I := fun t => ∃ free queue, Inv t free queue) ⟨_, _, start_inv⟩
      fun u a t hu _ ht => ?_
    obtain ⟨free, queue, hu⟩ := hu
    exact step_inv hu ht
  obtain ⟨free, queue, hinv⟩ := hinv
  exact ⟨free, queue, hinv.sound⟩

/-- A frame comes in, and `NetReceive` sends seventeen while the hardware sends none. -/
def burst : List Act :=
  [.fill 100 64, .ethRx, .go, .go] ++
    (List.range 17).flatMap (fun i => [.ethSend i 42, .go, .go, .go] ++
      if i < 16 then [.go, .go] else [])

theorem pool_sound_burst : ∃ s, run step anyStep burst start = some s ∧ s.held = [0] ∧
    s.dev.placed = List.range 16 ∧ s.dev.sent = List.range 17 ∧ s.dev.txPktQCount = 1 ∧
    ∃ free queue, PoolSound s free queue := by
  have h : (run step anyStep burst start).map (fun s =>
      (s.held, s.dev.placed, s.dev.sent, s.dev.txPktQCount)) =
      some ([0], List.range 16, List.range 17, 1) := by decide +kernel
  obtain ⟨s, hs, hh⟩ := Option.map_eq_some_iff.mp h
  simp only [Prod.mk.injEq] at hh
  obtain ⟨hheld, hplaced, hsent, hcount⟩ := hh
  exact ⟨s, hs, hheld, hplaced, hsent, hcount, pool_sound (Reach.start.run burst hs)⟩

end SnakeOs.UBoot
