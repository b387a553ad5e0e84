import SnakeOs.UBoot.Accounted

namespace SnakeOs.UBoot
open Lib

/-- The free list has a second packet. -/
def Spared (d : Dev) : Prop := (d.freePktList.bind d.next).isSome

/-- The next transmit descriptor is finished, and `star_nic_tx` frees the packet in its slot. -/
def Refunds (d : Dev) : Prop := (d.txDesc d.curTx).cpuOwn = true ∧ (d.txRingPkt d.curTx).isSome

/-- `eth_send` is called from `NetReceive`, or where it leaves or brings back a packet. -/
def Frugal (s : Nic) : Act → Prop
  | .ethSend _ _ => s.rx.isSome ∨ Spared s.dev ∨ Refunds s.dev
  | _ => True

instance (s : Nic) : (a : Act) → Decidable (Frugal s a)
  | .ethSend _ _ => inferInstanceAs (Decidable (_ ∨ _ = true ∨ _ ∧ _))
  | .complete | .fill _ _ | .ethRx | .go => .isTrue trivial

/-- `star_nic_rx` gets the packet that it asks for, and the receive ring is full of packets. -/
structure RxSupplied (s : Nic) : Prop where
  alloc : ∀ c p, s.tx = none → s.rx = some c → c.pc = .swap p → (allocPkt s.dev).2.isSome
  slots : ∀ i < maxRfdNum, ∃ pkt < numPktBuffer,
    s.dev.rxRingPkt i = some pkt ∧ (s.dev.rxDesc i).dataPtr = pkt

/-- `eth_send` is going to free a packet. -/
def Owed (d : Dev) : TxPc → Prop
  | .enqueue _ | .test _ => Refunds d
  | .dequeue => Refunds d ∧ d.txPktQHead.isSome
  | .give _ => False

/-- There is a free packet, or there is one when `eth_send` returns. -/
def Backed (d : Dev) : Option TxPc → Prop
  | none => d.freePktList.isSome
  | some pc => d.freePktList.isSome ∨ Owed d pc

/-- `NetReceive` has been called. -/
def Nic.receiving (s : Nic) : Bool :=
  match s.rx with
  | some c => match c.pc with
    | .receive _ => true
    | .look | .swap _ => false
  | none => false

/-- Outside `NetReceive`, which is to free its packet, the free list is not left empty. -/
structure Spare (s : Nic) : Prop where
  backed : s.receiving = false → Backed s.dev s.tx
  inside : s.tx.isSome → s.rx.isSome → s.receiving = true

section
variable {d e : Dev}

theorem Refunds.relinked (h : Refunds d) (hr : Relinked d e) : Refunds e := by
  rw [Refunds, hr.txDesc, hr.txRingPkt, hr.curTx]
  exact h

theorem allocPkt_relinked (d : Dev) : Relinked d (allocPkt d).1 := by
  unfold allocPkt
  cases d.freePktList <;> exact {}

theorem allocPkt_isSome (h : d.freePktList.isSome) : (allocPkt d).2.isSome := by
  obtain ⟨p, hp⟩ := Option.isSome_iff_exists.mp h
  simp [allocPkt, hp]

/-- Taking the first of two packets leaves the second. -/
theorem allocPkt_spared (h : Spared d) : (allocPkt d).1.freePktList.isSome := by
  simp only [Spared] at h
  cases hp : d.freePktList with
  | none => simp [hp] at h
  | some p => simpa [allocPkt, hp] using h

theorem txPktEnqueue_free (d : Dev) (p : Nat) :
    (txPktEnqueue d p).freePktList = d.freePktList := by
  unfold txPktEnqueue
  cases d.txPktQTail <;> rfl

theorem txPktEnqueue_head (d : Dev) (p : Nat) : (txPktEnqueue d p).txPktQHead.isSome := by
  simp only [txPktEnqueue]
  split <;> rfl

theorem txPktDequeue_free (d : Dev) : (txPktDequeue d).1.freePktList = d.freePktList := by
  unfold txPktDequeue
  cases d.txPktQHead <;> rfl

theorem txPktDequeue_relinked (d : Dev) : Relinked d (txPktDequeue d).1 := by
  unfold txPktDequeue
  cases d.txPktQHead <;> exact {}

theorem freeOld_relinked (d : Dev) : Relinked d (freeOld d) := by
  unfold freeOld
  cases d.txRingPkt d.curTx <;> exact {}

theorem freeOld_free (h : d.freePktList.isSome ∨ (d.txRingPkt d.curTx).isSome) :
    (freeOld d).freePktList.isSome := by
  unfold freeOld
  cases hold : d.txRingPkt d.curTx with
  | none => simpa [hold] using h
  | some old => rfl

/-- Each step of `eth_send` leaves a packet or is still to free one. -/
theorem stepTx_backed {pc : TxPc} (h : Backed d (some pc)) :
    Backed (stepTx d pc).1 (stepTx d pc).2 := by
  cases pc with
  | enqueue p =>
    rcases h with h | h
    · exact .inl (by simpa [stepTx, txPktEnqueue_free] using h)
    · exact .inr ⟨h.relinked (txPktEnqueue_relinked d p), txPktEnqueue_head d p⟩
  | dequeue =>
    have hfree := txPktDequeue_free d
    have hr := txPktDequeue_relinked d
    have hnone : (txPktDequeue d).2 = none → d.txPktQHead = none := by
      unfold txPktDequeue
      cases d.txPktQHead <;> simp
    simp only [stepTx]
    generalize txPktDequeue d = res at hfree hr hnone ⊢
    obtain ⟨e, pkt⟩ := res
    simp only at hfree hr hnone ⊢
    cases pkt with
    | none =>
      rcases h with h | h
      · simpa [Backed, hfree] using h
      · exact absurd h.2 (by simp [hnone rfl])
    | some p =>
      rcases h with h | h
      · exact .inl (by simpa [hfree] using h)
      · exact .inr (h.1.relinked hr)
  | test p =>
    simp only [stepTx]
    split
    · rename_i hown
      rcases h with h | h
      · simpa [Backed, txPktRequeue, Dev.setNext] using h
      · rw [h.1] at hown
        cases hown
    · refine .inl (freeOld_free (h.imp_right And.right))
  | give p =>
    rcases h with h | h
    · exact .inl h
    · exact h.elim

theorem ethSend_backed {frame len : Nat} (h : d.freePktList.isSome)
    (hok : Spared d ∨ Refunds d) : Backed (ethSend d frame len).1 (ethSend d frame len).2 := by
  have hsome := allocPkt_isSome h
  have hspared := allocPkt_spared (d := d)
  have hr := allocPkt_relinked d
  simp only [ethSend]
  generalize allocPkt d = res at hsome hspared hr ⊢
  obtain ⟨e, pkt⟩ := res
  cases pkt with
  | none => cases hsome
  | some p => exact hok.imp hspared fun hrefund => (hrefund.relinked hr : Refunds e)

theorem complete_backed {tx : Option TxPc} (h : Backed d tx) (hd : complete d = some e) :
    Backed e tx := by
  simp only [complete] at hd
  split at hd
  · obtain rfl := Option.some.inj hd
    have hrefunds : Refunds d → Refunds { d with
        txDesc := Function.update d.txDesc d.txsd { d.txDesc d.txsd with cpuOwn := true }
        txsd := nextIdx maxTfdNum d.txsd } := by
      intro hr
      refine ⟨?_, hr.2⟩
      by_cases he : d.curTx = d.txsd
      · simp [he]
      · simpa [Function.update_of_ne he] using hr.1
    cases tx with
    | none => exact h
    | some pc =>
      refine h.imp_right fun howed => ?_
      cases pc with
      | enqueue p => exact hrefunds howed
      | dequeue => exact ⟨hrefunds howed.1, howed.2⟩
      | test p => exact hrefunds howed
      | give p => exact howed
  · cases hd

/-- The parts of the driver that receive. -/
structure SameRx (d e : Dev) : Prop where
  ring : e.rxRingPkt = d.rxRingPkt := by rfl
  desc : e.rxDesc = d.rxDesc := by rfl

theorem SameRx.of_relinked (h : Relinked d e) : SameRx d e := ⟨h.rxRingPkt, h.rxDesc⟩

theorem stepTx_sameRx (d : Dev) (pc : TxPc) : SameRx d (stepTx d pc).1 := by
  cases pc with
  | enqueue p => exact .of_relinked (txPktEnqueue_relinked d p)
  | dequeue =>
    have hr := txPktDequeue_relinked d
    simp only [stepTx]
    generalize txPktDequeue d = res at hr ⊢
    obtain ⟨e, pkt⟩ := res
    cases pkt <;> exact .of_relinked hr
  | test p =>
    have hr := freeOld_relinked d
    simp only [stepTx]
    split
    · exact {}
    · exact ⟨hr.rxRingPkt, hr.rxDesc⟩
  | give p => exact {}

theorem ethSend_sameRx (d : Dev) (frame len : Nat) : SameRx d (ethSend d frame len).1 := by
  have hr := allocPkt_relinked d
  simp only [ethSend]
  generalize allocPkt d = res at hr ⊢
  obtain ⟨e, pkt⟩ := res
  cases pkt <;> exact ⟨hr.rxRingPkt, hr.rxDesc⟩

/-- Each receive descriptor points to the packet of its slot, whoever owns it. -/
def RxSlots (d : Dev) : Prop := ∀ i < maxRfdNum, d.rxRingPkt i = some (d.rxDesc i).dataPtr

theorem RxSlots.same (h : RxSlots d) (hs : SameRx d e) : RxSlots e := by
  intro i hi
  rw [hs.ring, hs.desc]
  exact h i hi

theorem RxSlots.fill {frame len : Nat} (h : RxSlots d) (hd : fill d frame len = some e) :
    RxSlots e := by
  simp only [UBoot.fill] at hd
  split at hd
  · obtain rfl := Option.some.inj hd
    intro i hi
    by_cases he : i = d.rxsd
    · subst he
      simpa using h _ hi
    · simpa [Function.update_of_ne he] using h i hi
  · cases hd

/-- A new packet goes into the slot and the descriptor alike. -/
theorem RxSlots.stepRx {c : RxCall} {res : Dev × Option RxCall} (h : RxSlots d)
    (hres : stepRx d c = some res) : RxSlots res.1 := by
  obtain ⟨pc, firstTime, rxcount⟩ := c
  cases pc with
  | look =>
    simp only [UBoot.stepRx] at hres
    split at hres
    · split at hres <;> obtain rfl := Option.some.inj hres <;> exact h
    · obtain ⟨p, -, rfl⟩ := Option.map_eq_some_iff.mp hres
      exact h.same {}
  | swap p =>
    have hr := allocPkt_relinked d
    simp only [UBoot.stepRx] at hres
    generalize allocPkt d = res' at hr hres
    obtain ⟨e, pkt⟩ := res'
    cases pkt with
    | none => cases hres
    | some q =>
      obtain rfl := Option.some.inj hres
      intro i hi
      have hslots := h.same (.of_relinked hr) i hi
      by_cases he : i = e.curRx
      · subst he
        simp
      · simpa [Function.update_of_ne he] using hslots
  | receive p =>
    simp only [UBoot.stepRx] at hres
    split at hres <;> obtain rfl := Option.some.inj hres <;> exact h.same {}

end

section
variable {s t : Nic}

/-- `star_nic_rx` takes a packet only to free one. -/
theorem stepRx_spare {c : RxCall} {res : Dev × Option RxCall} (h : Spare s) (htx : s.tx = none)
    (hc : s.rx = some c) (hres : stepRx s.dev c = some res) :
    Spare { s with dev := res.1, rx := res.2 } := by
  obtain ⟨d, rx, tx⟩ := s
  obtain rfl : tx = none := htx
  obtain rfl : rx = some c := hc
  have hbacked := h.backed
  refine ⟨fun hout => ?_, fun htx => by cases htx⟩
  obtain ⟨pc, firstTime, rxcount⟩ := c
  cases pc with
  | look =>
    have hfree := hbacked rfl
    simp only [stepRx] at hres
    split at hres
    · split at hres <;> obtain rfl := Option.some.inj hres <;> exact hfree
    · obtain ⟨p, -, rfl⟩ := Option.map_eq_some_iff.mp hres
      exact hfree
  | swap p =>
    simp only [stepRx] at hres
    generalize allocPkt d = res' at hres
    obtain ⟨e, pkt⟩ := res'
    cases pkt with
    | none => cases hres
    | some q =>
      obtain rfl := Option.some.inj hres
      cases hout
  | receive p =>
    simp only [stepRx] at hres
    split at hres <;> obtain rfl := Option.some.inj hres <;> rfl

theorem canSend_receiving (h : canSend s = true) :
    s.tx = none ∧ (s.rx.isSome → s.receiving = true) := by
  obtain ⟨d, rx, tx⟩ := s
  simp only [canSend, Bool.and_eq_true, Option.isNone_iff_eq_none] at h
  refine ⟨h.1, fun hrx => ?_⟩
  obtain ⟨⟨pc, firstTime, rxcount⟩, rfl⟩ := Option.isSome_iff_exists.mp hrx
  cases pc with
  | look => exact h.2
  | swap p => exact h.2
  | receive p => rfl

/-- A frugal step leaves a packet for the next frame. -/
theorem step_spare {a : Act} (h : Spare s) (hok : Frugal s a) (ht : step s a = some t) :
    Spare t := by
  cases a with
  | complete =>
    obtain ⟨d, hd, rfl⟩ := Option.map_eq_some_iff.mp ht
    exact ⟨fun hout => complete_backed (h.backed hout) hd, h.inside⟩
  | fill frame len =>
    obtain ⟨d, hd, rfl⟩ := Option.map_eq_some_iff.mp ht
    simp only [fill] at hd
    split at hd
    · obtain rfl := Option.some.inj hd
      exact ⟨h.backed, h.inside⟩
    · cases hd
  | ethSend frame len =>
    simp only [step] at ht
    split at ht
    · rename_i hcan
      obtain ⟨htx, hinside⟩ := canSend_receiving hcan
      obtain rfl := Option.some.inj ht
      refine ⟨fun hout => ?_, fun _ hrx => hinside hrx⟩
      have hfree := h.backed hout
      rw [htx] at hfree
      refine ethSend_backed hfree (hok.resolve_left fun hrx => ?_)
      exact absurd (hinside hrx) (by rw [show s.receiving = false from hout]; exact Bool.false_ne_true)
    · cases ht
  | ethRx =>
    simp only [step] at ht
    split at ht
    · rename_i hidle
      simp only [Bool.and_eq_true, Option.isNone_iff_eq_none] at hidle
      obtain rfl := Option.some.inj ht
      have hout : s.receiving = false := by simp [Nic.receiving, hidle.1]
      exact ⟨fun _ => h.backed hout, fun htx => by simp [hidle.2] at htx⟩
    · cases ht
  | go =>
    simp only [step] at ht
    split at ht
    · rename_i pc hpc
      obtain rfl := Option.some.inj ht
      refine ⟨fun hout => stepTx_backed (hpc ▸ h.backed hout), fun _ hrx => ?_⟩
      exact h.inside (by simp [hpc]) hrx
    · rename_i c htx hc
      obtain ⟨res, hres, rfl⟩ := Option.map_eq_some_iff.mp ht
      exact stepRx_spare h htx hc hres
    · cases ht

theorem step_rxSlots {a : Act} (h : RxSlots s.dev) (ht : step s a = some t) : RxSlots t.dev := by
  cases a with
  | complete =>
    obtain ⟨d, hd, rfl⟩ := Option.map_eq_some_iff.mp ht
    simp only [complete] at hd
    split at hd
    · obtain rfl := Option.some.inj hd
      exact h
    · cases hd
  | fill frame len =>
    obtain ⟨d, hd, rfl⟩ := Option.map_eq_some_iff.mp ht
    exact h.fill hd
  | ethSend frame len =>
    simp only [step] at ht
    split at ht
    · obtain rfl := Option.some.inj ht
      exact h.same (ethSend_sameRx _ _ _)
    · cases ht
  | ethRx =>
    simp only [step] at ht
    split at ht
    · obtain rfl := Option.some.inj ht
      exact h
    · cases ht
  | go =>
    simp only [step] at ht
    split at ht
    · obtain rfl := Option.some.inj ht
      exact h.same (stepTx_sameRx _ _)
    · obtain ⟨res, hres, rfl⟩ := Option.map_eq_some_iff.mp ht
      exact h.stepRx hres
    · cases ht

end

theorem start_spare : Spare start := by
  have hfree : start.dev.freePktList.isSome := by decide +kernel
  exact ⟨fun _ => hfree, fun htx => by cases htx⟩

theorem start_rxSlots : RxSlots start.dev := by
  unfold RxSlots
  decide +kernel

/-- In every run of frugal sends `star_nic_rx` gets the packets that it asks for. -/
theorem rx_supplied {s : Nic} (h : Reach step Frugal start s) : RxSupplied s := by
  have hinv : (∃ free queue, Inv s free queue) ∧ RxSlots s.dev ∧ Spare s := by
    refine h.invariant (I := fun t => (∃ free queue, Inv t free queue) ∧ RxSlots t.dev ∧ Spare t)
      ⟨⟨_, _, start_inv⟩, start_rxSlots, start_spare⟩ fun u a t hu hok ht => ?_
    obtain ⟨⟨free, queue, hu⟩, hslots, hspare⟩ := hu
    exact ⟨step_inv hu ht, step_rxSlots hslots ht, step_spare hspare hok ht⟩
  obtain ⟨⟨free, queue, hinv⟩, hslots, hspare⟩ := hinv
  refine ⟨fun c p htx hc hpc => ?_, fun i hi => ?_⟩
  · have hout : s.receiving = false := by simp [Nic.receiving, hc, hpc]
    have hfree := hspare.backed hout
    rw [htx] at hfree
    exact allocPkt_isSome hfree
  · have hslot := hslots i hi
    have hmem : (s.dev.rxDesc i).dataPtr ∈ s.dev.rxPkts :=
      List.mem_filterMap.mpr ⟨i, List.mem_range.mpr hi, hslot⟩
    refine ⟨_, hinv.sound.pool _ ?_, hslot, rfl⟩
    simp only [List.mem_append]
    exact .inl (.inr hmem)

/-- A send from outside, then a frame in whose reception all the packets are sent off, and the
next frame. -/
def drain : List Act :=
  [.ethSend 0 42, .go, .go, .go, .go, .go, .fill 100 64, .fill 101 64, .ethRx, .go, .go] ++
    (List.range 15).flatMap (fun i => [.ethSend (1 + i) 42, .go, .go, .go, .go, .go]) ++
    (List.range 95).flatMap (fun i => [.ethSend (16 + i) 42, .go, .go, .go]) ++ [.go, .go]

theorem rx_supplied_drain : ∃ s, run step Frugal drain start = some s ∧ s.tx = none ∧
    s.rx.map (·.pc) = some (.swap 1) ∧ RxSupplied s := by
  have h : (run step Frugal drain start).map (fun s => (s.tx, s.rx.map (·.pc))) =
      some (none, some (.swap 1)) := by decide +kernel
  obtain ⟨s, hs, hh⟩ := Option.map_eq_some_iff.mp h
  simp only [Prod.mk.injEq] at hh
  exact ⟨s, hs, hh.1, hh.2, rx_supplied (Reach.start.run drain hs)⟩

/-- Sends from outside while the hardware completes none take every packet, and the next frame
finds none. -/
def stalled : List Act :=
  (List.range 16).flatMap (fun i => [.ethSend i 42, .go, .go, .go, .go, .go]) ++
    (List.range 96).flatMap (fun i => [.ethSend (16 + i) 42, .go, .go, .go]) ++
    [.fill 112 64, .ethRx, .go]

theorem rx_not_supplied : ∃ s, Reach step anyStep start s ∧ ¬ RxSupplied s := by
  have h : (run step anyStep stalled start).map
      (fun s => (s.tx, s.rx.map (·.pc), (allocPkt s.dev).2)) = some (none, some (.swap 0), none) := by
    decide +kernel
  obtain ⟨s, hs, hh⟩ := Option.map_eq_some_iff.mp h
  simp only [Prod.mk.injEq] at hh
  obtain ⟨htx, hpc, halloc⟩ := hh
  obtain ⟨c, hc, hswap⟩ := Option.map_eq_some_iff.mp hpc
  refine ⟨s, Reach.start.run stalled hs, fun hsup => ?_⟩
  have hsome := hsup.alloc c 0 htx hc hswap
  rw [halloc] at hsome
  cases hsome

end SnakeOs.UBoot
